import Mathlib
import LazyTree.Proofs.HostPaths
import LazyTree.Proofs.Identities
import LazyTree.Proofs.NameOrder

set_option autoImplicit false

/-!
# Questions about one directory on a disk

A backend over a directory of a host answers the questions about a directory by two ways: it looks a
name up on the host, or it reads the list of names there. On a host that stays as it is the answers
describe one directory, in whatever order they are asked for: to each name belongs one entry, or none,
and all answers about the name tell of it.

## Main definitions

* `LazyTree.Disk.pick` — the name on the host for which a name stands.
* `LazyTree.Disk.reveal`, `LazyTree.Disk.look` — what a backend tells of an entry of the host, and
  whether there is one.
* `LazyTree.Disk.Sees` — a backend knows a directory that the host can list.
* `LazyTree.Disk.asked`, `LazyTree.Disk.log` — a backend after some questions, and its answers.

## Main results

* `LazyTree.Disk.Sees.locate_eq` — both ways lead to the same entry.
* `LazyTree.Disk.queries_agree` — all answers about a directory describe the same one.
-/

namespace LazyTree

namespace Disk

/-! ### Names on the host -/

/-- The name on the host for which a name stands: itself if it is there, or else, where case does not
distinguish names, the first one that is the same. -/
def pick (policy : CasePolicy) (texts : List String) (name : String) : Option String :=
  if name ∈ texts then some name
  else match policy with
    | .sensitive => none
    | .insensitive => texts.find? (CasePolicy.insensitive.same · name)

section Pick

variable {policy : CasePolicy} {texts : List String} {name m : String}

/-- A name that is there stands for itself. -/
theorem pick_of_mem (h : name ∈ texts) : pick policy texts name = some name :=
  if_pos h

/-- The name on the host is there, and is the same. -/
theorem pick_eq_some (h : pick policy texts name = some m) :
    m ∈ texts ∧ policy.same m name = true := by
  unfold pick at h
  split at h
  · next hmem =>
    cases h
    exact ⟨hmem, CasePolicy.same_iff.mpr rfl⟩
  · cases policy with
    | sensitive => cases h
    | insensitive =>
      exact ⟨List.mem_of_find?_eq_some h, List.find?_some (p := (CasePolicy.insensitive.same · name)) h⟩

/-- A name stands for none on the host exactly if none there is the same. -/
theorem pick_eq_none_iff :
    pick policy texts name = none ↔ ∀ m ∈ texts, policy.same m name = false := by
  unfold pick
  split
  · next hmem =>
    refine ⟨nofun, fun h => ?_⟩
    have hself : policy.same name name = true := CasePolicy.same_iff.mpr rfl
    rw [h name hmem] at hself
    cases hself
  · next hnot =>
    cases policy with
    | sensitive =>
      refine ⟨fun _ m hm => Bool.eq_false_iff.mpr fun hsame => hnot ?_, fun _ => rfl⟩
      rwa [← String.toList_inj.mp (CasePolicy.same_iff.mp hsame)]
    | insensitive => simp

end Pick

/-- The spelling of a name is the name in the directory for which it stands. -/
theorem spelling?_eq_map (d : Disk) (h : Host) (place : Below) (name : String) :
    d.spelling? h place name =
      (d.names h place).map fun texts => pick .insensitive texts name := by
  unfold spelling?
  cases d.names h place with
  | error e => rfl
  | ok texts => simp [Except.map, pick]

/-! ### A directory that a backend knows -/

/-- What a backend tells of an entry of the host. -/
def reveal (d : Disk) (h : Host) (place : Below) : Except BackendError Entry :=
  match h.lookAt (d.path place) with
  | .error e => .error (.io e)
  | .ok entry =>
    if d.allows place then .ok entry
    else .error (.accessDenied (HostPath.shownNames (d.location place)))

/-- Access is denied only to an entry that is there and may not be shown. -/
theorem reveal_eq_denied {d : Disk} {h : Host} {place : Below} {path : String}
    (hdenied : d.reveal h place = .error (.accessDenied path)) :
    (∃ entry, h.lookAt (d.path place) = .ok entry) ∧ d.allows place = false ∧
      path = HostPath.shownNames (d.location place) := by
  rw [reveal] at hdenied
  cases hfound : h.lookAt (d.path place) with
  | error e =>
    rw [hfound] at hdenied
    cases hdenied
  | ok entry =>
    rw [hfound] at hdenied
    dsimp only at hdenied
    split at hdenied
    · cases hdenied
    · next hallows =>
      cases hdenied
      exact ⟨⟨entry, rfl⟩, Bool.eq_false_iff.mpr hallows, rfl⟩

/-- The entry at a place, or none if nothing is there. -/
def look (d : Disk) (h : Host) (place : Below) : Except BackendError (Option (Below × Entry)) :=
  match h.lookAt (d.path place) with
  | .error .notFound => .ok none
  | .error e => .error (.io e)
  | .ok entry =>
    if d.allows place then .ok (some (place, entry))
    else .error (.accessDenied (HostPath.shownNames (d.location place)))

/-- What is told of a place where something is is what is found there. -/
theorem look_eq_map {d : Disk} {h : Host} {place : Below}
    (hthere : h.lookAt (d.path place) ≠ .error .notFound) :
    d.look h place = (d.reveal h place).map fun entry => some (place, entry) := by
  rw [look, reveal]
  cases hfound : h.lookAt (d.path place) with
  | error e =>
    cases e with
    | notFound => exact absurd hfound hthere
    | _ => rfl
  | ok entry => cases d.allows place <;> rfl

/-- Where access is denied, that is told. -/
theorem reveal_of_look_denied {d : Disk} {h : Host} {place : Below} {path : String}
    (hdenied : d.look h place = .error (.accessDenied path)) :
    d.reveal h place = .error (.accessDenied path) := by
  rw [look] at hdenied
  rw [reveal]
  cases hfound : h.lookAt (d.path place) with
  | error e =>
    rw [hfound] at hdenied
    cases e <;> cases hdenied
  | ok entry =>
    rw [hfound] at hdenied
    cases hallows : d.allows place with
    | true =>
      rw [hallows] at hdenied
      cases hdenied
    | false =>
      rw [hallows] at hdenied
      cases hdenied
      rfl

/-- A backend knows a directory by its identity, and the host can list it. Files have names that files
can have. -/
structure Sees (d : Disk) (h : Host) (dir : FileId) (place : Below) (names : List FileName) : Prop
    where
  /-- The identities are numbered. -/
  numbered : d.places.Numbered
  /-- The directory has its identity. -/
  parent : d.parent dir = .ok place
  /-- The host can list it. -/
  list : h.list (d.path place) = .ok names
  /-- Names that are texts are names of files. -/
  valid : ∀ m, FileName.text m ∈ names → isFileName m = true

/-- The names in a list that are texts. -/
abbrev texts (names : List FileName) : List String :=
  names.filterMap FileName.text?

/-- A text is among the names exactly if it is there as a name. -/
theorem mem_texts_iff {names : List FileName} {m : String} :
    m ∈ texts names ↔ FileName.text m ∈ names := by
  rw [texts, List.mem_filterMap]
  constructor
  · rintro ⟨n, hn, htext⟩
    cases n with
    | text s =>
      cases htext
      exact hn
    | raw bytes _ => cases htext
  · exact fun hm => ⟨_, hm, rfl⟩

/-- The path to an entry is that to its directory, and the name. -/
theorem path_concat (d : Disk) (place : Below) (m : String) :
    d.path (place ++ [m]) = d.path place ++ [.name (.text m)] := by
  simp [path, location, HostPath.ofNames]

theorem path_ne_nil (d : Disk) (place : Below) : d.path place ≠ [] :=
  List.cons_ne_nil _ _

/-- What is located under a name is in the directory, under the name itself or, where case does not
distinguish names, under its spelling there; it is found there, and may be shown. -/
theorem locate_eq_some {d : Disk} {h : Host} {dir : FileId} {name : String} {policy : CasePolicy}
    {found : Below × Entry} (hlocate : d.locate h dir name policy = .ok (some found)) :
    isComponent name = true ∧ ∃ place m, d.parent dir = .ok place ∧
      (policy = .sensitive → m = name) ∧
      (policy = .insensitive → d.spelling? h place name = .ok (some m)) ∧
      found.1 = place ++ [m] ∧ h.lookAt (d.path (place ++ [m])) = .ok found.2 ∧
      d.allows (place ++ [m]) = true := by
  unfold locate at hlocate
  split at hlocate
  · cases hlocate
  · next hname =>
    refine ⟨by simpa using hname, ?_⟩
    cases hparent : d.parent dir with
    | error e =>
      rw [hparent] at hlocate
      cases hlocate
    | ok place =>
      rw [hparent] at hlocate
      dsimp only at hlocate
      split at hlocate
      · cases hlocate
      · cases hlocate
      · next m hspelled =>
        split at hlocate
        · cases hlocate
        · cases hlocate
        · next entry hentry =>
          split at hlocate
          · next hallows =>
            cases hlocate
            refine ⟨place, m, rfl, ?_, ?_, rfl, hentry, hallows⟩
            · rintro rfl
              cases hspelled
              rfl
            · rintro rfl
              exact hspelled
          · cases hlocate

section Names

variable {name : String}

/-- The name of a file can be the last part of a path. -/
theorem isComponent_of_isFileName (h : isFileName name = true) : isComponent name = true := by
  simp only [isFileName, isComponent, Bool.and_eq_true, Bool.not_eq_true', List.any_eq_false,
    List.contains_eq_mem, decide_eq_false_iff_not] at h ⊢
  exact ⟨h.1, fun hmem => h.2 _ hmem rfl⟩

/-- The name of a file holds no byte zero. -/
theorem hasNul_of_isFileName (h : isFileName name = true) : (FileName.text name).hasNul = false := by
  simp only [isFileName, Bool.and_eq_true, Bool.not_eq_true', List.any_eq_false] at h
  rw [FileName.hasNul, List.contains_eq_mem, decide_eq_false_iff_not]
  exact fun hmem => h.2 _ hmem rfl

end Names

namespace Sees

variable {d : Disk} {h : Host} {dir : FileId} {place : Below} {names : List FileName}
  {name m : String}

/-- The names that are texts are what the backend reads in the directory. -/
theorem names_eq (hd : d.Sees h dir place names) : d.names h place = .ok (texts names) := by
  rw [Disk.names, hd.list]

/-- The spelling that the backend finds there is the name for which a name stands. -/
theorem spelling?_eq (hd : d.Sees h dir place names) (name : String) :
    d.spelling? h place name = .ok (pick .insensitive (texts names) name) := by
  rw [spelling?_eq_map, hd.names_eq]
  rfl

/-- A name that is there can be looked up, unless it is too long. -/
theorem lookAt_of_mem (hd : d.Sees h dir place names) (hm : m ∈ texts names) :
    (m.utf8ByteSize ≤ Host.nameLimit ∧
        ∃ entry, h.lookAt (d.path (place ++ [m])) = .ok entry) ∨
      Host.nameLimit < m.utf8ByteSize ∧
        h.lookAt (d.path (place ++ [m])) = .error .nameTooLong := by
  have hmem := mem_texts_iff.mp hm
  obtain ⟨hlong, hshort⟩ := Host.lookAt_child hd.list (hasNul_of_isFileName (hd.valid m hmem))
  rw [path_concat]
  rcases Nat.lt_or_ge Host.nameLimit m.utf8ByteSize with hsize | hsize
  · exact .inr ⟨hsize, hlong hsize⟩
  · exact .inl ⟨hsize, (hshort hsize).1 hmem⟩

/-- Where a name is looked for: under itself, or, where case does not distinguish names, under the
name on the host for which it stands. -/
theorem locate_eq_look (hd : d.Sees h dir place names) (policy : CasePolicy)
    (hname : isComponent name = true) :
    d.locate h dir name policy = match policy with
      | .sensitive => d.look h (place ++ [name])
      | .insensitive =>
        match pick .insensitive (texts names) name with
        | none => .ok none
        | some m => d.look h (place ++ [m]) := by
  simp only [locate, hname, hd.parent, hd.spelling?_eq, look]
  cases policy with
  | sensitive => rfl
  | insensitive => cases pick .insensitive (texts names) name <;> rfl

/-- Both ways lead to the same entry: whatever name is asked for, the entry that is looked at is that
of the name for which it stands on the host, and none if it stands for none. -/
theorem locate_eq (hd : d.Sees h dir place names) (policy : CasePolicy)
    (hname : isFileName name = true) (hsize : name.utf8ByteSize ≤ Host.nameLimit) :
    d.locate h dir name policy = match pick policy (texts names) name with
      | none => .ok none
      | some m => (d.reveal h (place ++ [m])).map fun entry => some (place ++ [m], entry) := by
  have hthere (m : String) (hm : m ∈ texts names) :
      d.look h (place ++ [m]) =
        (d.reveal h (place ++ [m])).map fun entry => some (place ++ [m], entry) := by
    refine look_eq_map fun hnone => ?_
    rcases hd.lookAt_of_mem hm with ⟨-, entry, hentry⟩ | ⟨-, hlong⟩
    · cases hnone.symm.trans hentry
    · cases hnone.symm.trans hlong
  rw [hd.locate_eq_look policy (isComponent_of_isFileName hname)]
  cases policy with
  | sensitive =>
    dsimp only
    by_cases hmem : name ∈ texts names
    · rw [pick_of_mem hmem]
      exact hthere name hmem
    · have hnone := ((Host.lookAt_child hd.list (hasNul_of_isFileName hname)).2 hsize).2
        (mt mem_texts_iff.mpr hmem)
      rw [← path_concat] at hnone
      simp [pick, hmem, look, hnone]
  | insensitive =>
    dsimp only
    cases hpick : pick .insensitive (texts names) name with
    | none => rfl
    | some m => exact hthere m (pick_eq_some hpick).1

/-- Access to the entry that is looked at is denied only if a name on the host stands for it that may
not be shown, whatever text is asked for. -/
theorem locate_eq_denied (hd : d.Sees h dir place names) {policy : CasePolicy} {path : String}
    (hdenied : d.locate h dir name policy = .error (.accessDenied path)) :
    ∃ m, pick policy (texts names) name = some m ∧
      d.reveal h (place ++ [m]) = .error (.accessDenied path) := by
  cases hname : isComponent name with
  | false =>
    rw [locate, hname] at hdenied
    cases hdenied
  | true =>
    rw [hd.locate_eq_look policy hname] at hdenied
    cases policy with
    | sensitive =>
      have hreveal := reveal_of_look_denied hdenied
      obtain ⟨⟨entry, hentry⟩, -, -⟩ := reveal_eq_denied hreveal
      rw [path_concat] at hentry
      exact ⟨name, pick_of_mem (mem_texts_iff.mpr (Host.mem_of_lookAt hd.list hentry)), hreveal⟩
    | insensitive =>
      dsimp only at hdenied
      cases hpick : pick .insensitive (texts names) name with
      | none =>
        rw [hpick] at hdenied
        cases hdenied
      | some m =>
        rw [hpick] at hdenied
        exact ⟨m, rfl, reveal_of_look_denied hdenied⟩

/-! ### Single answers -/

/-- The attributes of a name are those of the entry for which it stands. -/
theorem answer_attributes (hd : d.Sees h dir place names) (hname : isFileName name = true)
    (hsize : name.utf8ByteSize ≤ Host.nameLimit) :
    (d.answer h (.attributes dir name)).1 = match pick d.policy (texts names) name with
      | none => .ok none
      | some m => (d.reveal h (place ++ [m])).map fun entry => some (.ofEntry m entry) := by
  simp only [answer, hd.locate_eq d.policy hname hsize]
  cases pick d.policy (texts names) name with
  | none => rfl
  | some m =>
    dsimp only
    cases d.reveal h (place ++ [m]) with
    | error e => rfl
    | ok entry => simp [Except.map]

/-- The spelling of a name is the name for which it stands where case does not distinguish names. -/
theorem answer_canonical (hd : d.Sees h dir place names) (hname : isFileName name = true) :
    (d.answer h (.canonical dir name)).1 =
      .ok ((pick .insensitive (texts names) name).getD name) := by
  simp only [answer, isComponent_of_isFileName hname, hd.parent, hd.spelling?_eq]
  rfl

/-- What can come of asking for the identity of a name, as long as there are identities: the name
stands for no entry, or the entry cannot be shown, or it gets an identity. -/
theorem answer_resolve (hd : d.Sees h dir place names) (policy : CasePolicy)
    (hname : isFileName name = true) (hsize : name.utf8ByteSize ≤ Host.nameLimit)
    (hids : (d.answer h (.resolve dir name policy)).1 ≠ .error .idsExhausted) :
    (pick policy (texts names) name = none ∧
      (d.answer h (.resolve dir name policy)).1 = .ok none) ∨
    ∃ m, pick policy (texts names) name = some m ∧
      ((∃ e, d.reveal h (place ++ [m]) = .error e ∧
        (d.answer h (.resolve dir name policy)).1 = .error e) ∨
      ∃ entry id, d.reveal h (place ++ [m]) = .ok entry ∧
        (d.answer h (.resolve dir name policy)).1 = .ok (some id) ∧
        (place ++ [m], id) ∈ (d.answer h (.resolve dir name policy)).2.places.ids) := by
  revert hids
  simp only [answer, hd.locate_eq policy hname hsize]
  cases pick policy (texts names) name with
  | none => exact fun _ => .inl ⟨rfl, rfl⟩
  | some m =>
    refine fun hids => .inr ⟨m, rfl, ?_⟩
    revert hids
    dsimp only
    cases d.reveal h (place ++ [m]) with
    | error e => exact fun _ => .inl ⟨e, rfl, rfl⟩
    | ok entry =>
      simp only [Except.map, require]
      cases hrequire : d.places.require (place ++ [m]) with
      | mk result now =>
        cases result with
        | error e =>
          obtain ⟨rfl, -⟩ := Places.require_eq_error hrequire
          exact fun hids => absurd rfl hids
        | ok id => exact fun _ => .inr ⟨entry, id, rfl, rfl, hd.numbered.mem_of_require hrequire⟩

/-- A listing has a line for each name that may be shown, with the identity of its entry, as long as
there are identities. -/
theorem answer_list (hd : d.Sees h dir place names)
    (hids : (d.answer h (.list dir)).1 ≠ .error .idsExhausted) :
    ∃ lines, (d.answer h (.list dir)).1 = .ok lines ∧
      lines.map Listed.name = (texts names).filter (fun m => d.allows (place ++ [m])) ∧
      ∀ line ∈ lines, (place ++ [line.name], line.id) ∈ (d.answer h (.list dir)).2.places.ids := by
  simp only [answer, hd.parent, hd.names_eq] at hids ⊢
  obtain ⟨hlines, hafter⟩ := d.listed_eq place (texts names)
  obtain ⟨-, -, htold⟩ := hd.numbered.requireAll
    (((texts names).map (place ++ [·])).filter d.allows)
  rw [hafter]
  cases hlisted : (d.listed place (texts names)).1 with
  | error e =>
    rw [hlisted] at hlines hids
    obtain ⟨rfl, -⟩ := Places.requireAll_eq_error (Prod.ext hlines.symm rfl)
    exact absurd rfl hids
  | ok lines =>
    rw [hlisted] at hlines
    obtain ⟨hplaces, hpairs⟩ := htold _ hlines.symm
    refine ⟨lines, rfl, ?_, fun line hline => hpairs _ (List.mem_map_of_mem hline)⟩
    rw [List.map_map, List.filter_map] at hplaces
    have hinjective : Function.Injective fun m : String => place ++ [m] := fun a b hab => by
      simpa using hab
    refine List.map_injective_iff.mpr hinjective ?_
    rw [List.map_map]
    exact hplaces

/-- Access is denied only to a question for the identity or the attributes of a name, and only if the
name on the host for which it stands may not be shown. -/
theorem answer_eq_denied (hd : d.Sees h dir place names) {q : Query} {path : String}
    (hdir : q.directory? = some dir) (hdenied : (d.answer h q).1 = .error (.accessDenied path)) :
    ∃ name policy, (q = .resolve dir name policy ∨ q = .attributes dir name ∧ policy = d.policy) ∧
      ∃ m, pick policy (texts names) name = some m ∧
        d.reveal h (place ++ [m]) = .error (.accessDenied path) := by
  cases q with
  | resolve dir' name policy =>
    cases hdir
    refine ⟨name, policy, .inl rfl, hd.locate_eq_denied ?_⟩
    rw [answer] at hdenied
    split at hdenied
    · next e hlocate =>
      cases hdenied
      exact hlocate
    · cases hdenied
    · split at hdenied
      · next hrequire =>
        cases hdenied
        have hfail : (d.places.require _).1 = .error _ := congrArg Prod.fst hrequire
        cases (Places.require_eq_error (Prod.ext hfail rfl)).1
      · cases hdenied
  | attributes dir' name =>
    cases hdir
    refine ⟨name, d.policy, .inr ⟨rfl, rfl⟩, hd.locate_eq_denied ?_⟩
    rw [answer] at hdenied
    cases hlocate : d.locate h dir name d.policy with
    | ok found =>
      rw [hlocate] at hdenied
      cases hdenied
    | error e =>
      rw [hlocate] at hdenied
      cases hdenied
      rfl
  | canonical dir' name =>
    cases hdir
    simp only [answer, hd.parent, hd.spelling?_eq] at hdenied
    split at hdenied <;> cases hdenied
  | list dir' =>
    cases hdir
    simp only [answer, hd.parent, hd.names_eq] at hdenied
    have hlines := (d.listed_eq place (texts names)).1
    rw [hdenied] at hlines
    cases (Places.requireAll_eq_error (Prod.ext hlines.symm rfl)).1
  | nameOf id => cases hdir

end Sees

/-! ### Questions one after the other -/

/-- The backend after some questions, on a host that stays as it is. -/
def asked (d : Disk) (h : Host) (qs : List Query) : Disk :=
  (d.run (qs.map fun q => (h, .ask q))).2

/-- The questions with their answers. -/
def log (d : Disk) (h : Host) : List Query → List ((q : Query) × Except BackendError q.Reply)
  | [] => []
  | q :: qs => ⟨q, (d.answer h q).1⟩ :: (d.answer h q).2.log h qs

namespace Sees

variable {d : Disk} {h : Host} {dir : FileId} {place : Below} {names : List FileName}

/-- A backend that knows a directory knows it after any calls, on whatever hosts. -/
theorem run (hd : d.Sees h dir place names) (calls : List (Host × Call)) :
    (d.run calls).2.Sees h dir place names := by
  have htells := tells_run hd.numbered calls
  refine ⟨htells.numbered, ?_, ?_, hd.valid⟩
  · have hknown : d.places.pathOf? dir = some place := by
      have hparent := hd.parent
      unfold Disk.parent at hparent
      split at hparent
      · next found hfound =>
        cases hparent
        exact hfound
      · cases hparent
    have hlater := htells.numbered.pathOf?_eq_some_iff.mpr
      (htells.keeps.subset (hd.numbered.pathOf?_eq_some_iff.mp hknown))
    rw [Disk.parent, hlater]
  · rw [run_places]
    exact hd.list

/-- Each answer was given by the backend as it was then: it knew the directory, differed in nothing but
the identities, of which it had those from before, and those that it handed out are there in the
end. -/
theorem exists_of_mem_log (hd : d.Sees h dir place names) {qs : List Query} {q : Query}
    {reply : Except BackendError q.Reply} (hmem : ⟨q, reply⟩ ∈ d.log h qs) :
    ∃ p : Places, ({ d with places := p } : Disk).Sees h dir place names ∧ d.places.ids <:+ p.ids ∧
      reply = (({ d with places := p } : Disk).answer h q).1 ∧
      (({ d with places := p } : Disk).answer h q).2.places.ids <:+ (d.asked h qs).places.ids := by
  induction qs generalizing d with
  | nil => cases hmem
  | cons first qs ih =>
    have hnext : (d.answer h first).2.Sees h dir place names := hd.run [(h, .ask first)]
    rcases List.mem_cons.mp hmem with heq | hmem
    · cases heq
      exact ⟨d.places, hd, List.suffix_rfl, rfl, (tells_run hnext.numbered _).keeps⟩
    · obtain ⟨p, hnow, hkept, hthen⟩ := ih hnext hmem
      have hplaces : (d.answer h first).2 = { d with places := (d.answer h first).2.places } :=
        d.call_places h (.ask first)
      have hsame : ({ (d.answer h first).2 with places := p } : Disk) = { d with places := p } := by
        rw [hplaces]
      rw [hsame] at hnow hthen
      have hkeeps : d.places.ids <:+ (d.answer h first).2.places.ids :=
        (tells_call hd.numbered h (.ask first)).keeps
      exact ⟨p, hnow, hkeeps.trans hkept, hthen⟩

section Log

variable {qs : List Query} {name : String}

/-- If some question was refused for want of identities, then all numbers are used up in the end. -/
theorem next_eq_zero_of_mem_log (hd : d.Sees h dir place names) {q : Query}
    (hmem : ⟨q, .error .idsExhausted⟩ ∈ d.log h qs) : (d.asked h qs).places.next = 0 := by
  obtain ⟨p, hnow, -, hrefused, hkeeps⟩ := hd.exists_of_mem_log hmem
  have hthen : (({ d with places := p } : Disk).answer h q).2.places.Numbered :=
    (hnow.run [(h, .ask q)]).numbered
  have hend : (d.asked h qs).places.Numbered := (hd.run _).numbered
  have hall := hthen.next_eq_zero_iff.mp (next_eq_zero_of_answer hrefused.symm)
  have hle := hkeeps.length_le
  have hlt := hend.length_lt
  exact hend.next_eq_zero_iff.mpr (by omega)

/-- A listing has a line for each name that may be shown, with the identity of its entry. -/
theorem list_of_mem_log (hd : d.Sees h dir place names)
    (hids : ∀ q, ⟨q, .error .idsExhausted⟩ ∉ d.log h qs) {reply : Except BackendError (List Listed)}
    (hmem : ⟨.list dir, reply⟩ ∈ d.log h qs) :
    ∃ lines, reply = .ok lines ∧
      lines.map Listed.name = (texts names).filter (fun m => d.allows (place ++ [m])) ∧
      ∀ line ∈ lines, (place ++ [line.name], line.id) ∈ (d.asked h qs).places.ids := by
  obtain ⟨p, hnow, -, rfl, hkeeps⟩ := hd.exists_of_mem_log hmem
  obtain ⟨lines, hlines, hnames, htold⟩ := hnow.answer_list fun hfail => hids _ (hfail ▸ hmem)
  exact ⟨lines, hlines, hnames, fun line hline => hkeeps.subset (htold line hline)⟩

/-- What came of asking for the identity of a name: the name stands for no entry, or the entry cannot
be shown, or it got its identity. -/
theorem resolve_of_mem_log (hd : d.Sees h dir place names)
    (hids : ∀ q, ⟨q, .error .idsExhausted⟩ ∉ d.log h qs) (hname : isFileName name = true)
    (hsize : name.utf8ByteSize ≤ Host.nameLimit) {policy : CasePolicy}
    {reply : Except BackendError (Option FileId)}
    (hmem : ⟨.resolve dir name policy, reply⟩ ∈ d.log h qs) :
    (pick policy (texts names) name = none ∧ reply = .ok none) ∨
    ∃ m, pick policy (texts names) name = some m ∧
      ((∃ e, d.reveal h (place ++ [m]) = .error e ∧ reply = .error e) ∨
      ∃ entry id, d.reveal h (place ++ [m]) = .ok entry ∧ reply = .ok (some id) ∧
        (place ++ [m], id) ∈ (d.asked h qs).places.ids) := by
  obtain ⟨p, hnow, -, rfl, hkeeps⟩ := hd.exists_of_mem_log hmem
  rcases hnow.answer_resolve policy hname hsize fun hfail => hids _ (hfail ▸ hmem) with
    hnone | ⟨m, hpick, hhidden | ⟨entry, id, hfound, hid, htold⟩⟩
  · exact .inl hnone
  · exact .inr ⟨m, hpick, .inl hhidden⟩
  · exact .inr ⟨m, hpick, .inr ⟨entry, id, hfound, hid, hkeeps.subset htold⟩⟩

/-- The attributes of a name are those of the entry for which it stands. -/
theorem attributes_of_mem_log (hd : d.Sees h dir place names) (hname : isFileName name = true)
    (hsize : name.utf8ByteSize ≤ Host.nameLimit) {reply : Except BackendError (Option Attributes)}
    (hmem : ⟨.attributes dir name, reply⟩ ∈ d.log h qs) :
    reply = match pick d.policy (texts names) name with
      | none => .ok none
      | some m => (d.reveal h (place ++ [m])).map fun entry => some (.ofEntry m entry) := by
  obtain ⟨p, hnow, -, rfl, -⟩ := hd.exists_of_mem_log hmem
  exact hnow.answer_attributes hname hsize

/-- What is in a listing is there, may be shown, and has its identity in the end. -/
theorem of_listed (hd : d.Sees h dir place names)
    (hids : ∀ q, ⟨q, .error .idsExhausted⟩ ∉ d.log h qs) {lines : List Listed} {m : String}
    {id : FileId} (hlog : ⟨.list dir, .ok lines⟩ ∈ d.log h qs) (hmem : ⟨m, id⟩ ∈ lines) :
    m ∈ texts names ∧ d.allows (place ++ [m]) = true ∧
      (place ++ [m], id) ∈ (d.asked h qs).places.ids := by
  obtain ⟨lines', heq, hnames, htold⟩ := hd.list_of_mem_log hids hlog
  cases heq
  have hm : m ∈ lines.map Listed.name := List.mem_map.mpr ⟨_, hmem, rfl⟩
  rw [hnames, List.mem_filter] at hm
  exact ⟨hm.1, hm.2, htold _ hmem⟩

/-- What may be shown is in every listing, with the identity that it has in the end. -/
theorem listed_of (hd : d.Sees h dir place names)
    (hids : ∀ q, ⟨q, .error .idsExhausted⟩ ∉ d.log h qs) {lines : List Listed} {m : String}
    {id : FileId} (hlog : ⟨.list dir, .ok lines⟩ ∈ d.log h qs) (hm : m ∈ texts names)
    (hallows : d.allows (place ++ [m]) = true)
    (hid : (place ++ [m], id) ∈ (d.asked h qs).places.ids) : ⟨m, id⟩ ∈ lines := by
  obtain ⟨lines', heq, hnames, htold⟩ := hd.list_of_mem_log hids hlog
  cases heq
  have hname : m ∈ lines.map Listed.name := by
    rw [hnames, List.mem_filter]
    exact ⟨hm, hallows⟩
  obtain ⟨line, hline, rfl⟩ := List.mem_map.mp hname
  have hsame := (hd.run _).numbered.eq_of_mem hid (htold line hline)
  rw [hsame]
  exact hline

/-- An entry that is there and may be shown is told, if its name is not too long. -/
theorem exists_reveal (hd : d.Sees h dir place names) {m : String} (hm : m ∈ texts names)
    (hallows : d.allows (place ++ [m]) = true) (hsize : m.utf8ByteSize ≤ Host.nameLimit) :
    ∃ entry, d.reveal h (place ++ [m]) = .ok entry := by
  rcases hd.lookAt_of_mem hm with ⟨-, entry, hentry⟩ | ⟨hlong, -⟩
  · exact ⟨entry, by rw [reveal, hentry]; exact if_pos hallows⟩
  · omega

/-- An entry that is told is there and may be shown, and its name is not too long. -/
theorem of_reveal (hd : d.Sees h dir place names) {m : String} (hm : m ∈ texts names) {entry : Entry}
    (hentry : d.reveal h (place ++ [m]) = .ok entry) :
    d.allows (place ++ [m]) = true ∧ m.utf8ByteSize ≤ Host.nameLimit := by
  rw [reveal] at hentry
  rcases hd.lookAt_of_mem hm with ⟨hsize, entry', hfound⟩ | ⟨-, hlong⟩
  · rw [hfound] at hentry
    dsimp only at hentry
    split at hentry
    · next hallows => exact ⟨hallows, hsize⟩
    · cases hentry
  · rw [hlong] at hentry
    cases hentry

end Log

end Sees

/-- The answers to some questions describe one directory. -/
structure Describes (d : Disk) (h : Host) (qs : List Query) (dir : FileId) (place : Below)
    (names : List FileName) : Prop where
  /-- A listing has a line for each name that is a text and may be shown. -/
  list : ∀ reply, ⟨.list dir, reply⟩ ∈ d.log h qs → ∃ lines, reply = .ok lines ∧
    lines.map Listed.name = (texts names).filter (fun m => d.allows (place ++ [m]))
  /-- The identity of a name in a listing is that in its line. -/
  resolve_listed : ∀ lines m id, ⟨.list dir, .ok lines⟩ ∈ d.log h qs → ⟨m, id⟩ ∈ lines →
    m.utf8ByteSize ≤ Host.nameLimit → ∀ reply, ⟨.resolve dir m d.policy, reply⟩ ∈ d.log h qs →
      reply = .ok (some id)
  /-- A name in a listing has attributes. -/
  attributes_listed : ∀ lines m id, ⟨.list dir, .ok lines⟩ ∈ d.log h qs → ⟨m, id⟩ ∈ lines →
    m.utf8ByteSize ≤ Host.nameLimit → ∀ reply, ⟨.attributes dir m, reply⟩ ∈ d.log h qs →
      ∃ attributes, reply = .ok (some attributes)
  /-- A name in a listing is spelled as it is. -/
  canonical_listed : ∀ lines m id, ⟨.list dir, .ok lines⟩ ∈ d.log h qs → ⟨m, id⟩ ∈ lines →
    ∀ reply, ⟨.canonical dir m, reply⟩ ∈ d.log h qs → reply = .ok m
  /-- The name of an identity in a listing is, from then on, that in its line. -/
  nameOf_listed : ∀ lines m id, ⟨.list dir, .ok lines⟩ ∈ d.log h qs → ⟨m, id⟩ ∈ lines →
    ∀ later reply, ⟨.nameOf id, reply⟩ ∈ (d.asked h qs).log h later → reply = .ok (some m)
  /-- If a name has an identity, then a name that is the same has it in every listing, with the same
  attributes. -/
  listed_of_resolve : ∀ n, isFileName n = true → n.utf8ByteSize ≤ Host.nameLimit → ∀ id,
    ⟨.resolve dir n d.policy, .ok (some id)⟩ ∈ d.log h qs → ∃ m, d.policy.same m n = true ∧
      (∀ lines, ⟨.list dir, .ok lines⟩ ∈ d.log h qs → ⟨m, id⟩ ∈ lines) ∧
      ∀ reply reply', ⟨.attributes dir n, reply⟩ ∈ d.log h qs →
        ⟨.attributes dir m, reply'⟩ ∈ d.log h qs → reply = reply'
  /-- A name has no identity exactly if no name on the host is the same. -/
  resolve_none : ∀ n, isFileName n = true → n.utf8ByteSize ≤ Host.nameLimit → ∀ reply,
    ⟨.resolve dir n d.policy, reply⟩ ∈ d.log h qs →
      (reply = .ok none ↔ ∀ m ∈ texts names, d.policy.same m n = false)
  /-- It has no attributes exactly then, too. -/
  attributes_none : ∀ n, isFileName n = true → n.utf8ByteSize ≤ Host.nameLimit → ∀ reply,
    ⟨.attributes dir n, reply⟩ ∈ d.log h qs →
      (reply = .ok none ↔ ∀ m ∈ texts names, d.policy.same m n = false)
  /-- Access is denied only to a question for the identity or the attributes of a name, and only if
  the entry for which the name stands is there, may not be shown and is in no listing. -/
  denied : ∀ q path, q.directory? = some dir → ⟨q, .error (.accessDenied path)⟩ ∈ d.log h qs →
    ∃ n policy, (q = .resolve dir n policy ∨ q = .attributes dir n ∧ policy = d.policy) ∧
      ∃ m, pick policy (texts names) n = some m ∧ m ∈ texts names ∧
        (∃ entry, h.lookAt (d.path (place ++ [m])) = .ok entry) ∧
        d.allows (place ++ [m]) = false ∧
        path = HostPath.shownNames (d.location (place ++ [m])) ∧
        ∀ lines id, ⟨.list dir, .ok lines⟩ ∈ d.log h qs → ⟨m, id⟩ ∉ lines

/-- All answers about a directory that a backend knows describe the same one, as long as there are
identities. -/
theorem Sees.describes {d : Disk} {h : Host} {dir : FileId} {place : Below} {names : List FileName}
    {qs : List Query} (hd : d.Sees h dir place names)
    (hids : ∀ q, ⟨q, .error .idsExhausted⟩ ∉ d.log h qs) : d.Describes h qs dir place names where
  list reply hlog := by
    obtain ⟨lines, hlines, hnames, -⟩ := hd.list_of_mem_log hids hlog
    exact ⟨lines, hlines, hnames⟩
  resolve_listed lines m id hlist hmem hsize reply hlog := by
    obtain ⟨hm, hallows, hid⟩ := hd.of_listed hids hlist hmem
    have hvalid := hd.valid m (mem_texts_iff.mp hm)
    obtain ⟨entry, hentry⟩ := hd.exists_reveal hm hallows hsize
    rcases hd.resolve_of_mem_log hids hvalid hsize hlog with
      ⟨hnone, -⟩ | ⟨m', hpick, ⟨e, hhidden, -⟩ | ⟨_, id', -, rfl, hid'⟩⟩
    · rw [pick_of_mem hm] at hnone
      cases hnone
    · rw [pick_of_mem hm] at hpick
      cases hpick
      rw [hentry] at hhidden
      cases hhidden
    · rw [pick_of_mem hm] at hpick
      cases hpick
      rw [(hd.run _).numbered.eq_of_mem hid hid']
  attributes_listed lines m id hlist hmem hsize reply hlog := by
    obtain ⟨hm, hallows, -⟩ := hd.of_listed hids hlist hmem
    have hvalid := hd.valid m (mem_texts_iff.mp hm)
    obtain ⟨entry, hentry⟩ := hd.exists_reveal hm hallows hsize
    rw [hd.attributes_of_mem_log hvalid hsize hlog, pick_of_mem hm]
    dsimp only
    rw [hentry]
    exact ⟨_, rfl⟩
  canonical_listed lines m id hlist hmem reply hlog := by
    obtain ⟨hm, -, -⟩ := hd.of_listed hids hlist hmem
    obtain ⟨p, hnow, -, rfl, -⟩ := hd.exists_of_mem_log hlog
    rw [hnow.answer_canonical (hd.valid m (mem_texts_iff.mp hm)), pick_of_mem hm]
    rfl
  nameOf_listed lines m id hlist hmem later reply hlog := by
    obtain ⟨-, -, hid⟩ := hd.of_listed hids hlist hmem
    obtain ⟨p, hnow, hkept, rfl, -⟩ := (hd.run _).exists_of_mem_log hlog
    have hpath : p.pathOf? id = some (place ++ [m]) :=
      hnow.numbered.pathOf?_eq_some_iff.mpr (hkept.subset hid)
    have hname : ({ d.asked h qs with places := p } : Disk).nameOf id = some m := by
      rw [nameOf, hpath]
      cases place <;> exact List.getLast?_concat
    exact congrArg Except.ok hname
  listed_of_resolve n hname hsize id hlog := by
    rcases hd.resolve_of_mem_log hids hname hsize hlog with
      ⟨-, hfail⟩ | ⟨m, hpick, ⟨e, -, hfail⟩ | ⟨entry, id', hentry, hsame, hid⟩⟩
    · cases hfail
    · cases hfail
    · cases hsame
      obtain ⟨hm, hsame⟩ := pick_eq_some hpick
      obtain ⟨hallows, hshort⟩ := hd.of_reveal hm hentry
      refine ⟨m, hsame, fun lines hlist => hd.listed_of hids hlist hm hallows hid,
        fun reply reply' hreply hreply' => ?_⟩
      rw [hd.attributes_of_mem_log hname hsize hreply, hpick,
        hd.attributes_of_mem_log (hd.valid m (mem_texts_iff.mp hm)) hshort hreply', pick_of_mem hm]
  resolve_none n hname hsize reply hlog := by
    rw [← pick_eq_none_iff]
    rcases hd.resolve_of_mem_log hids hname hsize hlog with
      ⟨hnone, rfl⟩ | ⟨m, hpick, ⟨e, -, rfl⟩ | ⟨_, id, -, rfl, -⟩⟩
    · simp [hnone]
    · simp [hpick]
    · simp [hpick]
  attributes_none n hname hsize reply hlog := by
    rw [← pick_eq_none_iff, hd.attributes_of_mem_log hname hsize hlog]
    cases pick d.policy (texts names) n with
    | none => simp
    | some m =>
      dsimp only
      cases d.reveal h (place ++ [m]) <;> simp [Except.map]
  denied q path hdir hlog := by
    obtain ⟨p, hnow, -, hreply, -⟩ := hd.exists_of_mem_log hlog
    obtain ⟨n, policy, hq, m, hpick, hdenied⟩ := hnow.answer_eq_denied hdir hreply.symm
    obtain ⟨hentry, hallows, hpath⟩ := reveal_eq_denied hdenied
    refine ⟨n, policy, hq, m, hpick, (pick_eq_some hpick).1, hentry, hallows, hpath,
      fun lines id hlist hmem => ?_⟩
    exact Bool.false_ne_true (hallows.symm.trans (hd.of_listed hids hlist hmem).2.1)

/-- All answers about a directory describe the same one. A backend was opened on a directory of a host,
and asked whatever it was asked, on whatever hosts. From then on the host stays as it is. One of the
identities that were handed out has a place where the host can list a directory, in which texts that
are names are names of files. Then the answers to any questions, in any order, agree on the directory,
as long as none of them is that the identities are used up; and none is if there are numbers left in
the end.

**Proof sketch.** Whether a name is looked up on the host or sought in its list, the entry is the one
that `pick` finds in the list, because the host finds something under a name exactly if it is on the
list. Each answer tells of that entry alone, and of whether it may be shown. Its identity is handed out
once, by whichever question comes first. -/
theorem queries_agree (root : Location) (policy : CasePolicy) (allowed : List HostPath)
    (calls : List (Host × Call)) (h : Host) (qs : List Query) (dir : FileId) (place : Below)
    (names : List FileName) :
    let d := ((ofRoot root policy allowed).run calls).2
    d.parent dir = .ok place → h.list (d.path place) = .ok names →
    (∀ m, FileName.text m ∈ names → isFileName m = true) →
    ((d.asked h qs).places.next ≠ 0 → ∀ q, ⟨q, .error .idsExhausted⟩ ∉ d.log h qs) ∧
    ((∀ q, ⟨q, .error .idsExhausted⟩ ∉ d.log h qs) →
      d.policy = policy ∧ d.Describes h qs dir place names) := by
  intro d hparent hlist hvalid
  have hnumbered : d.places.Numbered :=
    (tells_run (numbered_ofRoot root policy allowed) calls).numbered
  have hsees : d.Sees h dir place names := ⟨hnumbered, hparent, hlist, hvalid⟩
  have hpolicy : d.policy = policy := by
    have hplaces := (ofRoot root policy allowed).run_places calls
    exact congrArg Disk.policy hplaces
  refine ⟨fun hnext q hmem => hnext (hsees.next_eq_zero_of_mem_log hmem), fun hids => ?_⟩
  exact ⟨hpolicy, hsees.describes hids⟩

/-! ### A directory with two spellings of a name

A directory holds two files whose names differ only in case, a name that is no text, a link, and a
file that may not be shown. -/

namespace TwoSpellings

/-- The names in the directory. -/
def names : List FileName :=
  [.text "Foo", .raw [0xFF] (by decide +kernel), .text "foo", .text "link", .text "no"]

/-- The host, with the directory at its top. -/
def host : Host where
  top := .directory false (names.map fun n =>
    (n, if n = .text "link" then .link [.name (.text "foo")] else .file false .empty))

/-- The backend, which may show all of them but one. -/
def disk : Disk :=
  ofRoot [] .insensitive (["Foo", "foo", "link"].map fun s => [.top, .name (.text s)])

/-- Questions about them. -/
def questions : List Query :=
  [.resolve rootId "FOO" .insensitive, .attributes rootId "NO", .resolve rootId "no" .insensitive,
    .list rootId, .canonical rootId "LINK", .resolve rootId "foo" .insensitive,
    .attributes rootId "link", .attributes rootId "gone"]

/-- The answers describe one directory. -/
theorem queries_agree_two_spellings :
    disk.parent rootId = .ok [] ∧ host.list (disk.path []) = .ok names ∧
      disk.Describes host questions rootId [] names := by
  have hlist : host.list (disk.path []) = .ok names := by cbv
  have hnext : (disk.asked host questions).places.next = 5 := by cbv
  have hvalid : ∀ m, FileName.text m ∈ names → isFileName m = true := by
    intro m hm
    have hmem := mem_texts_iff.mpr hm
    have hall : (texts names).all isFileName = true := by cbv
    exact List.all_eq_true.mp hall m hmem
  obtain ⟨hanswered, hdescribes⟩ :=
    queries_agree [] .insensitive _ [] host questions rootId [] names rfl hlist hvalid
  refine ⟨rfl, hlist, (hdescribes (hanswered ?_)).2⟩
  exact fun hzero => absurd (hnext.symm.trans hzero) (by decide)

end TwoSpellings

end Disk

end LazyTree
