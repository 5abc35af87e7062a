import Mathlib
import LazyTree.Proofs.DiskQueries
import LazyTree.Proofs.PlainNames

set_option autoImplicit false

/-!
# Places that may be shown

A backend that was told which directories it may show hands out identities only for what lies in one
of them or on the way to one, whatever it is asked and however the host changes: a place that is new is
always a name in a directory that has an identity already, it is one that a file can have, and the
place is checked before it gets its identity. The check compares paths part by part, so nothing that
lies on the way to a place that may be shown is ever withheld.

## Main definitions

* `LazyTree.HostPath.Aligned` — one path lies on the way to the other.
* `LazyTree.Disk.Grounded` — what is known of the places that have identities.
* `LazyTree.Disk.Shows`, `LazyTree.Disk.Withholds` — a backend tells of an entry, or refuses to.

## Main results

* `LazyTree.Disk.allows_iff` — what the check compares.
* `LazyTree.Disk.Grounded.run` — no call hands out an identity for any other place.
* `LazyTree.Disk.Sees.shows`, `LazyTree.Disk.Sees.withholds` — an entry is told of exactly if it may
  be shown.
* `LazyTree.Disk.allowed_places` — what a backend tells of, and what it never withholds.
-/

namespace LazyTree

namespace HostPath

/-- One of two paths is spelled as the beginning of the other, part by part. -/
def Aligned (a b : HostPath) : Prop :=
  a.components <+: b.components ∨ b.components <+: a.components

/-- What lies on one way with a place does so with each place on the way there. -/
theorem Aligned.of_append {a : HostPath} {names more : List FileName}
    (h : a.Aligned (ofNames (names ++ more))) : a.Aligned (ofNames names) := by
  have hway : (ofNames names).components <+: (ofNames (names ++ more)).components := by
    rw [components_ofNames, components_ofNames, List.map_append, List.prefix_cons_inj]
    exact List.prefix_append _ _
  rcases h with hinside | houtside
  · exact List.prefix_or_prefix_of_prefix hinside hway
  · exact .inr (hway.trans houtside)

end HostPath

namespace Places

variable {p : Places}

/-- An identity is handed out only for the place that is asked for. -/
theorem mem_ids_require {place : Below} {pair : Below × FileId}
    (h : pair ∈ (p.require place).2.ids) : pair ∈ p.ids ∨ pair.1 = place := by
  unfold require at h
  split at h
  · exact .inl h
  · split at h
    · exact .inl h
    · rcases List.mem_cons.mp h with rfl | hmem
      · exact .inr rfl
      · exact .inl hmem

/-- Identities are handed out only for the places that are asked for. -/
theorem mem_ids_requireAll {places : List Below} {pair : Below × FileId}
    (h : pair ∈ (p.requireAll places).2.ids) : pair ∈ p.ids ∨ pair.1 ∈ places := by
  induction places generalizing p with
  | nil => exact .inl h
  | cons place rest ih =>
    have hfirst : pair ∈ (p.require place).2.ids ∨ pair.1 ∈ rest := by
      rw [requireAll] at h
      cases hrequire : p.require place with
      | mk result now =>
        rw [hrequire] at h
        cases result with
        | error e => exact .inl h
        | ok id =>
          refine ih ?_
          dsimp only at h ⊢
          cases hrest : now.requireAll rest with
          | mk told last =>
            rw [hrest] at h
            cases told <;> exact h
    rcases hfirst with hnow | hlater
    · rcases mem_ids_require hnow with hmem | heq
      · exact .inl hmem
      · exact .inr (heq ▸ List.mem_cons_self)
    · exact .inr (List.mem_cons_of_mem _ hlater)

end Places

namespace Disk

variable {d : Disk} {h : Host} {dir : FileId} {place more : Below} {name : String}

/-! ### Opening a directory -/

/-- What is opened is where its path leads, and so are the directories that may be shown. -/
theorem eq_ofRoot_of_openAt {root : HostPath} {policy : CasePolicy} {allowed : List HostPath}
    (hopen : openAt h root policy allowed = .ok d) :
    h.locate root = .ok d.root ∧ d = ofRoot d.root policy (allowed.map (resolveAllowed h)) := by
  unfold openAt at hopen
  split at hopen
  · cases hopen
  · next goal hlocate =>
    split at hopen <;> cases hopen
    exact ⟨hlocate, rfl⟩

/-- Calls change neither where the root is nor what may be shown. -/
theorem root_run (d : Disk) (calls : List (Host × Call)) :
    (d.run calls).2.root = d.root ∧ (d.run calls).2.allowed = d.allowed := by
  rw [run_places]
  exact ⟨rfl, rfl⟩

/-! ### The check -/

/-- A place may be shown if no directories were given, or if its path and that of one of them lie on
the same way. -/
theorem allows_iff :
    d.allows place = true ↔ d.allowed = [] ∨ ∃ a ∈ d.allowed, a.Aligned (d.path place) := by
  simp [allows, HostPath.startsWith, HostPath.Aligned]

/-- The names that lead to a place below another one begin with those that lead there. -/
theorem location_append (d : Disk) (place more : Below) :
    d.location (place ++ more) = d.location place ++ more.map .text := by
  simp [location]

/-- What lies on the way to a place that may be shown may be shown. -/
theorem allows_of_append (hallows : d.allows (place ++ more) = true) : d.allows place = true := by
  rw [allows_iff] at hallows ⊢
  refine hallows.imp_right fun ⟨a, ha, haligned⟩ => ⟨a, ha, ?_⟩
  rw [path, location_append] at haligned
  exact haligned.of_append

/-! ### Places with identities -/

/-- Each place with an identity but the root is a name in a directory with an identity; it is a name
that files can have, and the place may be shown. -/
structure Grounded (d : Disk) : Prop where
  /-- The identities are numbered. -/
  numbered : d.places.Numbered
  /-- Each place but the root lies in a directory, and may be shown. -/
  below : ∀ pair ∈ d.places.ids, pair.1 ≠ [] → ∃ dir name, pair.1 = dir ++ [name] ∧
    (∃ id, (dir, id) ∈ d.places.ids) ∧ isFileName name = true ∧ d.allows pair.1 = true

/-- The directory that a question is about has its identity. -/
theorem mem_ids_of_parent (hnumbered : d.places.Numbered) (hparent : d.parent dir = .ok place) :
    (place, dir) ∈ d.places.ids := by
  unfold parent at hparent
  split at hparent
  · next hknown =>
    cases hparent
    exact hnumbered.pathOf?_eq_some_iff.mp hknown
  · cases hparent

/-- A directory with an identity can be asked about. -/
theorem parent_of_mem_ids (hnumbered : d.places.Numbered) (hmem : (place, dir) ∈ d.places.ids) :
    d.parent dir = .ok place := by
  rw [parent, hnumbered.pathOf?_eq_some_iff.mpr hmem]

/-- On a host with proper names, what is located is under a name that files can have. -/
theorem exists_of_locate_eq_some (hnames : h.WellNamed) {policy : CasePolicy} {found : Below × Entry}
    (hlocate : d.locate h dir name policy = .ok (some found)) :
    ∃ place m, d.parent dir = .ok place ∧ found.1 = place ++ [m] ∧ isFileName m = true ∧
      d.allows (place ++ [m]) = true := by
  obtain ⟨-, place, m, hparent, -, -, hfound, hlook, hallows⟩ := locate_eq_some hlocate
  rw [path_concat] at hlook
  obtain ⟨names, hlist, hm⟩ := Host.exists_list_of_lookAt (d.path_ne_nil place) hlook
  exact ⟨place, m, hparent, hfound, hnames.isFileName hlist hm, hallows⟩

/-- The places for which a call seeks identities are the root, or are in a directory with an identity,
under a name that files can have, and may be shown. -/
theorem exists_of_mem_sought (hnames : h.WellNamed) {c : Call} {places : List Below}
    (hsought : d.sought h c = .ok places) :
    ∀ place ∈ places, place = [] ∨ ∃ dirId dir name, d.parent dirId = .ok dir ∧
      place = dir ++ [name] ∧ isFileName name = true ∧ d.allows place = true := by
  intro place hplace
  have hnone {α : Type} {result : Except BackendError α}
      (hmap : result.map (fun _ => []) = .ok places) : place = [] := by
    cases result with
    | error e => cases hmap
    | ok a =>
      cases hmap
      cases hplace
  cases c with
  | root =>
    cases hsought
    exact .inl (List.mem_singleton.mp hplace)
  | ask q =>
    cases q with
    | resolve dirId name policy =>
      rw [sought] at hsought
      cases hlocate : d.locate h dirId name policy with
      | error e =>
        rw [hlocate] at hsought
        cases hsought
      | ok found =>
        rw [hlocate] at hsought
        cases hsought
        cases found with
        | none => cases hplace
        | some found =>
          obtain rfl := List.mem_singleton.mp hplace
          obtain ⟨dir, m, hparent, heq, hm, hallows⟩ := exists_of_locate_eq_some hnames hlocate
          rw [heq]
          exact .inr ⟨dirId, dir, m, hparent, rfl, hm, hallows⟩
    | list dirId =>
      rw [sought] at hsought
      cases hparent : d.parent dirId with
      | error e =>
        rw [hparent] at hsought
        cases hsought
      | ok dir =>
        rw [hparent] at hsought
        dsimp only at hsought
        unfold Disk.names at hsought
        cases hlist : h.list (d.path dir) with
        | error e =>
          rw [hlist] at hsought
          cases hsought
        | ok names =>
          rw [hlist] at hsought
          cases hsought
          obtain ⟨hmem, hallows⟩ := List.mem_filter.mp hplace
          obtain ⟨m, hm, rfl⟩ := List.mem_map.mp hmem
          exact .inr ⟨dirId, dir, m, hparent, rfl, hnames.isFileName hlist (mem_texts_iff.mp hm),
            hallows⟩
    | attributes dirId name => exact .inl (hnone hsought)
    | canonical dirId name => exact .inl (hnone hsought)
    | nameOf id =>
      cases hsought
      cases hplace

namespace Grounded

/-- When a directory is opened, only its root has an identity. -/
theorem ofRoot (root : Location) (policy : CasePolicy) (allowed : List HostPath) :
    (ofRoot root policy allowed).Grounded where
  numbered := numbered_ofRoot root policy allowed
  below pair hpair hne := by
    obtain rfl := List.mem_singleton.mp hpair
    exact absurd rfl hne

/-- No call hands out an identity for any other place. -/
theorem call (hd : d.Grounded) (hnames : h.WellNamed) (c : Call) : (d.call h c).2.Grounded := by
  rw [call_eq]
  cases hsought : d.sought h c with
  | error e => exact hd
  | ok places =>
    obtain ⟨hnumbered, hkeeps, -⟩ := hd.numbered.requireAll places
    refine ⟨hnumbered, fun pair hpair hne => ?_⟩
    rcases Places.mem_ids_requireAll hpair with hold | hnew
    · obtain ⟨dir, name, heq, ⟨id, hid⟩, hname, hallows⟩ := hd.below pair hold hne
      exact ⟨dir, name, heq, ⟨id, hkeeps.subset hid⟩, hname, hallows⟩
    · rcases exists_of_mem_sought hnames hsought pair.1 hnew with
        heq | ⟨dirId, dir, name, hparent, heq, hname, hallows⟩
      · exact absurd heq hne
      · have hid := mem_ids_of_parent hd.numbered hparent
        exact ⟨dir, name, heq, ⟨dirId, hkeeps.subset hid⟩, hname, hallows⟩

/-- Nor do any number of calls, on whatever hosts. -/
theorem run (hd : d.Grounded) (calls : List (Host × Call))
    (hnames : ∀ c ∈ calls, c.1.WellNamed) : (d.run calls).2.Grounded := by
  induction calls generalizing d with
  | nil => exact hd
  | cons first calls ih =>
    obtain ⟨hfirst, hlater⟩ := List.forall_mem_cons.mp hnames
    exact ih (hd.call hfirst first.2) hlater

/-- Files can have all names on the way to a place with an identity. -/
theorem isFileName (hd : d.Grounded) {pair : Below × FileId} (hpair : pair ∈ d.places.ids) :
    ∀ name ∈ pair.1, isFileName name = true := by
  obtain ⟨place, id⟩ := pair
  induction place using List.reverseRecOn generalizing id with
  | nil => exact fun _ hname => nomatch hname
  | append_singleton dir name ih =>
    obtain ⟨dir', name', heq, ⟨dirId, hdir⟩, hname, -⟩ := hd.below _ hpair (by simp)
    obtain ⟨rfl, hlast⟩ := List.append_inj' heq rfl
    obtain rfl := List.singleton_inj.mp hlast
    exact List.forall_mem_append.mpr ⟨ih dirId hdir, List.forall_mem_singleton.mpr hname⟩

end Grounded

/-! ### Entries that may be shown -/

/-- A backend tells of a name in a directory: of its identity, which is that of its place, and of its
attributes, and in a listing. It fails to do so only if it needs an identity and all numbers are used
up. -/
structure Shows (d : Disk) (h : Host) (dir : FileId) (place : Below) (name : String) : Prop where
  /-- It tells the identity of the place, unless the place has none and no number is left. -/
  resolve : ∀ policy,
    (∃ id, (d.answer h (.resolve dir name policy)).1 = .ok (some id) ∧
      (d.answer h (.resolve dir name policy)).2.places.idOf? (place ++ [name]) = some id) ∨
    (d.answer h (.resolve dir name policy)).1 = .error .idsExhausted ∧ d.places.next = 0 ∧
      d.places.idOf? (place ++ [name]) = none
  /-- It tells the attributes of what is there. -/
  attributes : ∃ entry, h.lookAt (d.path (place ++ [name])) = .ok entry ∧
    (d.answer h (.attributes dir name)).1 = .ok (some (.ofEntry name entry))
  /-- The name is in a listing, unless no number is left for some of the names. -/
  list :
    (∃ lines, (d.answer h (.list dir)).1 = .ok lines ∧ name ∈ lines.map Listed.name) ∨
    (d.answer h (.list dir)).1 = .error .idsExhausted ∧ (d.answer h (.list dir)).2.places.next = 0

/-- A backend refuses to tell of a name in a directory, and leaves it out of listings. -/
structure Withholds (d : Disk) (h : Host) (dir : FileId) (place : Below) (name : String) : Prop
    where
  /-- It refuses to tell the identity. -/
  resolve : ∀ policy, (d.answer h (.resolve dir name policy)).1 =
    .error (.accessDenied (HostPath.shownNames (d.location (place ++ [name]))))
  /-- It refuses to tell the attributes. -/
  attributes : (d.answer h (.attributes dir name)).1 =
    .error (.accessDenied (HostPath.shownNames (d.location (place ++ [name]))))
  /-- The name is in no listing. -/
  list : ∀ lines, (d.answer h (.list dir)).1 = .ok lines → name ∉ lines.map Listed.name

namespace Sees

variable {names : List FileName} {entry : Entry}

/-- A name in a directory stands for itself, and what is located under it is its own entry. -/
theorem locate_of_lookAt (hd : d.Sees h dir place names)
    (hfound : h.lookAt (d.path (place ++ [name])) = .ok entry) (policy : CasePolicy) :
    d.locate h dir name policy =
      if d.allows (place ++ [name]) then .ok (some (place ++ [name], entry))
      else .error (.accessDenied (HostPath.shownNames (d.location (place ++ [name])))) := by
  have hlook := hfound
  rw [path_concat] at hlook
  have hmem := Host.mem_of_lookAt hd.list hlook
  have hsize := ((Host.lookAt_concat_eq_ok_iff (d.path_ne_nil place)).mp hlook).2.1
  rw [hd.locate_eq policy (hd.valid name hmem) hsize, pick_of_mem (mem_texts_iff.mpr hmem)]
  dsimp only
  rw [reveal, hfound]
  dsimp only
  split <;> rfl

/-- An entry that may be shown is told of. -/
theorem shows (hd : d.Sees h dir place names)
    (hfound : h.lookAt (d.path (place ++ [name])) = .ok entry)
    (hallows : d.allows (place ++ [name]) = true) : d.Shows h dir place name where
  resolve policy := by
    simp only [answer, hd.locate_of_lookAt hfound, hallows, if_true, require]
    cases hrequire : d.places.require (place ++ [name]) with
    | mk result now =>
      have hnow := hd.numbered.require (place ++ [name])
      rw [hrequire] at hnow
      cases result with
      | error e =>
        obtain ⟨rfl, -, hnew, hnext⟩ := Places.require_eq_error hrequire
        exact .inr ⟨rfl, hnext, hnew⟩
      | ok id =>
        exact .inl ⟨id, rfl, hnow.idOf?_eq_some_iff.mpr (hd.numbered.mem_of_require hrequire)⟩
  attributes := by
    refine ⟨entry, hfound, ?_⟩
    simp [answer, hd.locate_of_lookAt hfound, hallows, Except.map]
  list := by
    refine Classical.or_iff_not_imp_right.mpr fun hleft => ?_
    have hids : (d.answer h (.list dir)).1 ≠ .error .idsExhausted := fun hrefused =>
      hleft ⟨hrefused, next_eq_zero_of_answer hrefused⟩
    obtain ⟨lines, hlines, hnames, -⟩ := hd.answer_list hids
    refine ⟨lines, hlines, ?_⟩
    rw [path_concat] at hfound
    rw [hnames, List.mem_filter]
    exact ⟨mem_texts_iff.mpr (Host.mem_of_lookAt hd.list hfound), hallows⟩

/-- An entry that may not be shown is withheld. -/
theorem withholds (hd : d.Sees h dir place names)
    (hfound : h.lookAt (d.path (place ++ [name])) = .ok entry)
    (hallows : d.allows (place ++ [name]) = false) : d.Withholds h dir place name where
  resolve policy := by simp [answer, hd.locate_of_lookAt hfound, hallows]
  attributes := by simp [answer, hd.locate_of_lookAt hfound, hallows, Except.map]
  list lines hlines hmem := by
    have hids : (d.answer h (.list dir)).1 ≠ .error .idsExhausted := by
      rw [hlines]
      rintro ⟨⟩
    obtain ⟨told, htold, hnames, -⟩ := hd.answer_list hids
    obtain rfl := Except.ok.inj (hlines.symm.trans htold)
    rw [hnames, List.mem_filter] at hmem
    exact Bool.false_ne_true (hallows.symm.trans hmem.2)

end Sees

/-- A directory with an identity in which something is found can be listed. -/
theorem Grounded.exists_sees (hd : d.Grounded) (hnames : h.WellNamed)
    (hdir : (place, dir) ∈ d.places.ids) {entry : Entry}
    (hfound : h.lookAt (d.path (place ++ [name])) = .ok entry) :
    ∃ names, d.Sees h dir place names := by
  rw [path_concat] at hfound
  obtain ⟨names, hlist, -⟩ := Host.exists_list_of_lookAt (d.path_ne_nil place) hfound
  exact ⟨names, hd.numbered, parent_of_mem_ids hd.numbered hdir, hlist,
    fun m hm => hnames.isFileName hlist hm⟩

/-- A backend that has been opened with directories that it may show tells of what lies in these
directories or on the way to them, and of nothing else. Whatever was asked of it since, on whatever
hosts, each place with an identity is the root with names below it that files can have; each of these
names alone is the spelling of a path with just this name; the directory of the place has an identity
too; and the path of a place other than the root lies on one way with that of one of the directories,
which are where their paths led when the backend was opened. What lies on the way to a place that
passes this check passes it too; so, where something exists in one of the directories, it and all that
lies on the way to it are told of, by each way to ask for them. An entry that lies on one way with none
of the directories is withheld, and never has an identity.

**Proof sketch.** A new place always consists of a name and of the place of a directory with an
identity, and it is checked before it gets its own. The check compares parts of paths: two beginnings
of one path always lie on one way. Where something exists all directories on the way to it exist, can
be listed, and have the next name on their lists. -/
theorem allowed_places {h₀ : Host} {root : HostPath} {policy : CasePolicy}
    {allowed : List HostPath} {d₀ : Disk} (hopen : openAt h₀ root policy allowed = .ok d₀)
    (hallowed : allowed ≠ []) (calls : List (Host × Call)) (hhosts : ∀ c ∈ calls, c.1.WellNamed) :
    let d := (d₀.run calls).2
    h₀.locate root = .ok d.root ∧ d.allowed = allowed.map (resolveAllowed h₀) ∧
    (∀ place id, d.places.idOf? place = some id →
      d.path place = d.path [] ++ place.map (fun name => .name (.text name)) ∧
      (∀ name ∈ place, isFileName name = true ∧
        HostPath.ofText name = [.name (.text name)]) ∧
      (∀ dir name, place = dir ++ [name] → ∃ dirId, d.places.idOf? dir = some dirId) ∧
      (place ≠ [] → ∃ a ∈ d.allowed, a.Aligned (d.path place))) ∧
    (∀ place more, d.allows (place ++ more) = true → d.allows place = true) ∧
    (∀ (h : Host), h.WellNamed → ∀ dirId dir name, d.places.idOf? dir = some dirId →
      (∀ more entry, h.lookAt (.ofNames (d.location (dir ++ [name]) ++ more)) = .ok entry →
        (∃ a ∈ d.allowed,
          (HostPath.ofNames (d.location (dir ++ [name]) ++ more)).startsWith a = true) →
        d.Shows h dirId dir name) ∧
      (∀ entry, h.lookAt (d.path (dir ++ [name])) = .ok entry →
        (∀ a ∈ d.allowed, ¬ a.Aligned (d.path (dir ++ [name]))) →
        d.Withholds h dirId dir name)) ∧
    (∀ place, place ≠ [] → (∀ a ∈ d.allowed, ¬ a.Aligned (d.path place)) →
      d.places.idOf? place = none ∧ ∀ pair ∈ (d₀.run calls).1, pair.1 ≠ place) := by
  intro d
  obtain ⟨hroot, hnew⟩ := eq_ofRoot_of_openAt hopen
  have hd₀ : d.root = d₀.root ∧ d.allowed = d₀.allowed := d₀.root_run calls
  have hdirs : d.allowed = allowed.map (resolveAllowed h₀) := by rw [hd₀.2, hnew, ofRoot]
  have hnone : d.allowed ≠ [] := by simpa [hdirs] using hallowed
  have hgrounded : d.Grounded := by
    refine Grounded.run ?_ calls hhosts
    rw [hnew]
    exact Grounded.ofRoot _ _ _
  have hmem {place : Below} {id : FileId} :
      d.places.idOf? place = some id ↔ (place, id) ∈ d.places.ids :=
    hgrounded.numbered.idOf?_eq_some_iff
  have hshown {place : Below} (hallows : d.allows place = true) :
      ∃ a ∈ d.allowed, a.Aligned (d.path place) := (allows_iff.mp hallows).resolve_left hnone
  have hhidden {place : Below} (haligned : ∀ a ∈ d.allowed, ¬ a.Aligned (d.path place)) :
      d.allows place = false := Bool.eq_false_iff.mpr fun hallows => by
    obtain ⟨a, ha, hway⟩ := hshown hallows
    exact haligned a ha hway
  refine ⟨hd₀.1 ▸ hroot, hdirs, fun place id hid => ⟨?_, ?_, ?_, ?_⟩, fun place more =>
    allows_of_append, fun h hnames dirId dir name hdir => ⟨?_, ?_⟩, fun place hne haligned => ?_⟩
  · simp [path, location, HostPath.ofNames, Function.comp_def]
  · intro name hname
    have hfile := hgrounded.isFileName (hmem.mp hid) name hname
    exact ⟨hfile, HostPath.ofText_eq_name_iff.mpr (isComponent_of_isFileName hfile)⟩
  · rintro dir name rfl
    obtain ⟨dir', name', heq, ⟨dirId, hdir⟩, -⟩ := hgrounded.below _ (hmem.mp hid) (by simp)
    obtain ⟨rfl, -⟩ := List.append_inj' heq rfl
    exact ⟨dirId, hmem.mpr hdir⟩
  · intro hne
    obtain ⟨-, -, -, -, -, hallows⟩ := hgrounded.below _ (hmem.mp hid) hne
    exact hshown hallows
  · rintro more entry hfound ⟨a, ha, hinside⟩
    have hallows : d.allows (dir ++ [name]) = true := by
      refine allows_iff.mpr (.inr ⟨a, ha, ?_⟩)
      exact HostPath.Aligned.of_append (.inl (List.isPrefixOf_iff_prefix.mp hinside))
    have hway : h.lookAt (d.path (dir ++ [name]) ++ more.map .name) = .ok entry := by
      rw [path, HostPath.ofNames, List.cons_append, ← List.map_append]
      exact hfound
    obtain ⟨entry', hentry⟩ := Host.exists_lookAt_of_append (d.path_ne_nil _) hway
    obtain ⟨names, hsees⟩ := hgrounded.exists_sees hnames (hmem.mp hdir) hentry
    exact hsees.shows hentry hallows
  · intro entry hfound haligned
    obtain ⟨names, hsees⟩ := hgrounded.exists_sees hnames (hmem.mp hdir) hfound
    exact hsees.withholds hfound (hhidden haligned)
  · have hunnamed (id : FileId) : (place, id) ∉ d.places.ids := fun hid => by
      obtain ⟨-, -, -, -, -, hallows⟩ := hgrounded.below _ hid hne
      exact Bool.false_ne_true ((hhidden haligned).symm.trans hallows)
    refine ⟨Option.eq_none_iff_forall_ne_some.mpr fun id hid => hunnamed id (hmem.mp hid), ?_⟩
    intro pair hpair heq
    have hnumbered : d₀.places.Numbered := by
      rw [hnew]
      exact numbered_ofRoot _ _ _
    refine hunnamed pair.2 ?_
    rw [← heq]
    exact (tells_run hnumbered calls).told pair hpair

/-! ### A garden with a wall

In a directory lie another one with a file in it, which may be shown, and a file that may not. -/

namespace Garden

/-- The host. -/
def host : Host where
  top := .directory false [(.text "garden", .directory false [
    (.text "bed", .directory false [(.text "rose", .file false .empty)]),
    (.text "wall", .file false .empty)])]

/-- The path of the directory. -/
def path : HostPath :=
  [.top, .name (.text "garden")]

/-- The backend, as it is opened. -/
def disk : Disk :=
  ofRoot [.text "garden"] .sensitive [path ++ [.name (.text "bed")]]

/-- Questions about them. -/
def calls : List (Host × Call) :=
  [(host, .ask (.list rootId)), (host, .ask (.resolve rootId "wall" .sensitive))]

/-- Files can have all the names. -/
theorem wellNamed_host : host.WellNamed := by
  have hnamed {name : String} (hname : isFileName name = true) :
      ∀ m, FileName.text name = .text m → isFileName m = true := by
    rintro m ⟨⟩
    exact hname
  have hfile : (Entry.file false .empty).WellNamed := Entry.wellNamed_of_entries_eq_nil rfl
  have hbed : (Entry.directory false [(.text "rose", .file false .empty)]).WellNamed :=
    Entry.wellNamed_directory (List.forall_mem_singleton.mpr ⟨hnamed (by decide), hfile⟩)
  refine Entry.wellNamed_directory (List.forall_mem_singleton.mpr ⟨hnamed (by decide), ?_⟩)
  exact Entry.wellNamed_directory (List.forall_mem_cons.mpr
    ⟨⟨hnamed (by decide), hbed⟩, List.forall_mem_singleton.mpr ⟨hnamed (by decide), hfile⟩⟩)

/-- The directory is where its path leads. -/
theorem openAt_host : openAt host path .sensitive [path ++ [.name (.text "bed")]] = .ok disk := by
  have hgarden : host.walk true path = .ok (.taken [.text "garden"]) := by
    rw [Host.walk_eq_walkFrom rfl rfl]
    cbv
  have hbed : host.walk true (path ++ [.name (.text "bed")]) =
      .ok (.taken [.text "garden", .text "bed"]) := by
    rw [Host.walk_eq_walkFrom rfl rfl]
    cbv
  have hroot : host.locate path = .ok [.text "garden"] := by
    rw [Host.locate, Host.reach, hgarden]
    rfl
  have hallowed : resolveAllowed host (path ++ [.name (.text "bed")]) =
      path ++ [.name (.text "bed")] := by
    rw [resolveAllowed, Host.locate, Host.reach, hbed]
    rfl
  rw [openAt, hroot, List.map_singleton, hallowed]
  rfl

/-- What may be shown is told of, and the rest is withheld. -/
theorem allowed_places_garden :
    openAt host path .sensitive [path ++ [.name (.text "bed")]] = .ok disk ∧
      (disk.run calls).2.Shows host rootId [] "bed" ∧
      (disk.run calls).2.Withholds host rootId [] "wall" ∧
      (disk.run calls).2.places.idOf? ["wall"] = none := by
  have hhosts : ∀ c ∈ calls, c.1.WellNamed := by
    refine List.forall_mem_cons.mpr ⟨wellNamed_host, ?_⟩
    exact List.forall_mem_singleton.mpr wellNamed_host
  obtain ⟨-, -, -, -, hentries, hplaces⟩ :=
    allowed_places openAt_host (List.cons_ne_nil _ _) calls hhosts
  rw [(disk.root_run calls).2] at hentries hplaces
  have hpath (place : Below) : (disk.run calls).2.path place = disk.path place := by
    rw [Disk.path, location, (disk.root_run calls).1]
    rfl
  have hwall : ∀ a ∈ disk.allowed, ¬ a.Aligned ((disk.run calls).2.path ["wall"]) := by
    rw [hpath]
    unfold HostPath.Aligned
    decide
  have hroot : (disk.run calls).2.places.idOf? [] = some rootId := by
    have htells := tells_run (numbered_ofRoot [.text "garden"] .sensitive
      [path ++ [.name (.text "bed")]]) calls
    exact htells.numbered.idOf?_eq_some_iff.mpr (htells.keeps.subset List.mem_cons_self)
  have hbed : host.lookAt ((disk.run calls).2.path ["bed"]) =
      .ok (.directory false [(.text "rose", .file false .empty)]) := by
    have hwalk : host.walk false (disk.path ["bed"]) =
        .ok (.taken [.text "garden", .text "bed"]) := by
      rw [Host.walk_eq_walkFrom rfl rfl]
      cbv
    rw [hpath]
    exact Host.lookAt_of_walk hwalk rfl
  have hstone : host.lookAt ((disk.run calls).2.path ["wall"]) = .ok (.file false .empty) := by
    have hwalk : host.walk false (disk.path ["wall"]) =
        .ok (.taken [.text "garden", .text "wall"]) := by
      rw [Host.walk_eq_walkFrom rfl rfl]
      cbv
    rw [hpath]
    exact Host.lookAt_of_walk hwalk rfl
  have hinside : ∃ a ∈ disk.allowed, ((disk.run calls).2.path ["bed"]).startsWith a = true := by
    rw [hpath]
    decide
  obtain ⟨hshows, -⟩ := hentries host wellNamed_host rootId [] "bed" hroot
  obtain ⟨-, hwithholds⟩ := hentries host wellNamed_host rootId [] "wall" hroot
  refine ⟨openAt_host, hshows [] (.directory false [(.text "rose", .file false .empty)]) ?_ ?_,
    hwithholds _ hstone hwall, (hplaces _ (List.cons_ne_nil _ _) hwall).1⟩
  · rw [List.append_nil]
    exact hbed
  · rw [List.append_nil]
    exact hinside

end Garden

end Disk

end LazyTree
