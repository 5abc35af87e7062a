import Mathlib
import LazyTree.Program.Request
import LazyTree.Proofs.ServedRuns

set_option autoImplicit false

/-!
# Lookups without a cache

Somebody who remembers nothing finds what is at the end of a path by asking a backend for one name
after the other. What is found that way depends on the host alone. Only the identities depend on
what was found before, as the backend numbers them in order; and it may have no more of them.

## Main definitions

* `LazyTree.Host.FoldDistinct` — no two names in a directory differ by case alone.
* `LazyTree.Disk.seek` — what a name in a directory stands for.
* `LazyTree.Disk.enter`, `LazyTree.Disk.trace` — going down one name, and a list of names.
* `LazyTree.Disk.report` — the lines for some paths.
* `LazyTree.Disk.Within` — a backend has handed out identities for more places than another one.

## Main results

* `LazyTree.Disk.seek_congr` — names that are the same stand for the same.
* `LazyTree.Disk.Within.trace` — whatever was found before, the same is found.
* `LazyTree.Disk.Within.report` — the lines for some paths are those for each of them alone.
-/

namespace LazyTree

/-! ### Names that are the same -/

namespace Host

/-- No two texts that are names in one directory differ by case alone. -/
def FoldDistinct (h : Host) : Prop :=
  h.top.Throughout fun names => ∀ a b, .text a ∈ names → .text b ∈ names →
    CasePolicy.insensitive.key a = CasePolicy.insensitive.key b → a = b

/-- No two names in a directory that can be listed differ by case alone. -/
theorem FoldDistinct.eq_of_list {h : Host} (hfold : h.FoldDistinct) {path : HostPath}
    {names : List FileName} (hlist : h.list path = .ok names) {a b : String} (ha : .text a ∈ names)
    (hb : .text b ∈ names) (hkey : CasePolicy.insensitive.key a = CasePolicy.insensitive.key b) :
    a = b := by
  obtain ⟨goal, entry, -, hat, -, rfl⟩ := exists_of_list hlist
  exact hfold goal entry hat a b ha hb hkey

end Host

namespace Disk

variable {d d' : Disk} {h : Host} {place : Below} {name a b : String}

/-- Names that are the same stand for the same name, if no two names there are the same. -/
theorem pick_congr {texts : List String}
    (hdistinct : ∀ m ∈ texts, ∀ n ∈ texts,
      CasePolicy.insensitive.key m = CasePolicy.insensitive.key n → m = n)
    (hkey : CasePolicy.insensitive.key a = CasePolicy.insensitive.key b) :
    pick .insensitive texts a = pick .insensitive texts b := by
  have hsame : ∀ m, CasePolicy.insensitive.same m a = CasePolicy.insensitive.same m b := by
    intro m
    rw [Bool.eq_iff_iff, CasePolicy.same_iff, CasePolicy.same_iff, hkey]
  cases ha : pick .insensitive texts a with
  | none =>
    refine (pick_eq_none_iff.mpr fun m hm => ?_).symm
    rw [← hsame]
    exact pick_eq_none_iff.mp ha m hm
  | some m =>
    obtain ⟨hm, hma⟩ := pick_eq_some ha
    cases hb : pick .insensitive texts b with
    | none =>
      rw [hsame, pick_eq_none_iff.mp hb m hm] at hma
      cases hma
    | some n =>
      obtain ⟨hn, hnb⟩ := pick_eq_some hb
      have hmn := (CasePolicy.same_iff.mp hma).trans (hkey.trans (CasePolicy.same_iff.mp hnb).symm)
      rw [hdistinct m hm n hn hmn]

/-- Names that are the same have the same spelling, if no two names in a directory are the same. -/
theorem spelling?_congr (hfold : h.FoldDistinct)
    (hkey : CasePolicy.insensitive.key a = CasePolicy.insensitive.key b) :
    d.spelling? h place a = d.spelling? h place b := by
  rw [spelling?_eq_map, spelling?_eq_map, Disk.names]
  cases hlist : h.list (d.path place) with
  | error e => rfl
  | ok names =>
    refine congrArg Except.ok (pick_congr (fun m hm n hn hmn => ?_) hkey)
    exact hfold.eq_of_list hlist (mem_texts_iff.mp hm) (mem_texts_iff.mp hn) hmn

/-- What a name in a directory stands for: the entry under the name itself or, where case does not
distinguish names, under its spelling there. -/
def seek (d : Disk) (h : Host) (dir : Below) (name : String) :
    Except BackendError (Option (Below × Entry)) :=
  match d.policy with
  | .sensitive => d.look h (dir ++ [name])
  | .insensitive =>
    match d.spelling? h dir name with
    | .error e => .error e
    | .ok none => .ok none
    | .ok (some m) => d.look h (dir ++ [m])

/-- What is located under a name is what it stands for. -/
theorem locate_eq_seek {dir : FileId} (hname : isComponent name = true)
    (hparent : d.parent dir = .ok place) :
    d.locate h dir name d.policy = d.seek h place name := by
  simp only [locate, hname, hparent, seek, look]
  cases d.policy with
  | sensitive => rfl
  | insensitive =>
    cases d.spelling? h place name with
    | error e => rfl
    | ok spelled => cases spelled <;> rfl

/-- Names that are the same stand for the same, if case distinguishes names, or no two names in a
directory are the same. -/
theorem seek_congr (hdistinct : d.policy = .sensitive ∨ h.FoldDistinct)
    (hkey : d.policy.key a = d.policy.key b) : d.seek h place a = d.seek h place b := by
  unfold seek
  cases hpolicy : d.policy with
  | sensitive =>
    rw [hpolicy] at hkey
    rw [String.toList_inj.mp hkey]
  | insensitive =>
    rw [hpolicy] at hkey
    have hfold := hdistinct.resolve_left (by rw [hpolicy]; rintro ⟨⟩)
    rw [spelling?_congr hfold hkey]

/-- What is there is there as long as the host stays as it is. -/
theorem Grows.seek (hgrows : d.Grows d') : d'.seek h place name = d.seek h place name := by
  rw [hgrows.same]
  rfl

/-- An entry that is looked at is at the place. -/
theorem look_eq_some {found : Below × Entry} (hlook : d.look h place = .ok (some found)) :
    found.1 = place := by
  unfold look at hlook
  split at hlook
  · cases hlook
  · cases hlook
  · split at hlook <;> cases hlook
    rfl

/-- What a name stands for has a name in the directory that is the same. -/
theorem seek_eq_some {found : Below × Entry} (hseek : d.seek h place name = .ok (some found)) :
    ∃ m, found.1 = place ++ [m] ∧ (d.policy = .sensitive → m = name) ∧
      (d.policy = .insensitive → d.spelling? h place name = .ok (some m)) := by
  unfold seek at hseek
  cases hpolicy : d.policy with
  | sensitive =>
    rw [hpolicy] at hseek
    exact ⟨name, look_eq_some hseek, fun _ => rfl, nofun⟩
  | insensitive =>
    rw [hpolicy] at hseek
    dsimp only at hseek
    split at hseek
    · cases hseek
    · cases hseek
    · next m hspelling => exact ⟨m, look_eq_some hseek, nofun, fun _ => hspelling⟩

/-- Looking takes no identities. -/
theorem look_ne_exhausted : d.look h place ≠ .error .idsExhausted := by
  unfold look
  intro hexhausted
  split at hexhausted
  · cases hexhausted
  · cases hexhausted
  · split at hexhausted <;> cases hexhausted

/-- Nor does looking for what a name stands for. -/
theorem seek_ne_exhausted : d.seek h place name ≠ .error .idsExhausted := by
  unfold seek
  split
  · exact look_ne_exhausted
  · rw [spelling?_eq_map, Disk.names]
    cases h.list (d.path place) with
    | error e => rintro ⟨⟩
    | ok names =>
      dsimp only [Except.map]
      cases pick .insensitive (texts names) name with
      | none => rintro ⟨⟩
      | some m => exact look_ne_exhausted

/-! ### Going down -/

/-- What is found at the end of a path. -/
structure Found where
  /-- Its identity. -/
  id : FileId
  /-- Where it is. -/
  place : Below
  /-- Whether it is a directory. -/
  isDirectory : Bool

/-- The root is found at the end of the empty path. -/
def top : Found :=
  ⟨rootId, [], true⟩

/-- What is found under a name in a directory, and the backend that has handed out its identity. -/
def enter (d : Disk) (h : Host) (dir : Below) (name : String) :
    Except BackendError (Option Found) × Disk :=
  if isFileName name then
    match d.seek h dir name with
    | .error e => (.error e, d)
    | .ok none => (.ok none, d)
    | .ok (some (place, entry)) =>
      ((d.require place).1.map fun id => some ⟨id, place, entry.isDirectory⟩, (d.require place).2)
  else (.ok none, d)

/-- What is found at the end of some names. The search stops at the first name that is missing and
at what is no directory. -/
def trace (d : Disk) (h : Host) (here : Found) :
    List String → Except BackendError (Option Found) × Disk
  | [] => (.ok (some here), d)
  | name :: rest =>
    if here.isDirectory then
      match d.enter h here.place name with
      | (.error e, d) => (.error e, d)
      | (.ok none, d) => (.ok none, d)
      | (.ok (some next), d) => d.trace h next rest
    else (.ok none, d)

/-- The line for what is found at the end of a path. -/
def line (path : String) : Option Found → OutputLine
  | some found => .found found.isDirectory found.id (Tree.joinNames found.place.reverse)
  | none => .missing path

/-- The lines for some paths, up to the first that cannot be followed, and why it cannot. -/
def report (d : Disk) (h : Host) : List String → List OutputLine × Option RequestError
  | [] => ([], none)
  | path :: rest =>
    match d.trace h top (Tree.components path) with
    | (.error e, _) => ([], some (.tree (.backend e)))
    | (.ok found, d) => (line path found :: (d.report h rest).1, (d.report h rest).2)

end Disk

/-! ### Identities that are left -/

namespace Places

variable {p : Places} {place : Below}

/-- The places that have an identity. -/
def known (p : Places) : List Below :=
  p.ids.map Prod.fst

/-- A place that needs an identity has one afterwards, and no other place gets one; or the place is
new, and there are no identities left. -/
theorem Numbered.require_cases (hp : p.Numbered) (place : Below) :
    (∃ id p', p.require place = (.ok id, p') ∧ p'.ids.length ≤ p.ids.length + 1 ∧
      ∀ other, other ∈ p'.known ↔ other = place ∨ other ∈ p.known) ∨
    p.require place = (.error .idsExhausted, p) ∧ place ∉ p.known ∧
      p.ids.length + 1 = UInt32.size := by
  cases hknown : p.idOf? place with
  | some id =>
    have hmem : place ∈ p.known := List.mem_map_of_mem (hp.idOf?_eq_some_iff.mp hknown)
    refine .inl ⟨id, p, require_of_known hknown, Nat.le_succ _, fun other => ?_⟩
    exact ⟨.inr, fun hother => hother.elim (fun heq => heq ▸ hmem) fun hold => hold⟩
  | none =>
    by_cases hnext : p.next = 0
    · refine .inr ⟨require_of_exhausted hknown hnext, fun hmem => ?_, hp.next_eq_zero_iff.mp hnext⟩
      obtain ⟨⟨_, id⟩, hpair, rfl⟩ := List.mem_map.mp hmem
      rw [hp.idOf?_eq_some_iff.mpr hpair] at hknown
      cases hknown
    · exact .inl ⟨_, _, hp.require_of_new hknown hnext, Nat.le_refl _, fun other => List.mem_cons⟩

end Places

namespace Disk

variable {d d' d'' : Disk} {h : Host} {here here' : Found} {α : Type}

/-- A backend differs from another one only in the identities that it has handed out, and it has
handed out identities for all the places that have one there. -/
structure Within (d d' : Disk) : Prop where
  /-- Nothing else differs. -/
  same : d' = { d with places := d'.places }
  /-- The identities of the one are numbered. -/
  numbered : d.places.Numbered
  /-- The identities of the other are numbered. -/
  numbered' : d'.places.Numbered
  /-- All the places have identities there. -/
  known : d.places.known ⊆ d'.places.known

/-- The same is found, but for its identity. -/
inductive Alike :
    Except BackendError (Option Found) → Except BackendError (Option Found) → Prop where
  /-- It cannot be looked at. -/
  | failed (e : BackendError) : Alike (.error e) (.error e)
  /-- Nothing is there. -/
  | missing : Alike (.ok none) (.ok none)
  /-- Something is there. -/
  | found (id id' : FileId) (place : Below) (isDirectory : Bool) :
    Alike (.ok (some ⟨id, place, isDirectory⟩)) (.ok (some ⟨id', place, isDirectory⟩))

/-- What is asked of a backend costs at most some identities; if there were not enough, then all are
handed out. -/
structure Spends (d : Disk) (cost : Nat) (told : Except BackendError α × Disk) : Prop where
  /-- Identities are handed out, and stay. -/
  within : d.Within told.2
  /-- They are not more. -/
  length_le : told.2.places.ids.length ≤ d.places.ids.length + cost
  /-- All identities are handed out if one is missing. -/
  full : told.1 = .error .idsExhausted → told.2.places.ids.length + 1 = UInt32.size

namespace Within

/-- A backend has the identities that it has. -/
theorem refl (hd : d.places.Numbered) : d.Within d :=
  ⟨rfl, hd, hd, List.Subset.refl _⟩

/-- One backend may be within another that is within a third. -/
theorem trans (hfirst : d.Within d') (hlater : d'.Within d'') : d.Within d'' where
  same := by
    rw [hlater.same, hfirst.same]
  numbered := hfirst.numbered
  numbered' := hlater.numbered'
  known := List.Subset.trans hfirst.known hlater.known

/-- What a name stands for does not depend on identities. -/
theorem seek (hw : d.Within d') (place : Below) (name : String) :
    d'.seek h place name = d.seek h place name := by
  rw [hw.same]
  rfl

/-- A backend that knows more places refuses a place, or neither refuses it.

**Proof sketch.** The one that knows fewer places refuses a new place only when it has handed out
all identities. If the other one did not refuse it, then more places would have identities there
than there are numbers. -/
theorem require (hw : d.Within d') (place : Below) :
    (d'.require place).1 = .error .idsExhausted ∨
      (∃ id id', (d.require place).1 = .ok id ∧ (d'.require place).1 = .ok id') ∧
        (d.require place).2.Within (d'.require place).2 := by
  have hnumbered := hw.numbered.require place
  have hnumbered' := hw.numbered'.require place
  simp only [Disk.require]
  rcases hw.numbered'.require_cases place with ⟨id', p', hrequire', -, hmem'⟩ | ⟨hrequire', -, -⟩
  · right
    rw [hrequire'] at hnumbered' ⊢
    have hall : ∀ other, other = place ∨ other ∈ d.places.known → other ∈ p'.known :=
      fun other hother => (hmem' other).mpr (hother.imp_right (hw.known ·))
    rcases hw.numbered.require_cases place with ⟨id, p, hrequire, -, hmem⟩ | ⟨-, hnew, hfull⟩
    · rw [hrequire] at hnumbered ⊢
      refine ⟨⟨id, id', rfl, rfl⟩, ?_, hnumbered, hnumbered', fun other hother => ?_⟩
      · rw [hw.same]
      · exact hall other ((hmem other).mp hother)
    · have hsubperm : (place :: d.places.known).Subperm p'.known :=
        (List.nodup_cons.mpr ⟨hnew, hw.numbered.places⟩).subperm fun other hother =>
          hall other (List.mem_cons.mp hother)
      have hle := hsubperm.length_le
      have hlt : p'.ids.length < UInt32.size := hnumbered'.length_lt
      simp only [Places.known, List.length_cons, List.length_map] at hle
      omega
  · exact .inl (by rw [hrequire'])

/-- A backend that knows more places finds the same under a name, unless it has no identities left.
-/
theorem enter (hw : d.Within d') (place : Below) (name : String) :
    (d'.enter h place name).1 = .error .idsExhausted ∨
      Alike (d.enter h place name).1 (d'.enter h place name).1 ∧
        (d.enter h place name).2.Within (d'.enter h place name).2 := by
  simp only [Disk.enter, hw.seek]
  split
  · cases d.seek h place name with
    | error e => exact .inr ⟨.failed e, hw⟩
    | ok found =>
      cases found with
      | none => exact .inr ⟨.missing, hw⟩
      | some found =>
        dsimp only
        refine (hw.require found.1).imp (fun hrefused => ?_) fun ⟨⟨id, id', hid, hid'⟩, hw'⟩ => ?_
        · rw [hrefused]
          rfl
        · rw [hid, hid']
          exact ⟨.found id id' _ _, hw'⟩
  · exact .inr ⟨.missing, hw⟩

/-- A backend that knows more places finds the same at the end of some names, unless it has no
identities left. -/
theorem trace (hw : d.Within d') (id id' : FileId) (place : Below) (isDirectory : Bool)
    (names : List String) :
    (d'.trace h ⟨id', place, isDirectory⟩ names).1 = .error .idsExhausted ∨
      Alike (d.trace h ⟨id, place, isDirectory⟩ names).1
          (d'.trace h ⟨id', place, isDirectory⟩ names).1 ∧
        (d.trace h ⟨id, place, isDirectory⟩ names).2.Within
          (d'.trace h ⟨id', place, isDirectory⟩ names).2 := by
  induction names generalizing d d' id id' place isDirectory with
  | nil => exact .inr ⟨.found id id' place isDirectory, hw⟩
  | cons name rest ih =>
    simp only [Disk.trace]
    split
    · have henter := hw.enter (h := h) place name
      generalize d.enter h place name = told at henter
      generalize d'.enter h place name = told' at henter
      obtain ⟨found, now⟩ := told
      obtain ⟨found', now'⟩ := told'
      rcases henter with rfl | ⟨halike, hnow⟩
      · exact .inl rfl
      · cases halike with
        | failed e => exact .inr ⟨.failed e, hnow⟩
        | missing => exact .inr ⟨.missing, hnow⟩
        | found id id' place isDirectory => exact ih hnow id id' place isDirectory
    · exact .inr ⟨.missing, hw⟩

end Within

/-- Looking under a name costs at most one identity. -/
theorem spends_enter (hd : d.places.Numbered) (place : Below) (name : String) :
    d.Spends 1 (d.enter h place name) := by
  have hnothing : ∀ found : Except BackendError (Option Found), found ≠ .error .idsExhausted →
      d.Spends 1 (found, d) := fun found hfound =>
    ⟨.refl hd, Nat.le_succ _, fun hexhausted => absurd hexhausted hfound⟩
  unfold enter
  split
  · have hseek : d.seek h place name ≠ .error .idsExhausted := seek_ne_exhausted
    cases hfound : d.seek h place name with
    | error e =>
      rw [hfound] at hseek
      exact hnothing _ fun heq => hseek (congrArg _ (Except.error.inj heq))
    | ok found =>
      cases found with
      | none => exact hnothing _ nofun
      | some found =>
        dsimp only
        have hnumbered := hd.require found.1
        unfold Disk.require
        rcases hd.require_cases found.1 with ⟨id, p, hrequire, hlength, hmem⟩ | ⟨hrequire, -, hfull⟩
        · rw [hrequire] at hnumbered ⊢
          exact ⟨⟨rfl, hd, hnumbered, fun other hother => (hmem other).mpr (.inr hother)⟩, hlength,
            nofun⟩
        · rw [hrequire]
          exact ⟨.refl hd, Nat.le_succ _, fun _ => hfull⟩
  · exact hnothing _ nofun

/-- Following some names costs at most one identity for each. -/
theorem spends_trace (hd : d.places.Numbered) (here : Found) (names : List String) :
    d.Spends names.length (d.trace h here names) := by
  induction names generalizing d here with
  | nil => exact ⟨.refl hd, Nat.le_refl _, nofun⟩
  | cons name rest ih =>
    rw [trace]
    split
    · have henter := spends_enter (h := h) hd here.place name
      cases htold : d.enter h here.place name with
      | mk found now =>
        rw [htold] at henter
        have hlength : now.places.ids.length ≤ d.places.ids.length + (rest.length + 1) :=
          henter.length_le.trans (by omega)
        cases found with
        | error e => exact ⟨henter.within, hlength, henter.full⟩
        | ok found =>
          cases found with
          | none => exact ⟨henter.within, hlength, nofun⟩
          | some next =>
            have hrest := ih henter.within.numbered' next
            refine ⟨henter.within.trans hrest.within, hrest.length_le.trans ?_, hrest.full⟩
            have hfirst := henter.length_le
            dsimp only at hfirst ⊢
            rw [List.length_cons]
            omega
    · exact ⟨.refl hd, Nat.le_add_right _ _, nofun⟩

end Disk

/-! ### One path after the other -/

/-- What a line tells, but for the identity: whether there is a directory or something else, if
there is anything, and its path. -/
def OutputLine.gist : OutputLine → Option Bool × String
  | found isDirectory _ path => (some isDirectory, path)
  | missing path => (none, path)

namespace Request

/-- What lines tell but for identities, and a failure. -/
def gist (outcome : List OutputLine × Option RequestError) :
    List (Option Bool × String) × Option RequestError :=
  (outcome.1.map OutputLine.gist, outcome.2)

/-- What comes of doing one thing after the other, up to the first that fails. -/
def inTurn {α ε : Type} : List (List α × Option ε) → List α × Option ε
  | [] => ([], none)
  | (lines, some e) :: _ => (lines, some e)
  | (lines, none) :: rest => (lines ++ (inTurn rest).1, (inTurn rest).2)

/-- The number of names in some paths. -/
def steps (paths : List String) : Nat :=
  (paths.map fun path => (Tree.components path).length).sum

end Request

namespace Disk

open Request

variable {d d' : Disk} {h : Host}

/-- The report of a path ends with a failure to follow it. -/
theorem report_of_error {path : String} {e : BackendError}
    (hpath : (d.trace h top (Tree.components path)).1 = .error e) (rest : List String) :
    d.report h (path :: rest) = ([], some (.tree (.backend e))) := by
  rw [report]
  generalize d.trace h top (Tree.components path) = told at hpath
  obtain ⟨found, now⟩ := told
  subst hpath
  rfl

/-- The report of a path that can be followed is a line for it, and goes on. -/
theorem report_of_ok {path : String} {found : Option Found}
    (hpath : (d.trace h top (Tree.components path)).1 = .ok found) (rest : List String) :
    d.report h (path :: rest) =
      (line path found :: ((d.trace h top (Tree.components path)).2.report h rest).1,
        ((d.trace h top (Tree.components path)).2.report h rest).2) := by
  rw [report]
  generalize d.trace h top (Tree.components path) = told at hpath
  obtain ⟨result, now⟩ := told
  subst hpath
  rfl

/-- The report of a path alone is a line for it. -/
theorem report_singleton {path : String} {found : Option Found}
    (hpath : (d.trace h top (Tree.components path)).1 = .ok found) :
    d.report h [path] = ([line path found], none) :=
  report_of_ok hpath []

/-- What a backend reports of some paths is what another one reports of each of them alone, one
after the other, but for identities; or it reports that much up to a path at which no identities are
left, and then the paths up to there have as many names. -/
def ReportsInTurn (d d' : Disk) (h : Host) (paths : List String) : Prop :=
  gist (d'.report h paths) = inTurn (paths.map fun path => gist (d.report h [path])) ∨
    ∃ front path back, paths = front ++ path :: back ∧
      inTurn (front.map fun path => gist (d.report h [path])) =
        ((gist (d'.report h paths)).1, none) ∧
      (d'.report h paths).2 = some (.tree (.backend .idsExhausted)) ∧
      UInt32.size ≤ d'.places.ids.length + steps (front ++ [path]) + 1

/-- Where the same is found at the end of the first path, it remains to compare the reports of the
others. -/
theorem ReportsInTurn.cons {path : String} {rest : List String} {found found' : Option Found}
    (hfound : (d.trace h top (Tree.components path)).1 = .ok found)
    (hfound' : (d'.trace h top (Tree.components path)).1 = .ok found')
    (hline : (line path found).gist = (line path found').gist)
    (hspends : d'.Spends (Tree.components path).length (d'.trace h top (Tree.components path)))
    (hrest : d.ReportsInTurn (d'.trace h top (Tree.components path)).2 h rest) :
    d.ReportsInTurn d' h (path :: rest) := by
  have halone : gist (d.report h [path]) = ([(line path found).gist], none) := by
    rw [report_singleton hfound]
    rfl
  have htogether := report_of_ok hfound' rest
  rcases hrest with hrest | ⟨front, last, back, rfl, hfront, hfailure, hnames⟩
  · left
    rw [htogether, List.map_cons, halone, inTurn, ← hrest, hline]
    rfl
  · refine .inr ⟨path :: front, last, back, rfl, ?_, ?_, ?_⟩
    · rw [htogether, List.map_cons, halone, inTurn, hfront, hline]
      rfl
    · rw [htogether]
      exact hfailure
    · have hlength := hspends.length_le
      rw [List.cons_append, steps, List.map_cons, List.sum_cons]
      unfold steps at hnames
      omega

/-- Whatever was found before, reports of some paths are those of each of them alone.

**Proof sketch.** By induction on the paths. A backend that has found other things before finds the
same at the end of the next path as one that was only opened, unless it has no identities left. -/
theorem Within.report (hw : d.Within d') (paths : List String) : d.ReportsInTurn d' h paths := by
  induction paths generalizing d' with
  | nil => exact .inl rfl
  | cons path rest ih =>
    have hspends := spends_trace (h := h) hw.numbered' top (Tree.components path)
    rcases hw.trace (h := h) rootId rootId [] true (Tree.components path) with hfull | ⟨halike, -⟩
    · have htogether := report_of_error hfull rest
      refine .inr ⟨[], path, rest, rfl, ?_, ?_, ?_⟩
      · rw [htogether]
        rfl
      · rw [htogether]
      · have hlength := hspends.length_le
        have hall := hspends.full hfull
        rw [List.nil_append, steps, List.map_singleton, List.sum_singleton]
        omega
    · have hrest := ih (hw.trans hspends.within)
      generalize hfound : (d.trace h ⟨rootId, [], true⟩ (Tree.components path)).1 = found at halike
      generalize hfound' : (d'.trace h ⟨rootId, [], true⟩ (Tree.components path)).1 = found'
        at halike
      cases halike with
      | failed e =>
        left
        rw [report_of_error hfound' rest, List.map_cons, report_of_error hfound []]
        rfl
      | missing => exact hrest.cons hfound hfound' rfl hspends
      | found id id' place isDirectory => exact hrest.cons hfound hfound' rfl hspends

end Disk

end LazyTree
