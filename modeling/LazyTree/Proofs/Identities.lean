import Mathlib
import LazyTree.Backend.Disk

set_option autoImplicit false

/-!
# Identities of places on a disk

A backend over a directory of a host keeps two maps, from places to identities and back, and a
counter that wraps. Whatever is asked of it, on whatever hosts, places that have identities are told
with them, and new places get the numbers from one on in order. So the two maps are inverse to each
other, and the counter is zero exactly when all numbers are used up. From then on every new place is
refused, and nothing changes any more.

## Main definitions

* `LazyTree.Places.Numbered` — the identities are numbered in order, and the two maps agree.
* `LazyTree.Places.requireAll`, `LazyTree.Places.own` — the identities of some places, those that are
  new included, and the identity that a place has already.
* `LazyTree.Places.fresh` — the places among some that are new.
* `LazyTree.Disk.Call` — what is asked of a backend.
* `LazyTree.Disk.sought`, `LazyTree.Disk.call`, `LazyTree.Disk.run` — the places for which a call
  seeks identities, and the identities that one call tells, or any number of them.
* `LazyTree.Disk.Serves` — what comes of a call that seeks identities.

## Main results

* `LazyTree.Places.Numbered.require` — handing out one identity keeps the numbering.
* `LazyTree.Places.Numbered.places_requireAll` — which places get identities.
* `LazyTree.Places.Numbered.requireAll_eq_mapM` — each place is answered with the identity that it has
  afterwards.
* `LazyTree.Disk.call_eq` — all calls hand out identities in the same way.
* `LazyTree.Disk.identities_stable` — identities are told for one place each, for ever.
* `LazyTree.Disk.identities_stable_crowded` — all numbers can be used up.
-/

namespace LazyTree

/-- In a list without repeated keys a key leads to the value that stands beside it. -/
theorem lookup_eq_some_iff_mem {κ ν : Type} [BEq κ] [LawfulBEq κ] {pairs : List (κ × ν)}
    (hkeys : (pairs.map Prod.fst).Nodup) {k : κ} {v : ν} :
    pairs.lookup k = some v ↔ (k, v) ∈ pairs := by
  induction pairs with
  | nil => simp
  | cons pair pairs ih =>
    obtain ⟨k', v'⟩ := pair
    obtain ⟨hfirst, hrest⟩ := List.nodup_cons.mp hkeys
    by_cases hk : k = k'
    · subst hk
      have hnot : (k, v) ∉ pairs := fun hmem => hfirst (List.mem_map.mpr ⟨_, hmem, rfl⟩)
      simp [hnot, eq_comm]
    · simp [List.lookup_cons, beq_false_of_ne hk, hk, ih hrest]

namespace Places

variable {p p' : Places}

/-! ### Numbers in order -/

/-- Identities have been numbered from one on in order, each for another place, the latest first; the
two maps agree; and the counter, which wraps, is at the next number. -/
structure Numbered (p : Places) : Prop where
  /-- The two maps hold the same pairs. -/
  paths : p.paths = p.ids.map Prod.swap
  /-- No place has two identities. -/
  places : (p.ids.map Prod.fst).Nodup
  /-- The numbers are those from one on. -/
  numbers : p.ids.map (fun pair => pair.2.toNat) = (List.range' 1 p.ids.length).reverse
  /-- The counter is at the next number. -/
  next : p.next.toNat = (p.ids.length + 1) % UInt32.size

/-- No identity has been handed out yet. -/
theorem numbered_empty : empty.Numbered :=
  ⟨rfl, List.nodup_nil, rfl, rfl⟩

namespace Numbered

/-- A number that has been handed out is not zero, and not larger than their count. -/
theorem toNat_mem (h : p.Numbered) {place : Below} {id : FileId} (hmem : (place, id) ∈ p.ids) :
    1 ≤ id.toNat ∧ id.toNat ≤ p.ids.length := by
  have hnumber : id.toNat ∈ p.ids.map fun pair => pair.2.toNat :=
    List.mem_map_of_mem (f := fun pair => pair.2.toNat) hmem
  rw [h.numbers, List.mem_reverse, List.mem_range'_1] at hnumber
  omega

/-- No identity has two places. -/
theorem identities (h : p.Numbered) : (p.paths.map Prod.fst).Nodup := by
  have hnumbers : ((p.paths.map Prod.fst).map FileId.toNat).Nodup := by
    have heq : (p.paths.map Prod.fst).map FileId.toNat = p.ids.map fun pair => pair.2.toNat := by
      rw [h.paths]
      simp
    rw [heq, h.numbers]
    exact List.nodup_reverse.mpr List.nodup_range'
  exact hnumbers.of_map _

/-- A place has an identity exactly if the two are a pair. -/
theorem idOf?_eq_some_iff (h : p.Numbered) {place : Below} {id : FileId} :
    p.idOf? place = some id ↔ (place, id) ∈ p.ids :=
  lookup_eq_some_iff_mem h.places

/-- An identity has a place exactly if the two are a pair. -/
theorem pathOf?_eq_some_iff (h : p.Numbered) {place : Below} {id : FileId} :
    p.pathOf? id = some place ↔ (place, id) ∈ p.ids := by
  refine (lookup_eq_some_iff_mem h.identities).trans ?_
  rw [h.paths, List.mem_map]
  constructor
  · rintro ⟨⟨_, _⟩, hmem, ⟨⟩⟩
    exact hmem
  · exact fun hmem => ⟨_, hmem, rfl⟩

/-- The two maps are inverse to each other. -/
theorem inverse (h : p.Numbered) {place : Below} {id : FileId} :
    p.idOf? place = some id ↔ p.pathOf? id = some place :=
  h.idOf?_eq_some_iff.trans h.pathOf?_eq_some_iff.symm

/-- No place has two identities. -/
theorem eq_of_mem (h : p.Numbered) {place : Below} {id id' : FileId} (hid : (place, id) ∈ p.ids)
    (hid' : (place, id') ∈ p.ids) : id = id' := by
  have hfound := h.idOf?_eq_some_iff.mpr hid
  rw [h.idOf?_eq_some_iff.mpr hid'] at hfound
  exact (Option.some.inj hfound).symm

/-- There are not more identities than numbers. -/
theorem length_lt (h : p.Numbered) : p.ids.length < UInt32.size := by
  rcases Nat.eq_zero_or_pos p.ids.length with hzero | hpos
  · rw [hzero]
    decide
  · have hlast : p.ids.length ∈ p.ids.map fun pair => pair.2.toNat := by
      rw [h.numbers, List.mem_reverse, List.mem_range'_1]
      omega
    obtain ⟨pair, -, hpair⟩ := List.mem_map.mp hlast
    exact hpair ▸ pair.2.raw.toNat_lt

/-- The counter is zero exactly when all numbers are used up. -/
theorem next_eq_zero_iff (h : p.Numbered) : p.next = 0 ↔ p.ids.length + 1 = UInt32.size := by
  have hlt := h.length_lt
  rw [← UInt32.toNat_inj, UInt32.toNat_zero, h.next]
  rcases Nat.lt_or_eq_of_le (Nat.succ_le_of_lt hlt) with hless | hall
  · rw [Nat.mod_eq_of_lt hless]
    omega
  · rw [← hall, Nat.mod_self]
    simp

/-- As long as there are numbers, the counter is one more than the count of identities. -/
theorem toNat_next (h : p.Numbered) (hnext : p.next ≠ 0) : p.next.toNat = p.ids.length + 1 := by
  have hlt := h.length_lt
  have hnot := mt h.next_eq_zero_iff.mpr hnext
  rw [h.next, Nat.mod_eq_of_lt (by omega)]

end Numbered

/-! ### One identity -/

variable {place : Below}

/-- A place that has an identity keeps it. -/
theorem require_of_known {id : FileId} (hknown : p.idOf? place = some id) :
    p.require place = (.ok id, p) := by
  rw [require, hknown]

/-- A new place is refused when all numbers are used up. -/
theorem require_of_exhausted (hnew : p.idOf? place = none) (hnext : p.next = 0) :
    p.require place = (.error .idsExhausted, p) := by
  rw [require, hnew, FileId.ofRaw?_eq_none_iff.mpr hnext]

/-- A new place gets the next number, if there is one. -/
theorem Numbered.require_of_new (h : p.Numbered) (hnew : p.idOf? place = none)
    (hnext : p.next ≠ 0) :
    p.require place = (.ok ⟨p.next, hnext⟩,
      ⟨(place, ⟨p.next, hnext⟩) :: p.ids, (⟨p.next, hnext⟩, place) :: p.paths, p.next + 1⟩) := by
  have hfree : p.pathOf? ⟨p.next, hnext⟩ = none := by
    refine Option.eq_none_iff_forall_ne_some.mpr fun other hother => ?_
    have hle : p.next.toNat ≤ p.ids.length := (h.toNat_mem (h.pathOf?_eq_some_iff.mp hother)).2
    have hnumber := h.toNat_next hnext
    omega
  rw [require, hnew, FileId.ofRaw?, dif_neg hnext]
  simp [hfree]

/-- Handing out one identity keeps the numbering. -/
theorem Numbered.require (h : p.Numbered) (place : Below) : (p.require place).2.Numbered := by
  cases hknown : p.idOf? place with
  | some id => rwa [require_of_known hknown]
  | none =>
    by_cases hnext : p.next = 0
    · rwa [require_of_exhausted hknown hnext]
    · rw [h.require_of_new hknown hnext]
      have htoNat := h.toNat_next hnext
      refine ⟨?_, ?_, ?_, ?_⟩
      · simp [h.paths]
      · refine List.nodup_cons.mpr ⟨fun hmem => ?_, h.places⟩
        obtain ⟨⟨_, id⟩, hpair, rfl⟩ := List.mem_map.mp hmem
        rw [h.idOf?_eq_some_iff.mpr hpair] at hknown
        cases hknown
      · rw [List.map_cons, h.numbers, List.length_cons, List.range'_1_concat, List.reverse_append,
          FileId.toNat, htoNat, Nat.add_comm]
        rfl
      · rw [UInt32.toNat_add, htoNat, List.length_cons]
        rfl

/-- Handing out one identity keeps those that were handed out. -/
theorem ids_suffix_require (p : Places) (place : Below) : p.ids <:+ (p.require place).2.ids := by
  unfold require
  split
  · exact List.suffix_rfl
  · split
    · exact List.suffix_rfl
    · exact List.suffix_cons _ _

/-- The identity that is answered for a place is its own. -/
theorem Numbered.mem_of_require (h : p.Numbered) {id : FileId}
    (hrequire : p.require place = (.ok id, p')) : (place, id) ∈ p'.ids := by
  cases hknown : p.idOf? place with
  | some known =>
    rw [require_of_known hknown] at hrequire
    cases hrequire
    exact h.idOf?_eq_some_iff.mp hknown
  | none =>
    by_cases hnext : p.next = 0
    · rw [require_of_exhausted hknown hnext] at hrequire
      cases hrequire
    · rw [h.require_of_new hknown hnext] at hrequire
      cases hrequire
      exact List.mem_cons_self

/-! ### Any number of identities -/

/-- The identities of some places, one after the other. It ends at the first place that is refused. -/
def requireAll (p : Places) : List Below → Except BackendError (List (Below × FileId)) × Places
  | [] => (.ok [], p)
  | place :: rest =>
    match p.require place with
    | (.error e, p) => (.error e, p)
    | (.ok id, p) =>
      match p.requireAll rest with
      | (.error e, p) => (.error e, p)
      | (.ok told, p) => (.ok ((place, id) :: told), p)

/-- The identity that a place has already. A place that is new is refused. -/
def own (p : Places) (place : Below) : Except BackendError (Below × FileId) :=
  match p.idOf? place with
  | some id => .ok (place, id)
  | none => .error .idsExhausted

/-- The places among some that have no identity, each of them once, in order. -/
def fresh (p : Places) (places : List Below) : List Below :=
  (places.filter fun place => (p.idOf? place).isNone).eraseDups

variable {rest : List Below}

/-- Where the first place is refused, the others do not matter. -/
theorem requireAll_cons_of_error {e : BackendError} (h : p.require place = (.error e, p')) :
    p.requireAll (place :: rest) = (.error e, p') := by
  rw [requireAll, h]

/-- Where the first place is answered, the others follow. -/
theorem requireAll_cons_of_ok {id : FileId} (h : p.require place = (.ok id, p')) :
    p.requireAll (place :: rest) =
      ((p'.requireAll rest).1.map ((place, id) :: ·), (p'.requireAll rest).2) := by
  rw [requireAll, h]
  dsimp only
  cases p'.requireAll rest with
  | mk result last => cases result <;> rfl

/-- Handing out any number of identities keeps the numbering and those that were handed out, and
answers each place with its own. -/
theorem Numbered.requireAll (h : p.Numbered) (places : List Below) :
    (p.requireAll places).2.Numbered ∧ p.ids <:+ (p.requireAll places).2.ids ∧
      ∀ told, (p.requireAll places).1 = .ok told →
        told.map Prod.fst = places ∧ ∀ pair ∈ told, pair ∈ (p.requireAll places).2.ids := by
  induction places generalizing p with
  | nil =>
    refine ⟨h, List.suffix_rfl, ?_⟩
    rintro told ⟨⟩
    exact ⟨rfl, fun _ hpair => nomatch hpair⟩
  | cons place rest ih =>
    have hnumbered := h.require place
    have hsuffix := p.ids_suffix_require place
    cases hrequire : p.require place with
    | mk result now =>
      rw [hrequire] at hnumbered hsuffix
      cases result with
      | error e =>
        rw [requireAll_cons_of_error hrequire]
        exact ⟨hnumbered, hsuffix, fun _ htold => nomatch htold⟩
      | ok id =>
        rw [requireAll_cons_of_ok hrequire]
        obtain ⟨hnumbered', hsuffix', htold'⟩ := ih hnumbered
        refine ⟨hnumbered', hsuffix.trans hsuffix', fun told htold => ?_⟩
        cases hrest : (now.requireAll rest).1 with
        | error e =>
          rw [hrest] at htold
          cases htold
        | ok told' =>
          rw [hrest] at htold
          obtain rfl := Except.ok.inj htold
          obtain ⟨hplaces, hpairs⟩ := htold' told' hrest
          exact ⟨by rw [List.map_cons, hplaces],
            List.forall_mem_cons.mpr ⟨hsuffix'.subset (h.mem_of_require hrequire), hpairs⟩⟩

/-- When all numbers are used up, each place that has an identity gets it, the first place that is new
is refused, and nothing changes. -/
theorem requireAll_of_exhausted (hnext : p.next = 0) (places : List Below) :
    p.requireAll places = (places.mapM p.own, p) := by
  induction places with
  | nil => rfl
  | cons place rest ih =>
    rw [List.mapM_cons, own]
    cases hknown : p.idOf? place with
    | none =>
      rw [requireAll_cons_of_error (require_of_exhausted hknown hnext)]
      rfl
    | some id =>
      rw [requireAll_cons_of_ok (require_of_known hknown), ih]
      rfl

/-- An identity is refused for one reason only: the place is new, and all numbers are used up. Nothing
changes then. -/
theorem require_eq_error {e : BackendError} (h : p.require place = (.error e, p')) :
    e = .idsExhausted ∧ p' = p ∧ p.idOf? place = none ∧ p.next = 0 := by
  rw [require] at h
  cases hknown : p.idOf? place with
  | some id =>
    rw [hknown] at h
    cases h
  | none =>
    rw [hknown] at h
    cases hnext : FileId.ofRaw? p.next with
    | some id =>
      rw [hnext] at h
      cases h
    | none =>
      rw [hnext] at h
      cases h
      exact ⟨rfl, rfl, rfl, FileId.ofRaw?_eq_none_iff.mp hnext⟩

/-- So it is for any number of identities. -/
theorem requireAll_eq_error {places : List Below} {e : BackendError}
    (h : p.requireAll places = (.error e, p')) : e = .idsExhausted ∧ p'.next = 0 := by
  induction places generalizing p with
  | nil => cases h
  | cons place rest ih =>
    cases hrequire : p.require place with
    | mk result now =>
      cases result with
      | error e' =>
        rw [requireAll_cons_of_error hrequire] at h
        cases h
        obtain ⟨rfl, rfl, -, hnext⟩ := require_eq_error hrequire
        exact ⟨rfl, hnext⟩
      | ok id =>
        rw [requireAll_cons_of_ok hrequire] at h
        cases hrest : now.requireAll rest with
        | mk result' last =>
          rw [hrest] at h
          cases result' with
          | error e' =>
            cases h
            exact ih hrest
          | ok told => cases h

/-- Each place is answered with the identity that it has afterwards, and the first that has none is
refused. -/
theorem Numbered.requireAll_eq_mapM (h : p.Numbered) (places : List Below) :
    (p.requireAll places).1 = places.mapM (p.requireAll places).2.own := by
  induction places generalizing p with
  | nil => rfl
  | cons place rest ih =>
    have hnumbered := h.require place
    rw [List.mapM_cons]
    cases hrequire : p.require place with
    | mk result now =>
      rw [hrequire] at hnumbered
      cases result with
      | error e =>
        obtain ⟨rfl, rfl, hnew, -⟩ := require_eq_error hrequire
        rw [requireAll_cons_of_error hrequire, own, hnew]
        rfl
      | ok id =>
        -- the place keeps its identity while the others get theirs
        obtain ⟨hlast, hkept, -⟩ := hnumbered.requireAll rest
        have hown : (now.requireAll rest).2.own place = .ok (place, id) := by
          rw [own, hlast.idOf?_eq_some_iff.mpr (hkept.subset (h.mem_of_require hrequire))]
        rw [requireAll_cons_of_ok hrequire, hown, ← ih hnumbered]
        rfl

/-- If all places have identities, nothing changes. -/
theorem requireAll_of_known {places : List Below}
    (hknown : ∀ place ∈ places, ∃ id, p.idOf? place = some id) : (p.requireAll places).2 = p := by
  induction places with
  | nil => rfl
  | cons place rest ih =>
    obtain ⟨⟨id, hid⟩, hrest⟩ := List.forall_mem_cons.mp hknown
    rw [requireAll_cons_of_ok (require_of_known hid)]
    exact ih hrest

theorem fresh_cons_of_known {id : FileId} (hknown : p.idOf? place = some id) (rest : List Below) :
    p.fresh (place :: rest) = p.fresh rest := by
  rw [fresh, List.filter_cons_of_neg (by simp [hknown])]
  rfl

/-- Once a new place has its identity, the others are the new ones. -/
theorem fresh_cons_of_new {id : FileId} (hnew : p.idOf? place = none) (rest : List Below)
    (paths : List (FileId × Below)) (next : UInt32) :
    p.fresh (place :: rest) = place :: (⟨(place, id) :: p.ids, paths, next⟩ : Places).fresh rest := by
  rw [fresh, List.filter_cons_of_pos (by simp [hnew]), List.eraseDups_cons, List.filter_filter, fresh]
  refine congrArg (fun others => place :: List.eraseDups others) (List.filter_congr fun other _ => ?_)
  rw [idOf?, idOf?, List.lookup_cons]
  cases hother : other == place <;> simp

/-- New places get identities, each of them once and in order, as long as there are numbers; no other
places do. -/
theorem Numbered.places_requireAll (h : p.Numbered) (places : List Below) :
    (p.requireAll places).2.ids.map Prod.fst =
      ((p.fresh places).take (UInt32.size - 1 - p.ids.length)).reverse ++ p.ids.map Prod.fst := by
  induction places generalizing p with
  | nil => simp [Places.requireAll, fresh]
  | cons place rest ih =>
    cases hknown : p.idOf? place with
    | some id =>
      rw [requireAll_cons_of_ok (require_of_known hknown), fresh_cons_of_known hknown, ← ih h]
    | none =>
      by_cases hnext : p.next = 0
      · have hall := h.next_eq_zero_iff.mp hnext
        rw [requireAll_cons_of_error (require_of_exhausted hknown hnext),
          show UInt32.size - 1 - p.ids.length = 0 by omega]
        rfl
      · have hlt := h.length_lt
        have hsome := mt h.next_eq_zero_iff.mpr hnext
        have hcount : UInt32.size - 1 - p.ids.length =
            (UInt32.size - 1 - (p.ids.length + 1)) + 1 := by omega
        have hnow := h.require place
        rw [h.require_of_new hknown hnext] at hnow
        rw [requireAll_cons_of_ok (h.require_of_new hknown hnext), ih hnow,
          fresh_cons_of_new hknown rest _ _, hcount, List.take_succ_cons, List.reverse_cons,
          List.append_assoc, List.singleton_append, List.map_cons, List.length_cons]

/-- Places that are new and differ are the new ones. -/
theorem fresh_eq_self {places : List Below} (hdiffer : places.Nodup)
    (hnew : ∀ place ∈ places, p.idOf? place = none) : p.fresh places = places := by
  rw [fresh, List.filter_eq_self.mpr fun place hplace => by simp [hnew place hplace]]
  clear hnew
  induction places with
  | nil => rfl
  | cons place rest ih =>
    obtain ⟨hplace, hrest⟩ := List.nodup_cons.mp hdiffer
    have hothers : ∀ other ∈ rest, (!other == place) = true := fun other hother => by
      simp [ne_of_mem_of_not_mem hother hplace]
    rw [List.eraseDups_cons, List.filter_eq_self.mpr hothers, ih hrest]

end Places

/-! ### Calls of a backend -/

namespace Disk

/-- What is asked of a backend: about its root, or a question of a tree. -/
inductive Call where
  /-- About the root. -/
  | root
  /-- A question of a tree. -/
  | ask (q : Query)

/-- The identities in the answer to a question, with the places that have them. -/
def named (d : Disk) (h : Host) : (q : Query) → q.Reply → List (Below × FileId)
  | .resolve dir name policy, some id => match d.locate h dir name policy with
    | .ok (some (place, _)) => [(place, id)]
    | _ => []
  | .list dir, lines => match d.parent dir with
    | .ok place => lines.map fun line => (place ++ [line.name], line.id)
    | .error _ => []
  | _, _ => []

/-- What a call tells of places and their identities, and the backend that has handed them out. -/
def call (d : Disk) (h : Host) : Call → Except BackendError (List (Below × FileId)) × Disk
  | .root =>
    let (result, d) := d.require []
    (result.map fun id => [([], id)], d)
  | .ask q =>
    let (result, after) := d.answer h q
    (result.map (d.named h q), after)

/-- The places for which a call seeks identities. -/
def sought (d : Disk) (h : Host) : Call → Except BackendError (List Below)
  | .root => .ok [[]]
  | .ask (.resolve dir name policy) =>
    (d.locate h dir name policy).map fun found => found.toList.map Prod.fst
  | .ask (.list dir) =>
    match d.parent dir with
    | .error e => .error e
    | .ok place => (d.names h place).map fun names => (names.map (place ++ [·])).filter d.allows
  | .ask q => (d.answer h q).1.map fun _ => []

/-- A listing tells the identities of the places that may be shown. -/
theorem listed_eq (d : Disk) (dir : Below) (names : List String) :
    let all := d.places.requireAll ((names.map (dir ++ [·])).filter d.allows)
    (d.listed dir names).1.map (fun lines =>
        lines.map fun line => (dir ++ [line.name], line.id)) = all.1 ∧
      (d.listed dir names).2 = { d with places := all.2 } := by
  induction names generalizing d with
  | nil => exact ⟨rfl, rfl⟩
  | cons name rest ih =>
    rw [listed, List.map_cons, List.filter_cons]
    by_cases hshown : d.allows (dir ++ [name]) = true
    · rw [if_pos hshown, if_pos hshown, Disk.require]
      cases hrequire : d.places.require (dir ++ [name]) with
      | mk result now =>
        cases result with
        | error e =>
          rw [Places.requireAll_cons_of_error hrequire]
          exact ⟨rfl, rfl⟩
        | ok id =>
          -- what may be shown does not depend on the identities
          obtain ⟨hlines, hafter⟩ := ih { d with places := now }
          have hallows : ({ d with places := now } : Disk).allows = d.allows := rfl
          rw [hallows] at hlines hafter
          rw [Places.requireAll_cons_of_ok hrequire]
          dsimp only at hlines hafter ⊢
          rw [← hlines]
          cases hlisted : ({ d with places := now } : Disk).listed dir rest with
          | mk lines after =>
            rw [hlisted] at hafter
            cases lines <;> exact ⟨rfl, hafter⟩
    · rw [if_neg hshown, if_neg hshown]
      exact ih d

/-- All calls hand out identities in the same way: for the places that they seek, one after the
other. -/
theorem call_eq (d : Disk) (h : Host) (c : Call) :
    d.call h c = match d.sought h c with
      | .error e => (.error e, d)
      | .ok places =>
        ((d.places.requireAll places).1, { d with places := (d.places.requireAll places).2 }) := by
  cases c with
  | root =>
    simp only [call, sought, require, Places.requireAll]
    cases d.places.require [] with
    | mk result now => cases result <;> rfl
  | ask q =>
    cases q with
    | resolve dir name policy =>
      simp only [call, sought, answer]
      cases hfound : d.locate h dir name policy with
      | error e => rfl
      | ok found =>
        cases found with
        | none => simp [named, Except.map, Places.requireAll]
        | some found =>
          simp only [require, Except.map, Option.toList, List.map_cons, List.map_nil, Places.requireAll]
          cases d.places.require found.1 with
          | mk result now => cases result <;> simp [named, hfound]
    | list dir =>
      simp only [call, sought, answer]
      cases hparent : d.parent dir with
      | error e => rfl
      | ok place =>
        dsimp only
        cases d.names h place with
        | error e => rfl
        | ok names =>
          obtain ⟨hlines, hafter⟩ := d.listed_eq place names
          have hnamed : d.named h (.list dir) = fun lines =>
              lines.map fun line => (place ++ [line.name], line.id) := by
            funext lines
            simp [named, hparent]
          rw [hnamed]
          exact Prod.ext hlines hafter
    | attributes dir name =>
      simp only [call, sought, answer]
      cases d.locate h dir name d.policy <;> rfl
    | canonical dir name =>
      simp only [call, sought]
      have hafter : (d.answer h (.canonical dir name)).2 = d := by
        rw [answer]
        split
        · rfl
        · split <;> rfl
      cases hanswer : d.answer h (.canonical dir name) with
      | mk result after =>
        rw [hanswer] at hafter
        subst hafter
        cases result <;> rfl
    | nameOf id => rfl

/-- Calls, one after the other, each on the host as it is then, and all that they told of places and
their identities. -/
def run (d : Disk) : List (Host × Call) → List (Below × FileId) × Disk
  | [] => ([], d)
  | (h, c) :: calls =>
    let now := d.call h c
    let later := now.2.run calls
    (now.1.toOption.getD [] ++ later.1, later.2)

/-- Calls change nothing of a backend but the identities. -/
theorem call_places (d : Disk) (h : Host) (c : Call) :
    (d.call h c).2 = { d with places := (d.call h c).2.places } := by
  rw [call_eq]
  cases d.sought h c <;> rfl

/-- So do any number of calls. -/
theorem run_places (d : Disk) (calls : List (Host × Call)) :
    (d.run calls).2 = { d with places := (d.run calls).2.places } := by
  induction calls generalizing d with
  | nil => rfl
  | cons first calls ih =>
    rw [run]
    dsimp only
    rw [ih, call_places]

/-- What comes of calls: identities stay numbered, those that were handed out stay, and what was told
is among them. -/
structure Tells (d : Disk) (after : List (Below × FileId) × Disk) : Prop where
  /-- Identities stay numbered. -/
  numbered : after.2.places.Numbered
  /-- Those that were handed out stay. -/
  keeps : d.places.ids <:+ after.2.places.ids
  /-- What was told is among them. -/
  told : ∀ pair ∈ after.1, pair ∈ after.2.places.ids

/-- What comes of a call. -/
theorem tells_call {d : Disk} (hd : d.places.Numbered) (h : Host) (c : Call) :
    d.Tells ((d.call h c).1.toOption.getD [], (d.call h c).2) := by
  rw [call_eq]
  cases d.sought h c with
  | error e => exact ⟨hd, List.suffix_rfl, fun _ hpair => nomatch hpair⟩
  | ok places =>
    obtain ⟨hnumbered, hsuffix, htold⟩ := hd.requireAll places
    refine ⟨hnumbered, hsuffix, ?_⟩
    dsimp only
    cases hanswer : (d.places.requireAll places).1 with
    | error e => exact fun _ hpair => nomatch hpair
    | ok told => exact (htold told hanswer).2

/-- What comes of any number of calls. -/
theorem tells_run {d : Disk} (hd : d.places.Numbered) (calls : List (Host × Call)) :
    d.Tells (d.run calls) := by
  induction calls generalizing d with
  | nil => exact ⟨hd, List.suffix_rfl, fun _ hpair => nomatch hpair⟩
  | cons first calls ih =>
    obtain ⟨h, c⟩ := first
    have hnow := tells_call hd h c
    have hlater := ih hnow.numbered
    refine ⟨hlater.numbered, hnow.keeps.trans hlater.keeps, ?_⟩
    exact List.forall_mem_append.mpr
      ⟨fun pair hpair => hlater.keeps.subset (hnow.told pair hpair), hlater.told⟩

/-- When all numbers are used up, a call tells of each place that it seeks the identity that the place
has already, the first place that is new is refused, and nothing changes. -/
theorem call_of_exhausted {d : Disk} (hnext : d.places.next = 0) (h : Host) (c : Call) :
    d.call h c = ((d.sought h c).bind fun places => places.mapM d.places.own, d) := by
  rw [call_eq]
  cases d.sought h c with
  | error e => rfl
  | ok places =>
    dsimp only
    rw [Places.requireAll_of_exhausted hnext]
    rfl

/-- What comes of a call that seeks the identities of some places: the answer, and the backend that has
handed them out. -/
structure Serves (d : Disk) (places : List Below)
    (now : Except BackendError (List (Below × FileId)) × Disk) : Prop where
  /-- Each place is told with the identity that it has now. The first that has none is refused. -/
  told : now.1 = places.mapM now.2.places.own
  /-- Nothing changes but the identities. -/
  others : now.2 = { d with places := now.2.places }
  /-- The new places get identities, each of them once and in order, as long as there are numbers. No
  other places do. -/
  gained : now.2.places.ids.map Prod.fst =
    ((d.places.fresh places).take (UInt32.size - 1 - d.places.ids.length)).reverse ++
      d.places.ids.map Prod.fst
  /-- If all places have identities, nothing changes at all. -/
  known : (∀ place ∈ places, ∃ id, d.places.idOf? place = some id) → now.2 = d

/-- Each call serves the places that it seeks. -/
theorem serves_call {d : Disk} (hd : d.places.Numbered) {h : Host} {c : Call} {places : List Below}
    (hsought : d.sought h c = .ok places) : d.Serves places (d.call h c) := by
  rw [call_eq, hsought]
  refine ⟨hd.requireAll_eq_mapM places, rfl, hd.places_requireAll places, fun hknown => ?_⟩
  exact congrArg (fun p => ({ d with places := p } : Disk)) (Places.requireAll_of_known hknown)

/-- To find the place of a directory takes no new identity. -/
theorem parent_ne_exhausted (d : Disk) (dir : FileId) : d.parent dir ≠ .error .idsExhausted := by
  unfold parent
  split <;> rintro ⟨⟩

/-- To list names takes none. -/
theorem names_ne_exhausted (d : Disk) (h : Host) (place : Below) :
    d.names h place ≠ .error .idsExhausted := by
  unfold names
  split <;> rintro ⟨⟩

/-- To spell a name takes none. -/
theorem spelling?_ne_exhausted (d : Disk) (h : Host) (place : Below) (name : String) :
    d.spelling? h place name ≠ .error .idsExhausted := by
  unfold spelling?
  cases hnames : d.names h place with
  | error e =>
    intro hfail
    cases hfail
    exact d.names_ne_exhausted h place hnames
  | ok names => rintro ⟨⟩

/-- To locate a name takes none. -/
theorem locate_ne_exhausted (d : Disk) (h : Host) (dir : FileId) (name : String)
    (policy : CasePolicy) : d.locate h dir name policy ≠ .error .idsExhausted := by
  have hparent := d.parent_ne_exhausted dir
  have hspelling := d.spelling?_ne_exhausted h
  unfold locate
  grind

/-- No call is refused before it has found out which places it is about. -/
theorem sought_ne_exhausted (d : Disk) (h : Host) (c : Call) :
    d.sought h c ≠ .error .idsExhausted := by
  have hmap {α β : Type} (f : α → β) {x : Except BackendError α} (hx : x ≠ .error .idsExhausted) :
      x.map f ≠ .error .idsExhausted := by
    cases x with
    | error e => simpa [Except.map] using hx
    | ok a => rintro ⟨⟩
  cases c with
  | root => rintro ⟨⟩
  | ask q =>
    cases q with
    | resolve dir name policy => exact hmap _ (d.locate_ne_exhausted h dir name policy)
    | attributes dir name => exact hmap _ (hmap _ (d.locate_ne_exhausted h dir name d.policy))
    | canonical dir name =>
      simp only [sought, answer]
      split
      · rintro ⟨⟩
      · have hparent := d.parent_ne_exhausted dir
        cases hplace : d.parent dir with
        | error e =>
          rw [hplace] at hparent
          exact hmap _ fun hfail => hparent (congrArg _ (Except.error.inj hfail))
        | ok place => exact hmap _ (hmap _ (d.spelling?_ne_exhausted h place name))
    | list dir =>
      simp only [sought]
      have hparent := d.parent_ne_exhausted dir
      cases hplace : d.parent dir with
      | error e =>
        rw [hplace] at hparent
        exact fun hfail => hparent (congrArg _ (Except.error.inj hfail))
      | ok place => exact hmap _ (d.names_ne_exhausted h place)
    | nameOf id => rintro ⟨⟩

/-- A call is refused only if all numbers are used up afterwards. -/
theorem next_eq_zero_of_refused {d : Disk} {h : Host} {c : Call}
    (hrefused : (d.call h c).1 = .error .idsExhausted) : (d.call h c).2.places.next = 0 := by
  rw [call_eq] at hrefused ⊢
  cases hsought : d.sought h c with
  | error e =>
    rw [hsought] at hrefused
    obtain rfl := Except.error.inj hrefused
    exact absurd hsought (d.sought_ne_exhausted h c)
  | ok places =>
    rw [hsought] at hrefused
    exact (Places.requireAll_eq_error (Prod.ext hrefused rfl)).2

/-- So is a question. -/
theorem next_eq_zero_of_answer {d : Disk} {h : Host} {q : Query}
    (hrefused : (d.answer h q).1 = .error .idsExhausted) : (d.answer h q).2.places.next = 0 := by
  refine next_eq_zero_of_refused (c := .ask q) ?_
  change (d.answer h q).1.map _ = _
  rw [hrefused]
  rfl

/-- The identities of a new backend are numbered: the root has the first one. -/
theorem numbered_ofRoot (root : Location) (policy : CasePolicy) (allowed : List HostPath) :
    (ofRoot root policy allowed).places.Numbered :=
  Places.numbered_empty.require []

/-- Identities of places are stable. Whatever was asked of a backend since it was opened, on whatever
hosts, the two maps are inverse to each other; what was told of places and identities is what the maps
say, so the same place was always told the same identity, and no other place was; identities that were
handed out stay what they are; they are numbered from one on in order, no number twice, and the
counter is at the next number, modulo its size. Every further call that fails to find out which places
it is about changes nothing. Every other one tells of each place that it seeks the identity that it
has then, which is its own if it has one already, and a number that was left over if it is new; only
where no number was left over a place is refused. If the counter is zero, then all numbers are used
up, every further call leaves everything as it is, tells of each place that it seeks and that has an
identity its own, and refuses each that has none.

**Proof sketch.** All calls seek the identities of some places, one after the other, and nothing else
of them matters. A place that has an identity changes nothing. One that has none gets the number of
the counter, which is one more than the count of identities, hence new for both maps, unless the
counter is zero. -/
theorem identities_stable (root : Location) (policy : CasePolicy) (allowed : List HostPath)
    (calls : List (Host × Call)) :
    let after := (ofRoot root policy allowed).run calls
    let p := after.2.places
    (∀ place id, p.idOf? place = some id ↔ p.pathOf? id = some place) ∧
    (∀ pair ∈ after.1, p.idOf? pair.1 = some pair.2) ∧
    (∀ a ∈ after.1, ∀ b ∈ after.1, a.1 = b.1 ↔ a.2 = b.2) ∧
    (∀ place id, p.idOf? place = some id →
      ∀ more, (after.2.run more).2.places.idOf? place = some id) ∧
    p.ids.map (fun pair => pair.2.toNat) = (List.range' 1 p.ids.length).reverse ∧
    p.next.toNat = (p.ids.length + 1) % UInt32.size ∧
    (∀ h c, match after.2.sought h c with
      | .error e => after.2.call h c = (.error e, after.2)
      | .ok places => after.2.Serves places (after.2.call h c)) ∧
    (p.next = 0 → p.ids.length = UInt32.size - 1 ∧
      ∀ h c, after.2.call h c =
        ((after.2.sought h c).bind fun places => places.mapM p.own, after.2)) := by
  intro after p
  have htells : (ofRoot root policy allowed).Tells after :=
    tells_run (numbered_ofRoot root policy allowed) calls
  have hp : p.Numbered := htells.numbered
  have htold : ∀ pair ∈ after.1, p.idOf? pair.1 = some pair.2 := fun pair hpair =>
    hp.idOf?_eq_some_iff.mpr (htells.told pair hpair)
  refine ⟨fun place id => hp.inverse, htold, fun a ha b hb => ⟨fun hplace => ?_, fun hid => ?_⟩,
    fun place id hknown more => ?_, hp.numbers, hp.next, fun h c => ?_, fun hnext => ⟨?_, ?_⟩⟩
  · have hsame := htold b hb
    rw [← hplace, htold a ha] at hsame
    exact Option.some.inj hsame
  · have hsame := hp.inverse.mp (htold b hb)
    rw [← hid, hp.inverse.mp (htold a ha)] at hsame
    exact Option.some.inj hsame
  · have hmore := tells_run hp more
    exact hmore.numbered.idOf?_eq_some_iff.mpr
      (hmore.keeps.subset (hp.idOf?_eq_some_iff.mp hknown))
  · cases hsought : after.2.sought h c with
    | error e =>
      have hcall := after.2.call_eq h c
      rwa [hsought] at hcall
    | ok places => exact serves_call hp hsought
  · have hall := hp.next_eq_zero_iff.mp hnext
    omega
  · exact call_of_exhausted hnext

/-! ### Using up all numbers -/

/-- The names that are numbers, as many as one wants. -/
def crowd (files : Nat) : List String :=
  (List.range files).map fun i => String.ofList ((Nat.digits 10 (i + 1)).map Nat.digitChar)

/-- The places with these names below the root. -/
def crowdedPlaces (files : Nat) : List Below :=
  (crowd files).map ([·])

/-- The host that has files with these names at its top. -/
def crowded (files : Nat) : Host where
  top := .directory false ((crowd files).map fun name => (.text name, .file false .empty))

/-- A number can be read from its digits. -/
theorem map_digitChar (n : Nat) :
    ((Nat.digits 10 n).map Nat.digitChar).map (fun c => c.toNat - '0'.toNat) = Nat.digits 10 n := by
  rw [List.map_map]
  refine (List.map_congr_left fun d hd => ?_).trans (List.map_id _)
  have hlt : d < 10 := Nat.digits_lt_base (by decide) hd
  interval_cases d <;> rfl

theorem length_crowdedPlaces (files : Nat) : (crowdedPlaces files).length = files := by
  rw [crowdedPlaces, List.length_map, crowd, List.length_map, List.length_range]

/-- The places differ. -/
theorem nodup_crowdedPlaces (files : Nat) : (crowdedPlaces files).Nodup := by
  rw [crowdedPlaces, crowd, List.map_map]
  refine (List.nodup_map_iff_inj_on List.nodup_range).mpr fun i _ j _ hij => ?_
  have hchars := congrArg String.toList (List.singleton_inj.mp hij)
  rw [String.toList_ofList, String.toList_ofList] at hchars
  have hdigits := congrArg (List.map fun c => c.toNat - '0'.toNat) hchars
  rw [map_digitChar, map_digitChar, Nat.digits_inj_iff] at hdigits
  omega

/-- A listing of the top seeks an identity for each of the files. -/
theorem sought_crowded (files : Nat) :
    (ofRoot [] .sensitive []).sought (crowded files) (.ask (.list rootId)) =
      .ok (crowdedPlaces files) := by
  have hlist : (crowded files).list [.top] = .ok ((crowd files).map .text) := by
    have hwalk : (crowded files).walk true [.top] = .ok (.taken []) := by
      simp [Host.walk, HostPath.hasNul, Host.start?, Host.walkFrom]
    have hat : (crowded files).at? [] = some (crowded files).top := rfl
    rw [Host.list, Host.follow, Host.reach, hwalk]
    dsimp only
    rw [hat]
    simp [crowded, Except.map]
  have hnames : (ofRoot [] .sensitive []).names (crowded files) [] = .ok (crowd files) := by
    have hpath : (ofRoot [] .sensitive []).path [] = [.top] := rfl
    rw [names, hpath, hlist]
    simp [List.filterMap_map, Function.comp_def, FileName.text?]
  have hparent : (ofRoot [] .sensitive []).parent rootId = .ok [] := rfl
  have hallows (place : Below) : (ofRoot [] .sensitive []).allows place = true := rfl
  simp only [sought, hparent, hnames, Except.map, List.nil_append]
  rw [List.filter_eq_self.mpr fun place _ => hallows place, crowdedPlaces]

/-- Listing these files hands out identities for all of them, as long as there are numbers. -/
theorem places_run_crowded {files : Nat} (hfiles : files + 1 < UInt32.size) :
    ((ofRoot [] .sensitive []).run
      [(crowded files, .ask (.list rootId))]).2.places.ids.map Prod.fst =
        (crowdedPlaces files).reverse ++ [[]] := by
  have hids : (ofRoot [] .sensitive []).places.ids = [([], rootId)] := rfl
  have hnew : ∀ place ∈ crowdedPlaces files,
      (ofRoot [] .sensitive []).places.idOf? place = none := by
    intro place hplace
    obtain ⟨name, -, rfl⟩ := List.mem_map.mp hplace
    rw [Places.idOf?, hids]
    rfl
  refine (serves_call (numbered_ofRoot [] .sensitive []) (sought_crowded files)).gained.trans ?_
  rw [Places.fresh_eq_self (nodup_crowdedPlaces files) hnew, List.take_of_length_le]
  · rfl
  · rw [length_crowdedPlaces, hids, List.length_singleton]
    omega

/-- The host that has one more file, with another name. -/
def outside : Host where
  top := .directory false [(.text "z", .file false .empty)]

/-- The name of that file is no number. -/
theorem outside_not_mem_crowdedPlaces (files : Nat) : ["z"] ∉ crowdedPlaces files := by
  intro hmem
  obtain ⟨name, hname, hz⟩ := List.mem_map.mp hmem
  obtain ⟨i, -, rfl⟩ := List.mem_map.mp hname
  have hchars := congrArg String.toList (List.singleton_inj.mp hz)
  rw [String.toList_ofList] at hchars
  obtain ⟨digit, hdigit, hchar⟩ : ∃ d ∈ Nat.digits 10 (i + 1), d.digitChar = 'z' := by
    refine List.mem_map.mp ?_
    rw [hchars]
    decide
  have hlt : digit < 10 := Nat.digits_lt_base (by decide) hdigit
  interval_cases digit <;> cases hchar

/-- As many files as there are numbers left use up all of them. The root then keeps its identity, and one
more file is refused. -/
theorem identities_stable_crowded :
    ∃ calls : List (Host × Call), let after := ((ofRoot [] .sensitive []).run calls).2
      after.places.next = 0 ∧
      (∀ h, after.call h .root = (.ok [([], rootId)], after)) ∧
      after.call outside (.ask (.resolve rootId "z" .sensitive)) = (.error .idsExhausted, after) := by
  refine ⟨[(crowded (UInt32.size - 2), .ask (.list rootId))], ?_⟩
  have hplaces := places_run_crowded (show UInt32.size - 2 + 1 < UInt32.size by decide)
  have htells := tells_run (numbered_ofRoot [] .sensitive [])
    [(crowded (UInt32.size - 2), .ask (.list rootId))]
  have hothers := (ofRoot [] .sensitive []).run_places
    [(crowded (UInt32.size - 2), .ask (.list rootId))]
  obtain ⟨hinverse, -, -, -, -, hcounter, -, hexhausted⟩ := identities_stable [] .sensitive []
    [(crowded (UInt32.size - 2), .ask (.list rootId))]
  obtain ⟨hnumbered, hkeeps, -⟩ := htells
  generalize ((ofRoot [] .sensitive []).run
    [(crowded (UInt32.size - 2), .ask (.list rootId))]).2 = after at *
  have hcount : after.places.ids.length = UInt32.size - 1 := by
    rw [← List.length_map (f := Prod.fst), hplaces, List.length_append, List.length_reverse,
      length_crowdedPlaces]
    rfl
  have hnext : after.places.next = 0 := by
    rw [← UInt32.toNat_inj, hcounter, hcount]
    rfl
  have hroot : after.places.idOf? [] = some rootId :=
    hnumbered.idOf?_eq_some_iff.mpr (hkeeps.subset List.mem_cons_self)
  have hnew : after.places.idOf? ["z"] = none := by
    refine Option.eq_none_iff_forall_ne_some.mpr fun id hid => ?_
    have hmem : ["z"] ∈ after.places.ids.map Prod.fst :=
      List.mem_map.mpr ⟨_, hnumbered.idOf?_eq_some_iff.mp hid, rfl⟩
    rw [hplaces] at hmem
    rcases List.mem_append.mp hmem with hmem | hmem
    · exact outside_not_mem_crowdedPlaces _ (List.mem_reverse.mp hmem)
    · simp at hmem
  have hsought : after.sought outside (.ask (.resolve rootId "z" .sensitive)) = .ok [["z"]] := by
    have hparent : after.parent rootId = .ok [] := by rw [parent, (hinverse _ _).mp hroot]
    have hlook : outside.lookAt (after.path ["z"]) = .ok (.file false .empty) := by
      rw [hothers]
      cbv
    have hallows : after.allows ["z"] = true := by
      rw [hothers]
      rfl
    have hcomponent : isComponent "z" = true := by decide
    simp [sought, locate, hcomponent, hparent, hlook, hallows, Except.map]
  refine ⟨hnext, fun h => ?_, ?_⟩
  · rw [(hexhausted hnext).2, sought]
    simp [Except.bind, Places.own, hroot]
  · rw [(hexhausted hnext).2, hsought]
    simp [Except.bind, Places.own, hnew]

end Disk

end LazyTree
