import Mathlib
import LazyTree.Proofs.ZoneConsistency

set_option autoImplicit false

/-!
# The search in two zones against one search for each zone

The search in two zones shares one descent between two answers, and hands what is left of the
array to one search for each of them. Here it is held against what it stands for: for each zone,
a look through that zone alone. And it is held against a search that gives up when it would read
a slot or take a slice that the array does not have, or when it would go on for more rounds than
it may.

## Main definitions

* `LazyTree.Zones.Locates` — a place is where a look through a zone finds a name.
* `LazyTree.Zones.slice?` — a slice of an array, if the array has it.
* `LazyTree.Zones.searchWithin` — the search, in slices and with a limited number of rounds.

## Main results

* `LazyTree.Zones.Locates.eq` — there is only one such place.
* `LazyTree.Zones.searchWithin_eq` — the search needs no slice that the array does not have, and
  one round for each binary digit of the size, whatever the array holds.
* `LazyTree.Zones.search_locates` — in two ascending zones, which may share names, the search
  finds the place of a name in either.
-/

namespace LazyTree

namespace Zones

variable {ν : Type} [Named ν]

/-! ### The search that gives up -/

/-- The slots from `lo` up to but not including `hi`; nothing if that runs backwards or out of
the array. -/
def slice? (slots : Zones ν) (lo hi : Nat) : Option (Zones ν) :=
  if lo ≤ hi ∧ hi ≤ slots.size then some (slots.extract lo hi) else none

/-- The search of one zone in a slice, if the array has that slice. -/
def searchSlice? (policy : CasePolicy) (slots : Zones ν) (absentZone : Bool) (wanted : String)
    (lo hi : Nat) : Option Place :=
  (slots.slice? lo hi).map fun slice =>
    (searchZone policy slice absentZone wanted 0 slice.size).shift lo

/-- The common descent with a number of rounds that it may take. It gives up when the rounds are
spent before the range is empty, and when there is no such slot or no such slice. -/
def descendWithin (policy : CasePolicy) (slots : Zones ν) (wanted : String) :
    Nat → Nat → Nat → Option ZonePlaces
  | 0, lo, hi => if lo < hi then none else some ⟨.gap lo, .gap lo⟩
  | rounds + 1, lo, hi =>
    if lo < hi then
      let mid := lo + (hi - lo) / 2
      match slots[mid]? with
      | none => none
      | some slot =>
        match slot.isAbsent, policy.compare wanted (name slot) with
        | true, .eq =>
          (searchSlice? policy slots false wanted lo mid).map fun present => ⟨present, .found mid⟩
        | false, .eq =>
          (searchSlice? policy slots true wanted (mid + 1) hi).map fun absent =>
            ⟨.found mid, absent⟩
        | false, .lt | true, .gt =>
          (searchSlice? policy slots false wanted lo mid).bind fun present =>
            (searchSlice? policy slots true wanted (mid + 1) hi).map fun absent =>
              ⟨present, absent⟩
        | false, .gt => descendWithin policy slots wanted rounds (mid + 1) hi
        | true, .lt => descendWithin policy slots wanted rounds lo mid
    else some ⟨.gap lo, .gap lo⟩

/-- The search in both zones with a number of rounds that its descent may take. -/
def searchWithin (policy : CasePolicy) (slots : Zones ν) (wanted : String) (rounds : Nat) :
    Option ZonePlaces :=
  match slots[0]?, slots.back? with
  | some first, some last =>
    if first.isAbsent = last.isAbsent then
      (searchSlice? policy slots first.isAbsent wanted 0 slots.size).map fun place =>
        if first.isAbsent then ⟨.gap 0, place⟩ else ⟨place, .gap slots.size⟩
    else descendWithin policy slots wanted rounds 0 slots.size
  | _, _ => some ⟨.gap 0, .gap 0⟩

section Within

variable {policy : CasePolicy} {slots : Zones ν} {wanted : String} {lo hi : Nat}

/-- In a slice that the array has, a zone is searched as it is in the array. -/
theorem searchSlice?_eq (absentZone : Bool) (hlo : lo ≤ hi) (hhi : hi ≤ slots.size) :
    searchSlice? policy slots absentZone wanted lo hi =
      some (searchZone policy slots absentZone wanted lo hi) := by
  have hsize : (slots.extract lo hi).size = hi - lo := by
    rw [Array.size_extract, Nat.min_eq_left hhi]
  have hprobe : ∀ i, 0 ≤ i → i < hi - lo →
      ((slots.extract lo hi)[i]?.map (side policy absentZone wanted)).getD .gt =
        (slots[lo + i]?.map (side policy absentZone wanted)).getD .gt := by
    intro i _ hi'
    rw [Array.getElem?_extract, Nat.min_eq_left hhi, if_pos hi']
  rw [searchSlice?, slice?, if_pos ⟨hlo, hhi⟩, Option.map_some, searchZone, hsize,
    bisect_congr hprobe,
    bisect_shift (fun i => (slots[i]?.map (side policy absentZone wanted)).getD .gt), searchZone,
    Nat.add_zero, Nat.add_sub_cancel' hlo]

/-- Each round leaves at most half of the range, so there are enough rounds if the range is
shorter than two to their number. -/
theorem descendWithin_eq {rounds : Nat} (hhi : hi ≤ slots.size)
    (hrounds : hi - lo < 2 ^ rounds) :
    descendWithin policy slots wanted rounds lo hi = some (descend policy slots wanted lo hi) := by
  induction rounds generalizing lo hi with
  | zero =>
    have hlh : ¬ lo < hi := by omega
    rw [descendWithin, descend, if_neg hlh, if_neg hlh]
  | succ rounds ih =>
    rw [descendWithin, descend]
    by_cases hlh : lo < hi
    · obtain ⟨slot, hslot⟩ : ∃ slot, slots[lo + (hi - lo) / 2]? = some slot :=
        ⟨_, Array.getElem?_eq_getElem (by omega)⟩
      have hpow : 2 ^ (rounds + 1) = 2 * 2 ^ rounds := by rw [Nat.pow_succ, Nat.mul_comm]
      have hpresent : searchSlice? policy slots false wanted lo (lo + (hi - lo) / 2) = some _ :=
        searchSlice?_eq false (by omega) (by omega)
      have habsent : searchSlice? policy slots true wanted (lo + (hi - lo) / 2 + 1) hi = some _ :=
        searchSlice?_eq true (by omega) hhi
      have hright : descendWithin policy slots wanted rounds (lo + (hi - lo) / 2 + 1) hi = some _ :=
        ih hhi (by omega)
      have hleft : descendWithin policy slots wanted rounds lo (lo + (hi - lo) / 2) = some _ :=
        ih (by omega) (by omega)
      simp only [if_pos hlh, hslot]
      cases slot.isAbsent <;> cases policy.compare wanted (name slot) <;>
        simp only [hpresent, habsent, hright, hleft, Option.map_some, Option.bind_some]
    · rw [if_neg hlh, if_neg hlh]

/-- The search needs no slot and no slice that the array does not have, and no more rounds than
the size has binary digits, whatever the array holds. -/
theorem searchWithin_eq {rounds : Nat} (hrounds : slots.size < 2 ^ rounds) :
    searchWithin policy slots wanted rounds = some (search policy slots wanted) := by
  rw [searchWithin, search]
  cases slots[0]? with
  | none => rfl
  | some first =>
    cases slots.back? with
    | none => rfl
    | some last =>
      have hzone : searchSlice? policy slots first.isAbsent wanted 0 slots.size = some _ :=
        searchSlice?_eq _ (Nat.zero_le _) (Nat.le_refl _)
      have hdescend : descendWithin policy slots wanted rounds 0 slots.size = some _ :=
        descendWithin_eq (Nat.le_refl _) (Nat.lt_of_le_of_lt (Nat.sub_le _ _) hrounds)
      simp only [hzone, hdescend, Option.map_some]
      split <;> rfl

end Within

/-! ### A look through one zone -/

/-- The slot at a position has the name. -/
def HasName (policy : CasePolicy) (slots : Zones ν) (wanted : String) (i : Nat) : Prop :=
  ∃ slot, slots[i]? = some slot ∧ policy.same (name slot) wanted = true

/-- The place of a name among the positions from `lo` up to but not including `hi`: the only one
that has the name or, if there is none, the one behind as many slots as come before the name. -/
def Locates (policy : CasePolicy) (slots : Zones ν) (wanted : String) (lo hi : Nat) :
    Place → Prop
  | .found i =>
    (lo ≤ i ∧ i < hi ∧ HasName policy slots wanted i) ∧
      ∀ j, lo ≤ j → j < hi → HasName policy slots wanted j → j = i
  | .gap i =>
    (∀ j, lo ≤ j → j < hi → ¬ HasName policy slots wanted j) ∧
      i = lo + (slots.extract lo hi).countP fun slot =>
        policy.compare (name slot) wanted = .lt

/-- A name has only one place. -/
theorem Locates.eq {policy : CasePolicy} {slots : Zones ν} {wanted : String} {lo hi : Nat}
    {p q : Place} (hp : Locates policy slots wanted lo hi p)
    (hq : Locates policy slots wanted lo hi q) : p = q := by
  cases p with
  | found i =>
    obtain ⟨⟨hlo, hhi, hi⟩, hunique⟩ := hp
    cases q with
    | found j => rw [hunique j hq.1.1 hq.1.2.1 hq.1.2.2]
    | gap j => exact absurd hi (hq.1 i hlo hhi)
  | gap i =>
    cases q with
    | found j => exact absurd hq.1.2.2 (hp.1 j hq.1.1 hq.1.2.1)
    | gap j => rw [hp.2, hq.2]

section Parts

variable {policy : CasePolicy} {wanted : String}

/-- How many elements come before a name depends on their names alone. -/
theorem countP_name {α : Type} [Named α] (xs : List α) :
    xs.countP (fun x => policy.compare (name x) wanted = .lt) =
      (xs.map name).countP fun s => policy.compare s wanted = .lt :=
  List.countP_map (p := fun s => decide (policy.compare s wanted = .lt)) ▸ rfl

/-- As many elements of a list come before the name as stand in front of its cut. -/
theorem countP_whole {α : Type} [Named α] (c : Cut policy wanted α) :
    c.whole.countP (fun x => policy.compare (name x) wanted = .lt) = c.front.length := by
  have hfront : c.front.countP (fun x => policy.compare (name x) wanted = .lt) =
      c.front.length :=
    List.countP_eq_length.mpr fun x hx => decide_eq_true (c.front_before x hx)
  have hhit : c.hit.toList.countP (fun x => policy.compare (name x) wanted = .lt) = 0 := by
    refine List.countP_eq_zero.mpr fun x hx => ?_
    rw [CasePolicy.compare_eq_iff.mpr (c.hit_key x (Option.mem_toList.mp hx))]
    decide
  have hback : c.back.countP (fun x => policy.compare (name x) wanted = .lt) = 0 := by
    refine List.countP_eq_zero.mpr fun x hx => ?_
    rw [CasePolicy.compare_gt_iff.mpr (c.back_behind x hx)]
    decide
  rw [Cut.whole, List.countP_append, List.countP_append, hfront, hhit, hback]
  rfl

/-- Where the slots of a range have the names of a list, the place of the cut of that list is the
place of the name in the range. -/
theorem locates_of_names {α : Type} [Named α] (c : Cut policy wanted α) {slots : Zones ν}
    {base hi : Nat} (hhi : hi = base + c.whole.length) (hsize : hi ≤ slots.size)
    (hnames : (slots.extract base hi).toList.map name = c.whole.map name) :
    Locates policy slots wanted base hi (c.place base) := by
  have hlen := c.front_length_le
  -- a position of the range holds a name of the list
  have hname : ∀ i, HasName policy slots wanted (base + i) → i < c.whole.length →
      i = c.front.length ∧ c.hit.isSome = true := by
    rintro i ⟨slot, hslot, hsame⟩ hi'
    have hget := congrArg (fun names => names[i]?) hnames
    simp only [List.getElem?_map, Array.getElem?_toList] at hget
    rw [Array.getElem?_extract, if_pos (by omega), hslot,
      List.getElem?_eq_getElem hi', Option.map_some, Option.map_some, Option.some.injEq] at hget
    have hpos := c.position (List.getElem?_eq_getElem hi')
    rw [← hget, CasePolicy.compare_eq_iff.mpr (CasePolicy.same_iff.mp hsame).symm] at hpos
    simpa using hpos
  cases hhit : c.hit with
  | some x =>
    have hfront := c.front_length_lt (by rw [hhit]; rfl)
    have hget := congrArg (fun names => names[c.front.length]?) hnames
    simp only [List.getElem?_map, Array.getElem?_toList] at hget
    rw [Array.getElem?_extract, if_pos (by omega), c.getElem?_hit hhit, Option.map_some,
      Option.map_eq_some_iff] at hget
    obtain ⟨slot, hslot, hslotname⟩ := hget
    rw [c.place_of_isSome (by rw [hhit]; rfl) rfl]
    refine ⟨⟨by omega, by omega, slot, hslot, ?_⟩, fun j hlo hj hjname => ?_⟩
    · rw [CasePolicy.same_iff, hslotname]
      exact c.hit_key x hhit
    · obtain ⟨i, rfl⟩ := Nat.exists_eq_add_of_le hlo
      rw [(hname i hjname (by omega)).1]
  | none =>
    rw [c.place_of_eq_none hhit rfl]
    refine ⟨fun j hlo hj hjname => ?_, ?_⟩
    · obtain ⟨i, rfl⟩ := Nat.exists_eq_add_of_le hlo
      have := (hname i hjname (by omega)).2
      rw [hhit] at this
      cases this
    · rw [← Array.countP_toList, countP_name, hnames, ← countP_name, countP_whole]

/-- In the array of two lists, the place of the cut of either is the place of the name in its
zone. -/
theorem locates_ofParts (cp : Cut policy wanted ν) (ca : Cut policy wanted String) :
    Locates policy (ofParts cp.whole ca.whole) wanted 0 cp.whole.length (cp.place 0) ∧
      Locates policy (ofParts cp.whole ca.whole) wanted cp.whole.length
        (ofParts cp.whole ca.whole).size (ca.place cp.whole.length) := by
  constructor
  · refine locates_of_names cp (Nat.zero_add _).symm (by simp) ?_
    rw [Array.toList_extract, toList_ofParts, List.extract_eq_take_drop]
    simp [List.take_left', Function.comp_def]
  · refine locates_of_names ca (size_ofParts _ _) (Nat.le_refl _) ?_
    rw [Array.toList_extract, toList_ofParts, List.extract_eq_take_drop]
    have hnames : ca.whole.map name = ca.whole := List.map_id _
    simp [List.drop_left', Function.comp_def, hnames]

end Parts

/-! ### Both zones -/

/-- In an array of two ascending zones, which may share names, the search finds the place of a
name in either zone: among the positions in front of the boundary, of which there are as many as
children, and among those behind it. In either zone that is what the search of this zone alone
finds. The search looks at no slot and takes no slice that the array does not have, and its
descent takes no more rounds than the size has binary digits. -/
theorem search_locates (policy : CasePolicy) (slots : Zones ν) (h : Layered policy slots)
    (wanted : String) :
    slots.boundary = slots.countP (fun slot => !slot.isAbsent) ∧
      Locates policy slots wanted 0 slots.boundary (search policy slots wanted).present ∧
      Locates policy slots wanted slots.boundary slots.size (search policy slots wanted).absent ∧
      searchSlice? policy slots false wanted 0 slots.boundary =
        some (search policy slots wanted).present ∧
      searchSlice? policy slots true wanted slots.boundary slots.size =
        some (search policy slots wanted).absent ∧
      ∀ rounds, slots.size < 2 ^ rounds →
        searchWithin policy slots wanted rounds = some (search policy slots wanted) := by
  obtain ⟨ps, as, rfl, hps, has⟩ := h.exists_parts
  obtain ⟨cp, rfl⟩ := hps.exists_cut wanted
  obtain ⟨ca, rfl⟩ := has.exists_cut wanted
  have hcp := cp.front_length_le
  have hca := ca.front_length_le
  rw [search_ofParts, boundary_ofParts, countP_ofParts]
  refine ⟨rfl, (locates_ofParts cp ca).1, (locates_ofParts cp ca).2, ?_, ?_,
    fun rounds hrounds => ?_⟩
  · rw [searchSlice?_eq false (Nat.zero_le _) (by simp),
      searchZone_present cp _ _ (Nat.zero_le _) (by omega) cp.front_length_lt]
  · rw [searchSlice?_eq true (by simp) (Nat.le_refl _),
      searchZone_absent ca _ _ _ (by omega) (by simp; omega)
        (fun hhit => by have := ca.front_length_lt hhit; simp; omega)]
  · rw [searchWithin_eq hrounds, search_ofParts]

/-- Two children and two absent names, one of which is the name of a child written in another
case. That name has a place in either zone, and a name between them has none in either. -/
theorem search_locates_shared :
    Layered .insensitive (ofParts ["b", "d"] ["a", "B"]) ∧
      Locates .insensitive (ofParts ["b", "d"] ["a", "B"]) "b" 2 4 (.found 3) ∧
      search .insensitive (ofParts ["b", "d"] ["a", "B"]) "c" = ⟨.gap 1, .gap 4⟩ := by
  have hlayered : Layered .insensitive (ofParts ["b", "d"] ["a", "B"]) :=
    layered_ofParts (by simp [Ascending, CasePolicy.Before]; decide)
      (by simp [Ascending, CasePolicy.Before]; decide)
  obtain ⟨-, -, habsent, -⟩ := search_locates .insensitive _ hlayered "b"
  have hb : (ofParts ["b", "d"] ["a", "B"]).boundary = 2 := boundary_ofParts
  have hs : search .insensitive (ofParts ["b", "d"] ["a", "B"]) "b" = ⟨.found 0, .found 3⟩ := by
    decide +kernel
  rw [hb, hs] at habsent
  exact ⟨hlayered, habsent, by decide +kernel⟩

end Zones

end LazyTree
