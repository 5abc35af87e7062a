import LazyTree.Proofs.Bisection
import LazyTree.Proofs.Cut

set_option autoImplicit false

/-!
# Correctness of the search in two zones

An array is put together from the children that are present and the names that are absent. If
either zone is in ascending order, then the common descent ends in both zones where a search of
that zone alone would end: at the cut of the zone at the wanted name.

## Main definitions

* `LazyTree.Zones.ofParts` — the array of some children and some absent names.

## Main results

* `LazyTree.Zones.boundary_ofParts` — the boundary is found.
* `LazyTree.Zones.search_ofParts` — the search finds the cuts of both zones.
* `LazyTree.Zones.insertAt_present`, `LazyTree.Zones.insertAt_absent`,
  `LazyTree.Zones.eraseAt_present`, `LazyTree.Zones.eraseAt_absent` — what changes at a cut do.
-/

namespace LazyTree

/-! ### Slots -/

namespace Slot

variable {ν : Type} (n : ν) (s : String)

@[simp] theorem isAbsent_present : (present n).isAbsent = false := rfl

@[simp] theorem isAbsent_absent : (absent s : Slot ν).isAbsent = true := rfl

@[simp] theorem child?_present : (present n).child? = some n := rfl

@[simp] theorem child?_absent : (absent s : Slot ν).child? = none := rfl

@[simp] theorem absentName?_present : (present n).absentName? = none := rfl

@[simp] theorem absentName?_absent : (absent s : Slot ν).absentName? = some s := rfl

variable [Named ν]

@[simp] theorem name_present : name (present n) = name n := rfl

@[simp] theorem name_absent : name (absent s : Slot ν) = s := rfl

end Slot

/-- A text is its own name. -/
@[simp] theorem name_string (s : String) : name s = s := rfl

namespace Zones

variable {ν : Type}

/-! ### Arrays put together from two lists -/

/-- The array of some children and some absent names. -/
def ofParts (children : List ν) (absents : List String) : Zones ν :=
  (children.map Slot.present ++ absents.map Slot.absent).toArray

section Parts

variable (ps : List ν) (as : List String)

/-- The array of some children alone. -/
theorem toArray_present : (ps.map Slot.present).toArray = ofParts ps [] := by
  simp [ofParts]

/-- The slots of an array are its children and then its absent names. -/
@[simp] theorem toList_ofParts :
    (ofParts ps as).toList = ps.map Slot.present ++ as.map Slot.absent :=
  rfl

/-- An array has as many slots as it has children and absent names. -/
@[simp] theorem size_ofParts : (ofParts ps as).size = ps.length + as.length := by
  simp [ofParts]

variable {ps as}

/-- In front of the boundary there are children. -/
theorem getElem?_ofParts_left {i : Nat} (h : i < ps.length) :
    (ofParts ps as)[i]? = ps[i]?.map Slot.present := by
  rw [← Array.getElem?_toList, toList_ofParts, List.getElem?_append_left (by simpa using h),
    List.getElem?_map]

/-- From the boundary on there are absent names. -/
theorem getElem?_ofParts_right {i : Nat} (h : ps.length ≤ i) :
    (ofParts ps as)[i]? = as[i - ps.length]?.map Slot.absent := by
  rw [← Array.getElem?_toList, toList_ofParts, List.getElem?_append_right (by simpa using h),
    List.getElem?_map, List.length_map]

/-- The children of an array. -/
@[simp] theorem present_mem_ofParts {n : ν} : Slot.present n ∈ ofParts ps as ↔ n ∈ ps := by
  simp [← Array.mem_toList_iff]

/-- The absent names of an array. -/
@[simp] theorem absent_mem_ofParts {s : String} :
    (Slot.absent s : Slot ν) ∈ ofParts ps as ↔ s ∈ as := by
  simp [← Array.mem_toList_iff]

/-- The boundary lies behind the children. -/
theorem boundary_ofParts : boundary (ofParts ps as) = ps.length := by
  have hlt : ∀ i, i < ps.length →
      (if ((ofParts ps as)[i]?.map Slot.isAbsent).getD false then Ordering.gt else .lt) = .lt := by
    intro i hi
    rw [getElem?_ofParts_left hi, List.getElem?_eq_getElem hi]
    rfl
  have hgt : ∀ i, ps.length ≤ i → i < ps.length + as.length →
      (if ((ofParts ps as)[i]?.map Slot.isAbsent).getD false then Ordering.gt else .lt) = .gt := by
    intro i hi hlen
    rw [getElem?_ofParts_right hi, List.getElem?_eq_getElem (by omega)]
    rfl
  rw [boundary, size_ofParts, bisect_gap (Nat.zero_le _) (by omega) (fun i _ => hlt i) hgt]
  rfl

/-- The slots of an array that are not absent are its children. -/
theorem countP_ofParts (ps : List ν) (as : List String) :
    (ofParts ps as).countP (fun slot => !slot.isAbsent) = ps.length := by
  have hps : (ps.map Slot.present).countP (fun slot => !slot.isAbsent) = ps.length := by
    rw [List.countP_map]
    exact List.countP_eq_length.mpr fun _ _ => rfl
  have has : (as.map (Slot.absent (ν := ν))).countP (fun slot => !slot.isAbsent) = 0 := by
    rw [List.countP_map]
    exact List.countP_eq_zero.mpr fun _ _ => Bool.false_ne_true
  rw [← Array.countP_toList, toList_ofParts, List.countP_append, hps, has, Nat.add_zero]

/-- The children in front of the boundary are all children. -/
theorem children_ofParts : children (ofParts ps as) = ps := by
  rw [children, boundary_ofParts, toList_ofParts, List.take_left' (by simp)]
  induction ps with
  | nil => rfl
  | cons p ps ih => simpa [Slot.child?] using ih

/-- The absent names from the boundary on are all absent names. -/
theorem absentNames_ofParts : absentNames (ofParts ps as) = as := by
  rw [absentNames, boundary_ofParts, toList_ofParts, List.drop_left' (by simp)]
  induction as with
  | nil => rfl
  | cons a as ih => simpa [Slot.absentName?] using ih

/-- The slots in front of the boundary are the array of the children alone. -/
theorem take_boundary_ofParts :
    (ofParts ps as).take (boundary (ofParts ps as)) = ofParts ps [] := by
  apply Array.toList_inj.mp
  rw [boundary_ofParts]
  simp [List.take_left']

/-- The first absent name stands behind the children. -/
theorem findIdx_isAbsent_parts (ps : List ν) (as : List String) :
    (ps.map Slot.present ++ as.map Slot.absent).findIdx Slot.isAbsent = ps.length := by
  induction ps with
  | nil => cases as <;> simp [List.findIdx_cons]
  | cons p ps ih => simpa [List.findIdx_cons] using ih

/-- If only absent names follow absent names, a list of slots consists of its children and then
its absent names. -/
theorem eq_parts_of_pairwise {l : List (Slot ν)}
    (h : l.Pairwise fun a b => a.isAbsent = true → b.isAbsent = true) :
    l = (l.filterMap Slot.child?).map Slot.present ++
      (l.filterMap Slot.absentName?).map Slot.absent := by
  induction l with
  | nil => rfl
  | cons slot l ih =>
    obtain ⟨hslot, hl⟩ := List.pairwise_cons.mp h
    cases slot with
    | present p => simpa [List.filterMap_cons] using ih hl
    | absent s =>
      have hnone : l.filterMap Slot.child? = [] := by
        refine List.filterMap_eq_nil_iff.mpr fun b hb => ?_
        cases b with
        | present p => cases hslot _ hb rfl
        | absent s => rfl
      have ih := ih hl
      rw [hnone] at ih
      simpa [List.filterMap_cons, hnone] using ih

end Parts

/-! ### Searching -/

variable {policy : CasePolicy} {wanted : String}

section Search

variable [Named ν] (cp : Cut policy wanted ν) (ca : Cut policy wanted String)

/-- The probe of the present zone points to the cut of the children. -/
theorem searchZone_present (lo hi : Nat) (hlo : lo ≤ cp.front.length)
    (hhi : cp.front.length ≤ hi) (hhit : cp.hit.isSome = true → cp.front.length < hi)
    (as : List String) :
    searchZone policy (ofParts cp.whole as) false wanted lo hi = cp.place 0 := by
  have hlen := cp.front_length_le
  rw [searchZone, Cut.place, Nat.zero_add]
  refine bisect_eq hlo hhi ?_ ?_ ?_
  · intro i hi
    have hx := List.getElem?_eq_getElem (show i < cp.whole.length by omega)
    rw [getElem?_ofParts_left (by omega), hx]
    exact cp.compare_front hi hx
  · intro h
    obtain ⟨x, hx⟩ := Option.isSome_iff_exists.mp h
    refine ⟨hhit h, ?_⟩
    rw [getElem?_ofParts_left (cp.front_length_lt h), cp.getElem?_hit hx]
    exact CasePolicy.compare_eq_iff.mpr (cp.hit_key x hx)
  · intro i hi hne
    rcases Nat.lt_or_ge i cp.whole.length with h | h
    · have hx := List.getElem?_eq_getElem h
      rw [getElem?_ofParts_left h, hx]
      exact cp.compare_back hi hne hx
    · rw [getElem?_ofParts_right h]
      cases as[i - cp.whole.length]? <;> rfl

/-- The probe of the absent zone points to the cut of the absent names. -/
theorem searchZone_absent (lo hi : Nat) (ps : List ν) (hlo : lo ≤ ps.length + ca.front.length)
    (hhi : ps.length + ca.front.length ≤ hi)
    (hhit : ca.hit.isSome = true → ps.length + ca.front.length < hi) :
    searchZone policy (ofParts ps ca.whole) true wanted lo hi = ca.place ps.length := by
  have hlen := ca.front_length_le
  rw [searchZone, Cut.place]
  refine bisect_eq hlo hhi ?_ ?_ ?_
  · intro i hi
    rcases Nat.lt_or_ge i ps.length with h | h
    · rw [getElem?_ofParts_left h, List.getElem?_eq_getElem h]
      rfl
    · have hx := List.getElem?_eq_getElem (show i - ps.length < ca.whole.length by omega)
      rw [getElem?_ofParts_right h, hx]
      exact ca.compare_front (by omega) hx
  · intro h
    obtain ⟨x, hx⟩ := Option.isSome_iff_exists.mp h
    refine ⟨hhit h, ?_⟩
    rw [getElem?_ofParts_right (by omega), Nat.add_sub_cancel_left, ca.getElem?_hit hx]
    exact CasePolicy.compare_eq_iff.mpr (ca.hit_key x hx)
  · intro i hi hne
    rw [getElem?_ofParts_right (by omega)]
    cases hx : ca.whole[i - ps.length]? with
    | none => rfl
    | some x =>
      refine ca.compare_back (by omega) (fun h => ?_) hx
      have := hne h
      omega

/-- A slot of a child stands in front of the boundary, on the side of the cut that its name
tells. -/
theorem position_of_present {i : Nat} {slot : Slot ν} {as : List String}
    (hslot : (ofParts cp.whole as)[i]? = some slot) (habs : slot.isAbsent = false) :
    i < cp.whole.length ∧
      ((i < cp.front.length ∧ policy.compare wanted (name slot) = .gt) ∨
        (i = cp.front.length ∧ cp.hit.isSome = true ∧ policy.compare wanted (name slot) = .eq) ∨
        (cp.front.length + cp.hit.toList.length ≤ i ∧
          policy.compare wanted (name slot) = .lt)) := by
  rcases Nat.lt_or_ge i cp.whole.length with hi | hi
  · rw [getElem?_ofParts_left hi, Option.map_eq_some_iff] at hslot
    obtain ⟨x, hx, rfl⟩ := hslot
    exact ⟨hi, cp.position hx⟩
  · rw [getElem?_ofParts_right hi, Option.map_eq_some_iff] at hslot
    obtain ⟨x, _, rfl⟩ := hslot
    cases habs

/-- A slot of an absent name stands behind the boundary, on the side of the cut that its name
tells. -/
theorem position_of_absent {i : Nat} {slot : Slot ν} {ps : List ν}
    (hslot : (ofParts ps ca.whole)[i]? = some slot) (habs : slot.isAbsent = true) :
    ps.length ≤ i ∧
      ((i < ps.length + ca.front.length ∧ policy.compare wanted (name slot) = .gt) ∨
        (i = ps.length + ca.front.length ∧ ca.hit.isSome = true ∧
          policy.compare wanted (name slot) = .eq) ∨
        (ps.length + ca.front.length + ca.hit.toList.length ≤ i ∧
          policy.compare wanted (name slot) = .lt)) := by
  rcases Nat.lt_or_ge i ps.length with hi | hi
  · rw [getElem?_ofParts_left hi, Option.map_eq_some_iff] at hslot
    obtain ⟨x, _, rfl⟩ := hslot
    cases habs
  · rw [getElem?_ofParts_right hi, Option.map_eq_some_iff] at hslot
    obtain ⟨x, hx, rfl⟩ := hslot
    refine ⟨hi, ?_⟩
    rcases ca.position hx with ⟨h, hc⟩ | ⟨h, hhit, hc⟩ | ⟨h, hc⟩
    · exact .inl ⟨by omega, hc⟩
    · exact .inr (.inl ⟨by omega, hhit, hc⟩)
    · exact .inr (.inr ⟨by omega, hc⟩)

/-- The common descent ends at both cuts.

**Proof sketch.** The range `lo..hi` always contains both cuts. A probe that keeps the descent
going moves the end of the range on its side past the probed slot, and that slot lies on the same
side of both cuts. When the range is empty both cuts are at its place, and neither has a hit.
When a probe tells the cuts apart, each lies in the part of the range where it is then searched. -/
theorem descend_ofParts (lo hi : Nat) (hlo : lo ≤ cp.front.length)
    (hhi : cp.whole.length + ca.front.length ≤ hi)
    (hhit : ca.hit.isSome = true → cp.whole.length + ca.front.length < hi)
    (hsize : hi ≤ (ofParts cp.whole ca.whole).size) :
    descend policy (ofParts cp.whole ca.whole) wanted lo hi =
      ⟨cp.place 0, ca.place cp.whole.length⟩ := by
  have hp := cp.front_length_le
  have ha := ca.front_length_le
  have hph : cp.hit.isSome = true → cp.hit.toList.length = 1 :=
    Option.length_toList_eq_one_iff.mpr
  have hah : ca.hit.isSome = true → ca.hit.toList.length = 1 :=
    Option.length_toList_eq_one_iff.mpr
  fun_induction descend policy (ofParts cp.whole ca.whole) wanted lo hi with
  | case1 lo hi hlh mid hnone =>
    have hm : mid = lo + (hi - lo) / 2 := rfl
    rw [Array.getElem?_eq_none_iff] at hnone
    omega
  | case2 lo hi hlh mid slot hslot hcmp habs =>
    obtain ⟨hmid, hpos⟩ := position_of_absent ca hslot habs
    rw [hcmp] at hpos
    obtain ⟨hpos, hhit'⟩ := by simpa using hpos
    rw [ca.place_of_isSome hhit' (i := mid) (by omega),
      searchZone_present cp _ _ hlo (by omega) fun h => by have := hph h; omega]
  | case3 lo hi hlh mid slot hslot hcmp habs =>
    obtain ⟨hmid, hpos⟩ := position_of_present cp hslot habs
    rw [hcmp] at hpos
    obtain ⟨hpos, hhit'⟩ := by simpa using hpos
    rw [cp.place_of_isSome hhit' (i := mid) (by omega),
      searchZone_absent ca _ _ _ (by omega) hhi hhit]
  | case4 lo hi hlh mid slot hslot hcmp habs =>
    obtain ⟨hmid, hpos⟩ := position_of_present cp hslot habs
    rw [hcmp] at hpos
    have hpos := by simpa using hpos
    rw [searchZone_present cp _ _ hlo (by omega) fun h => by have := hph h; omega,
      searchZone_absent ca _ _ _ (by omega) hhi hhit]
  | case5 lo hi hlh mid slot hslot hcmp habs =>
    obtain ⟨hmid, hpos⟩ := position_of_absent ca hslot habs
    rw [hcmp] at hpos
    have hpos := by simpa using hpos
    rw [searchZone_present cp _ _ hlo (by omega) fun h => by have := hph h; omega,
      searchZone_absent ca _ _ _ (by omega) hhi hhit]
  | case6 lo hi hlh mid slot hslot hcmp habs ih =>
    obtain ⟨hmid, hpos⟩ := position_of_present cp hslot habs
    rw [hcmp] at hpos
    have hpos := by simpa using hpos
    exact ih (by omega) hhi hhit hsize
  | case7 lo hi hlh mid slot hslot hcmp habs ih =>
    obtain ⟨hmid, hpos⟩ := position_of_absent ca hslot habs
    rw [hcmp] at hpos
    have hpos := by simpa using hpos
    exact ih hlo (by omega) (fun h => by have := hah h; omega) (by omega)
  | case8 lo hi hlh =>
    have hpn : cp.hit = none := by
      refine Option.not_isSome_iff_eq_none.mp fun h => ?_
      have := hph h
      omega
    have han : ca.hit = none := by
      refine Option.not_isSome_iff_eq_none.mp fun h => ?_
      have := hhit h
      omega
    rw [cp.place_of_eq_none hpn (i := lo) (by omega), ca.place_of_eq_none han (i := lo) (by omega)]

/-- A cut of nothing is empty and at the start. -/
theorem place_of_whole_eq_nil {α : Type} [Named α] {c : Cut policy wanted α} (h : c.whole = [])
    (base : Nat) : c.place base = .gap base := by
  have hlen := c.front_length_le
  rw [h] at hlen
  have hhit : c.hit = none := by
    cases hc : c.hit with
    | none => rfl
    | some x => simp [hc] at hlen
  refine c.place_of_eq_none hhit ?_
  rw [List.length_nil] at hlen
  omega

/-- The search finds the cuts of both zones.

**Proof sketch.** If one zone is empty, the array has a single kind of slots, the search of the
other zone covers all of it, and the empty zone reports its natural end, where its cut is. If both
zones have slots, the first and the last slot tell so, and the descent covers the whole array. -/
theorem search_ofParts : search policy (ofParts cp.whole ca.whole) wanted =
    ⟨cp.place 0, ca.place cp.whole.length⟩ := by
  have hp := cp.front_length_le
  have ha := ca.front_length_le
  have hback : (ofParts cp.whole ca.whole).back? =
      (ca.whole.getLast?.map Slot.absent).or (cp.whole.getLast?.map Slot.present) := by
    simp [ofParts, List.getLast?_append]
  rcases hps : cp.whole with _ | ⟨p, ps⟩ <;> rcases has : ca.whole with _ | ⟨a, as⟩
  · rw [place_of_whole_eq_nil hps, place_of_whole_eq_nil has]
    rfl
  · -- only absent names
    rw [hps, has] at hback
    have hfirst : (ofParts ([] : List ν) (a :: as))[0]? = some (.absent a) := rfl
    have hzone := searchZone_absent ca 0 ca.whole.length ([] : List ν) (Nat.zero_le _)
      (by simp; omega) (by simpa using ca.front_length_lt)
    rw [has] at hzone
    rw [search, hfirst, hback, place_of_whole_eq_nil hps]
    simpa [List.getLast?_cons, Slot.isAbsent] using hzone
  · -- only children
    rw [hps, has] at hback
    have hfirst : (ofParts (p :: ps) [])[0]? = some (.present p) := rfl
    have hzone := searchZone_present cp 0 cp.whole.length (Nat.zero_le _)
      (by omega) cp.front_length_lt []
    rw [hps] at hzone
    rw [search, hfirst, hback, place_of_whole_eq_nil has]
    simpa [List.getLast?_cons, Slot.isAbsent] using hzone
  · -- both zones
    rw [hps, has] at hback
    have hfirst : (ofParts (p :: ps) (a :: as))[0]? = some (.present p) := rfl
    have hdescend := descend_ofParts cp ca 0 (ofParts cp.whole ca.whole).size
      (Nat.zero_le _) (by simp; omega)
      (fun h => by have := ca.front_length_lt h; simp; omega) (Nat.le_refl _)
    rw [hps, has] at hdescend
    rw [search, hfirst, hback]
    simpa [List.getLast?_cons, Slot.isAbsent] using hdescend

end Search

/-! ### Changes at a cut -/

section Edit

variable (ca : Cut policy wanted String)

/-- Inserting where the first of two lists ends puts an element between them. -/
theorem insertIdx_length_append {α : Type} (front back : List α) (x : α) :
    (front ++ back).insertIdx front.length x = front ++ x :: back := by
  induction front with
  | nil => rfl
  | cons y front ih => simpa using ih

/-- Erasing where the first of two lists ends drops the head of the second. -/
theorem eraseIdx_length_append {α : Type} (front back : List α) (x : α) :
    (front ++ x :: back).eraseIdx front.length = front ++ back := by
  rw [List.eraseIdx_append_of_length_le (Nat.le_refl _), Nat.sub_self]
  rfl

/-- Inserting an absent name at an empty cut fills it. -/
theorem insertAt_absent (ps : List ν) (s : String) :
    insertAt (ofParts ps ca.rest) (ps.length + ca.front.length) (.absent s) =
      ofParts ps (ca.fill s) := by
  rw [insertAt, ofParts, List.insertIdxIfInBounds_toArray, ofParts, Cut.rest, Cut.fill]
  have h := insertIdx_length_append (ps.map Slot.present ++ ca.front.map Slot.absent)
    (ca.back.map Slot.absent) (.absent s)
  rw [List.length_append, List.length_map, List.length_map] at h
  simpa using h

/-- Erasing the absent name in a cut empties it. -/
theorem eraseAt_absent {s : String} (h : ca.hit = some s) (ps : List ν) :
    eraseAt (ofParts ps ca.whole) (ps.length + ca.front.length) = ofParts ps ca.rest := by
  apply Array.toList_inj.mp
  rw [eraseAt, Array.toList_eraseIdxIfInBounds, toList_ofParts, toList_ofParts, Cut.rest,
    Cut.whole, h]
  have h := eraseIdx_length_append (ps.map Slot.present ++ ca.front.map Slot.absent)
    (ca.back.map Slot.absent) (.absent s)
  rw [List.length_append, List.length_map, List.length_map] at h
  simpa using h

variable [Named ν] (cp : Cut policy wanted ν)

/-- Inserting a child at an empty cut fills it. -/
theorem insertAt_present (as : List String) (x : ν) :
    insertAt (ofParts cp.rest as) cp.front.length (.present x) = ofParts (cp.fill x) as := by
  rw [insertAt, ofParts, List.insertIdxIfInBounds_toArray, ofParts, Cut.rest, Cut.fill]
  have h := insertIdx_length_append (cp.front.map Slot.present)
    (cp.back.map Slot.present ++ as.map Slot.absent) (.present x)
  rw [List.length_map] at h
  simpa using h

/-- Erasing the child in a cut empties it. -/
theorem eraseAt_present {x : ν} (h : cp.hit = some x) (as : List String) :
    eraseAt (ofParts cp.whole as) cp.front.length = ofParts cp.rest as := by
  apply Array.toList_inj.mp
  rw [eraseAt, Array.toList_eraseIdxIfInBounds, toList_ofParts, toList_ofParts, Cut.rest,
    Cut.whole, h]
  have h := eraseIdx_length_append (cp.front.map Slot.present)
    (cp.back.map Slot.present ++ as.map Slot.absent) (.present x)
  rw [List.length_map] at h
  simpa using h

end Edit

end Zones

end LazyTree
