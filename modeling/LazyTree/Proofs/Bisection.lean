import LazyTree.Zone.Search

set_option autoImplicit false

/-!
# Correctness of binary search

A probe that says `lt` up to some position, `gt` behind it, and possibly `eq` at it, leads the
search to that position.

## Main definitions

* `LazyTree.Place.shift` — the place in an array of a place in one of its slices.

## Main results

* `LazyTree.bisect_found` — the search ends at the position where the probe says `eq`.
* `LazyTree.bisect_gap` — without one, it ends where `lt` changes to `gt`.
* `LazyTree.bisect_eq` — both cases in one.
* `LazyTree.bisect_congr`, `LazyTree.bisect_shift` — a search looks at its range only, and may
  count the positions from anywhere.
-/

namespace LazyTree

variable {probe : Nat → Ordering} {lo hi m : Nat}

/-- The search ends at the position where the probe says `eq`. -/
theorem bisect_found (hlo : lo ≤ m) (hhi : m < hi) (hlt : ∀ i, lo ≤ i → i < m → probe i = .lt)
    (heq : probe m = .eq) (hgt : ∀ i, m < i → i < hi → probe i = .gt) :
    bisect probe lo hi = .found m := by
  fun_induction bisect probe lo hi with
  | case1 lo hi hlh mid hmid =>
    have hm : mid = lo + (hi - lo) / 2 := rfl
    rcases Nat.lt_trichotomy mid m with h | h | h
    · rw [hlt mid (by omega) h] at hmid; cases hmid
    · rw [h]
    · rw [hgt mid h (by omega)] at hmid; cases hmid
  | case2 lo hi hlh mid hmid ih =>
    have hm : mid = lo + (hi - lo) / 2 := rfl
    have hlt_m : mid < m := by
      rcases Nat.lt_trichotomy mid m with h | h | h
      · exact h
      · rw [h, heq] at hmid; cases hmid
      · rw [hgt mid h (by omega)] at hmid; cases hmid
    exact ih (by omega) hhi (fun i hi' => hlt i (by omega)) hgt
  | case3 lo hi hlh mid hmid ih =>
    have hm : mid = lo + (hi - lo) / 2 := rfl
    have hm_lt : m < mid := by
      rcases Nat.lt_trichotomy mid m with h | h | h
      · rw [hlt mid (by omega) h] at hmid; cases hmid
      · rw [h, heq] at hmid; cases hmid
      · exact h
    exact ih hlo hm_lt hlt fun i h h' => hgt i h (by omega)
  | case4 lo hi hlh => omega

/-- Without a position that the probe says `eq` of, the search ends where `lt` changes to `gt`. -/
theorem bisect_gap (hlo : lo ≤ m) (hhi : m ≤ hi) (hlt : ∀ i, lo ≤ i → i < m → probe i = .lt)
    (hgt : ∀ i, m ≤ i → i < hi → probe i = .gt) : bisect probe lo hi = .gap m := by
  fun_induction bisect probe lo hi with
  | case1 lo hi hlh mid hmid =>
    have hm : mid = lo + (hi - lo) / 2 := rfl
    rcases Nat.lt_or_ge mid m with h | h
    · rw [hlt mid (by omega) h] at hmid; cases hmid
    · rw [hgt mid h (by omega)] at hmid; cases hmid
  | case2 lo hi hlh mid hmid ih =>
    have hm : mid = lo + (hi - lo) / 2 := rfl
    have hlt_m : mid < m := by
      refine Nat.lt_of_not_le fun h => ?_
      rw [hgt mid h (by omega)] at hmid
      cases hmid
    exact ih (by omega) hhi (fun i hi' => hlt i (by omega)) hgt
  | case3 lo hi hlh mid hmid ih =>
    have hm : mid = lo + (hi - lo) / 2 := rfl
    have hm_le : m ≤ mid := by
      refine Nat.le_of_not_lt fun h => ?_
      rw [hlt mid (by omega) h] at hmid
      cases hmid
    exact ih hlo hm_le hlt fun i h h' => hgt i h (by omega)
  | case4 lo hi hlh =>
    obtain rfl : lo = m := by omega
    rfl

/-- The search ends where `lt` changes to `gt`, and says whether the probe says `eq` there. -/
theorem bisect_eq {hit : Bool} (hlo : lo ≤ m) (hhi : m ≤ hi) (hlt : ∀ i, i < m → probe i = .lt)
    (heq : hit = true → m < hi ∧ probe m = .eq)
    (hgt : ∀ i, m ≤ i → (hit = true → i ≠ m) → probe i = .gt) :
    bisect probe lo hi = if hit then .found m else .gap m := by
  cases hit with
  | true =>
    obtain ⟨hm, hpm⟩ := heq rfl
    exact bisect_found hlo hm (fun i _ => hlt i) hpm fun i h _ => hgt i (by omega) (by omega)
  | false => exact bisect_gap hlo hhi (fun i _ => hlt i) fun i h _ => hgt i h (by simp)

/-! ### Binary search in a slice -/

/-- The place in an array of a place in one of its slices. -/
def Place.shift (base : Nat) : Place → Place
  | found i => found (base + i)
  | gap i => gap (base + i)

/-- A search asks its probe about nothing outside of its range. -/
theorem bisect_congr {probe probe' : Nat → Ordering} {lo hi : Nat}
    (h : ∀ i, lo ≤ i → i < hi → probe i = probe' i) :
    bisect probe lo hi = bisect probe' lo hi := by
  fun_induction bisect probe lo hi with
  | case1 lo hi hlh mid hmid =>
    have hm : mid = lo + (hi - lo) / 2 := rfl
    rw [h mid (by omega) (by omega)] at hmid
    rw [bisect, if_pos hlh]
    simp only [← hm, hmid]
  | case2 lo hi hlh mid hmid ih =>
    have hm : mid = lo + (hi - lo) / 2 := rfl
    rw [h mid (by omega) (by omega)] at hmid
    rw [ih fun i hi => h i (by omega), bisect.eq_1 probe' lo, if_pos hlh]
    simp only [← hm, hmid]
  | case3 lo hi hlh mid hmid ih =>
    have hm : mid = lo + (hi - lo) / 2 := rfl
    rw [h mid (by omega) (by omega)] at hmid
    rw [ih fun i hlo hi => h i hlo (by omega), bisect.eq_1 probe' lo hi, if_pos hlh]
    simp only [← hm, hmid]
  | case4 lo hi hlh => rw [bisect, if_neg hlh]

/-- A search may count its positions from anywhere. -/
theorem bisect_shift (probe : Nat → Ordering) (base lo hi : Nat) :
    (bisect (fun i => probe (base + i)) lo hi).shift base =
      bisect probe (base + lo) (base + hi) := by
  fun_induction bisect (fun i => probe (base + i)) lo hi with
  | case1 lo hi hlh mid hmid =>
    have hm : base + lo + (base + hi - (base + lo)) / 2 = base + mid := by omega
    rw [bisect, if_pos (by omega)]
    simp only [hm, hmid]
    rfl
  | case2 lo hi hlh mid hmid ih =>
    have hm : base + lo + (base + hi - (base + lo)) / 2 = base + mid := by omega
    rw [ih, bisect.eq_1 probe (base + lo), if_pos (by omega)]
    simp only [hm, hmid]
    rfl
  | case3 lo hi hlh mid hmid ih =>
    have hm : base + lo + (base + hi - (base + lo)) / 2 = base + mid := by omega
    rw [ih, bisect.eq_1 probe (base + lo) (base + hi), if_pos (by omega)]
    simp only [hm, hmid]
  | case4 lo hi hlh =>
    rw [bisect, if_neg (by omega)]
    rfl

end LazyTree
