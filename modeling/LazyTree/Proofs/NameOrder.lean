import LazyTree.Name.Order

set_option autoImplicit false

/-!
# Laws of the order of names

A policy compares names through their keys, and keys are compared like words in a dictionary. So
the order of names inherits the laws of that order, and a name may be replaced by any other with
the same key.

## Main definitions

* `LazyTree.CasePolicy.Before` — a name comes before another.

## Main results

* `LazyTree.CasePolicy.compare_swap`, `LazyTree.CasePolicy.Before.trans` — the order laws.
* `LazyTree.CasePolicy.compare_congr` — names with the same key compare alike.
-/

namespace LazyTree.CasePolicy

/-- The name `a` comes before the name `b`. -/
def Before (policy : CasePolicy) (a b : String) : Prop :=
  policy.compare a b = .lt

variable {policy : CasePolicy} {a b c : String}

/-- Turning a comparison around reverses its outcome. -/
theorem compare_swap (policy : CasePolicy) (a b : String) :
    policy.compare b a = (policy.compare a b).swap := by
  unfold compare
  exact Std.OrientedOrd.eq_swap

/-- A name lies behind another exactly when the other comes before it. -/
theorem compare_gt_iff : policy.compare a b = .gt ↔ policy.Before b a := by
  rw [Before, compare_swap policy a b]
  cases policy.compare a b <;> simp

/-- The order of names is transitive. -/
theorem Before.trans (hab : policy.Before a b) (hbc : policy.Before b c) : policy.Before a c := by
  unfold Before compare at *
  exact Std.TransCmp.lt_trans hab hbc

/-- What comes before a name comes before all that do not come before that name. -/
theorem Before.trans_not_gt (hab : policy.Before a b) (hbc : policy.compare b c ≠ .gt) :
    policy.Before a c := by
  cases hc : policy.compare b c with
  | lt => exact hab.trans hc
  | eq =>
    unfold Before compare at *
    rwa [← Std.LawfulEqOrd.compare_eq_iff_eq.mp hc]
  | gt => exact absurd hc hbc

/-- Not lying behind is transitive. -/
theorem compare_ne_gt_trans (hab : policy.compare a b ≠ .gt) (hbc : policy.compare b c ≠ .gt) :
    policy.compare a c ≠ .gt := by
  intro hac
  exact hbc (compare_gt_iff.mpr ((compare_gt_iff.mp hac).trans_not_gt hab))

/-- No name comes before one with the same key. -/
theorem Before.key_ne (h : policy.Before a b) : policy.key a ≠ policy.key b := by
  intro hkey
  rw [Before, compare_eq_iff.mpr hkey] at h
  cases h

/-- Of two names with different keys, one comes before the other. -/
theorem before_or_before (h : policy.key a ≠ policy.key b) :
    policy.Before a b ∨ policy.Before b a := by
  cases hc : policy.compare a b with
  | lt => exact .inl hc
  | eq => exact absurd (compare_eq_iff.mp hc) h
  | gt => exact .inr (compare_gt_iff.mp hc)

/-- Names with the same keys compare alike. -/
theorem compare_congr {a' b' : String} (ha : policy.key a = policy.key a')
    (hb : policy.key b = policy.key b') : policy.compare a b = policy.compare a' b' := by
  simp only [compare, ha, hb]

/-- Two names name different files exactly when their keys differ. -/
theorem same_eq_false_iff : policy.same a b = false ↔ policy.key a ≠ policy.key b := by
  rw [← Bool.not_eq_true, same_iff]

/-- Names that agree under the sensitive policy agree under every policy. -/
theorem key_eq_of_sensitive (h : CasePolicy.sensitive.key a = CasePolicy.sensitive.key b) :
    policy.key a = policy.key b := by
  obtain rfl : a = b := String.toList_inj.mp h
  rfl

/-- Names that agree under some policy agree when case is folded. -/
theorem insensitive_key_eq (h : policy.key a = policy.key b) :
    CasePolicy.insensitive.key a = CasePolicy.insensitive.key b := by
  cases policy with
  | sensitive => exact key_eq_of_sensitive h
  | insensitive => exact h

end LazyTree.CasePolicy
