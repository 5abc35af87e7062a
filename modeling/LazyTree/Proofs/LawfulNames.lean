import LazyTree.Proofs.Bisection
import LazyTree.Proofs.LetterStreams

set_option autoImplicit false

/-!
# Names as a lawful order

Sorted arrays, merges and searches rely on the order of names alone, and never look at the keys
behind it. So what they need are the laws of that order: turned around it is reversed, it is
transitive, and names that compare equal stand for each other, as what is searched for and as what
is found on the way. The laws hold for names that are compared while they are read, whatever their
characters expand to.

## Main definitions

* `LazyTree.CasePolicy.Orders` — the laws of a comparison of names under both policies.
* `LazyTree.Zones.Alike` — arrays whose slots have the same names in the same zones.

## Main results

* `LazyTree.CasePolicy.orders_compareBy` — reading names orders them.
* `LazyTree.Zones.Alike.search_eq` — equal names stand for each other in a search.
* `LazyTree.CasePolicy.compare_lawful` — both for the order of names that a tree uses.
-/

namespace LazyTree

/-! ### The laws -/

/-- Letters compare as they come in a dictionary. -/
theorem compare_letters_lt_iff {xs ys : List Char} : Ord.compare xs ys = .lt ↔ xs < ys := by
  induction xs generalizing ys with
  | nil => cases ys <;> simp
  | cons x xs ih =>
    cases ys with
    | nil => simp
    | cons y ys =>
      rw [List.compare_cons_cons, Ordering.then_eq_lt, compare_lt_iff_lt, compare_eq_iff_eq, ih,
        List.cons_lt_cons_iff]

/-- A comparison orders names: it is reversed when it is turned around, it is transitive, and names
that it finds equal compare alike with every name. Where case counts only a name itself is equal to
it; with case folded it is the order of a dictionary on the concatenated expansions. -/
structure CasePolicy.Orders (expand : Char → List Char)
    (order : CasePolicy → String → String → Ordering) : Prop where
  /-- Turning a comparison around reverses its outcome. -/
  swap (policy : CasePolicy) (a b : String) : order policy b a = (order policy a b).swap
  /-- Coming before is transitive. -/
  lt_trans {policy : CasePolicy} {a b c : String} (hab : order policy a b = .lt)
    (hbc : order policy b c = .lt) : order policy a c = .lt
  /-- Being equal is transitive. -/
  eq_trans {policy : CasePolicy} {a b c : String} (hab : order policy a b = .eq)
    (hbc : order policy b c = .eq) : order policy a c = .eq
  /-- Equal names compare alike with a third one, from either side. -/
  congr {policy : CasePolicy} {a b : String} (hab : order policy a b = .eq) (c : String) :
    order policy a c = order policy b c ∧ order policy c a = order policy c b
  /-- Equal names stand for each other in a binary search, wherever it looks. -/
  bisect_eq {policy : CasePolicy} {names names' : Nat → String} {wanted wanted' : String}
    {lo hi : Nat} (hnames : ∀ i, lo ≤ i → i < hi → order policy (names i) (names' i) = .eq)
    (hwanted : order policy wanted wanted' = .eq) :
    bisect (fun i => order policy (names i) wanted) lo hi =
      bisect (fun i => order policy (names' i) wanted') lo hi
  /-- Where case counts, names are equal only to themselves. -/
  sensitive_eq_iff {a b : String} : order .sensitive a b = .eq ↔ a = b
  /-- Where case counts, names come in the order of their characters. -/
  sensitive_lt_iff {a b : String} : order .sensitive a b = .lt ↔ a.toList < b.toList
  /-- Names that are equal where case counts are equal where it does not. -/
  insensitive_of_sensitive {a b : String} (hab : order .sensitive a b = .eq) :
    order .insensitive a b = .eq
  /-- With case folded, a name comes before another if its letters do. -/
  insensitive_lt_iff {a b : String} :
    order .insensitive a b = .lt ↔ a.toList.flatMap expand < b.toList.flatMap expand
  /-- With case folded, names are equal if their letters are. -/
  insensitive_eq_iff {a b : String} :
    order .insensitive a b = .eq ↔ a.toList.flatMap expand = b.toList.flatMap expand
  /-- With case folded, a name lies behind another if its letters do. -/
  insensitive_gt_iff {a b : String} :
    order .insensitive a b = .gt ↔ b.toList.flatMap expand < a.toList.flatMap expand

namespace CasePolicy

variable (expand : Char → List Char)

/-- Comparing names while they are read is turned around and chained as comparing keys is. -/
instance transCmp_compareBy (policy : CasePolicy) : Std.TransCmp (policy.compareBy expand) where
  eq_swap := by
    intro a b
    rw [compareBy_eq, compareBy_eq]
    exact Std.OrientedOrd.eq_swap
  isLE_trans := by
    intro a b c hab hbc
    rw [compareBy_eq] at hab hbc ⊢
    exact Std.TransOrd.isLE_trans hab hbc

/-- Names compare equal while they are read exactly if their keys are equal. -/
theorem compareBy_eq_iff {policy : CasePolicy} {a b : String} :
    policy.compareBy expand a b = .eq ↔ policy.keyBy expand a = policy.keyBy expand b := by
  rw [compareBy_eq, Std.LawfulEqOrd.compare_eq_iff_eq]

/-- A name is found to come before another while they are read exactly if its key does. -/
theorem compareBy_lt_iff {policy : CasePolicy} {a b : String} :
    policy.compareBy expand a b = .lt ↔ policy.keyBy expand a < policy.keyBy expand b := by
  rw [compareBy_eq, compare_letters_lt_iff]

/-- Comparing names while they are read orders them, whatever their characters expand to. -/
theorem orders_compareBy : Orders expand (compareBy expand) where
  swap policy a b := Std.OrientedCmp.eq_swap
  lt_trans := Std.TransCmp.lt_trans
  eq_trans := Std.TransCmp.eq_trans
  congr hab c := ⟨Std.TransCmp.congr_left hab, Std.TransCmp.congr_right hab⟩
  bisect_eq hnames hwanted := bisect_congr fun i hlo hhi =>
    (Std.TransCmp.congr_left (hnames i hlo hhi)).trans (Std.TransCmp.congr_right hwanted)
  sensitive_eq_iff := (compareBy_eq_iff expand).trans String.toList_inj
  sensitive_lt_iff := compareBy_lt_iff expand
  insensitive_of_sensitive hab := by
    obtain rfl := String.toList_inj.mp ((compareBy_eq_iff expand).mp hab)
    exact Std.ReflCmp.compare_self
  insensitive_lt_iff := compareBy_lt_iff expand
  insensitive_eq_iff := compareBy_eq_iff expand
  insensitive_gt_iff := Std.OrientedCmp.gt_iff_lt.trans (compareBy_lt_iff expand)

end CasePolicy

/-! ### Equal names in a search -/

namespace Zones

variable {ν μ : Type} [Named ν] [Named μ] {policy : CasePolicy}

/-- Two slots are in the same zone and have the same name under a policy. -/
def SlotAlike (policy : CasePolicy) (slot : Slot ν) (slot' : Slot μ) : Prop :=
  slot.isAbsent = slot'.isAbsent ∧ policy.same (name slot) (name slot') = true

/-- Two arrays have, at the same positions, the same names in the same zones. -/
def Alike (policy : CasePolicy) (slots : Zones ν) (slots' : Zones μ) : Prop :=
  ∀ i : Nat, Option.Rel (SlotAlike policy) slots[i]? slots'[i]?

variable {slots : Zones ν} {slots' : Zones μ} {wanted wanted' : String}

/-- Slots that are alike lie on the same side of equal names. -/
theorem SlotAlike.side_eq {slot : Slot ν} {slot' : Slot μ} (h : SlotAlike policy slot slot')
    (hwanted : policy.key wanted = policy.key wanted') (absentZone : Bool) :
    side policy absentZone wanted slot = side policy absentZone wanted' slot' := by
  obtain ⟨hzone, hname⟩ := h
  unfold side
  rw [hzone, CasePolicy.compare_congr (CasePolicy.same_iff.mp hname) hwanted]

namespace Alike

variable (h : Alike policy slots slots') (hwanted : policy.key wanted = policy.key wanted')

include h

/-- Arrays that are alike have the same size. -/
theorem size_eq : slots.size = slots'.size := by
  refine Nat.le_antisymm ?_ ?_
  · have hend := h slots'.size
    rw [Array.getElem?_eq_none (Nat.le_refl slots'.size)] at hend
    cases hslot : slots[slots'.size]? with
    | none => exact Array.getElem?_eq_none_iff.mp hslot
    | some slot =>
      rw [hslot] at hend
      cases hend
  · have hend := h slots.size
    rw [Array.getElem?_eq_none (Nat.le_refl slots.size)] at hend
    cases hslot : slots'[slots.size]? with
    | none => exact Array.getElem?_eq_none_iff.mp hslot
    | some slot =>
      rw [hslot] at hend
      cases hend

include hwanted

/-- The search of one zone finds equal names at the same place. -/
theorem searchZone_eq (absentZone : Bool) (lo hi : Nat) :
    searchZone policy slots absentZone wanted lo hi =
      searchZone policy slots' absentZone wanted' lo hi := by
  refine bisect_congr fun i _ _ => ?_
  have hi := h i
  generalize slots[i]? = slot? at *
  generalize slots'[i]? = slot'? at *
  cases hi with
  | none => rfl
  | some hslot => exact hslot.side_eq hwanted absentZone

/-- The common descent finds equal names at the same places.

**Proof sketch.** Induction on the length of the range. The slots in its middle are in the same zone
and compare alike with the names, so both descents go on in the same half or end in the same way. -/
theorem descend_eq (lo hi : Nat) :
    descend policy slots wanted lo hi = descend policy slots' wanted' lo hi := by
  induction hlength : hi - lo using Nat.strong_induction_on generalizing lo hi with
  | _ length ih =>
    rw [descend, descend.eq_1 policy slots']
    by_cases hlh : lo < hi
    · have hmid : lo ≤ lo + (hi - lo) / 2 ∧ lo + (hi - lo) / 2 < hi := by omega
      rw [if_pos hlh, if_pos hlh]
      generalize lo + (hi - lo) / 2 = mid at *
      have hright := ih (hi - (mid + 1)) (by omega) (mid + 1) hi rfl
      have hleft := ih (mid - lo) (by omega) lo mid rfl
      have hslots := h mid
      dsimp only
      generalize slots[mid]? = slot? at *
      generalize slots'[mid]? = slot'? at *
      cases hslots with
      | none => rfl
      | some hslot =>
        obtain ⟨hzone, hname⟩ := hslot
        simp only [hzone, CasePolicy.compare_congr hwanted (CasePolicy.same_iff.mp hname),
          h.searchZone_eq hwanted, hleft, hright]
    · rw [if_neg hlh, if_neg hlh]

/-- The search of both zones finds equal names at the same places. -/
theorem search_eq : search policy slots wanted = search policy slots' wanted' := by
  have hfirst := h 0
  have hlast := h (slots.size - 1)
  unfold search
  rw [Array.back?_eq_getElem?, Array.back?_eq_getElem?, ← h.size_eq]
  generalize slots[0]? = first? at *
  generalize slots'[0]? = first'? at *
  generalize slots[slots.size - 1]? = last? at *
  generalize slots'[slots.size - 1]? = last'? at *
  cases hfirst with
  | none => rfl
  | some hfirst =>
    cases hlast with
    | none => rfl
    | some hlast =>
      simp only [hfirst.1, hlast.1, h.searchZone_eq hwanted, h.descend_eq hwanted]

end Alike

end Zones

/-! ### The order of names -/

namespace CasePolicy

/-- The order of names is lawful under both policies. It is what reading two names finds out, by
their bytes or letter by letter of their lowercase expansions, and reading orders names lawfully
whatever their characters expand to. Names that are equal may stand for each other in a search of
any array, as the name that is searched for and as the names in the slots. -/
theorem compare_lawful :
    Orders lowercase CasePolicy.compare ∧
      (∀ (policy : CasePolicy) (a b : String),
        policy.compare a b = policy.compareBy lowercase a b) ∧
      (∀ expand : Char → List Char, Orders expand (compareBy expand)) ∧
      ∀ (policy : CasePolicy) (ν μ : Type) [Named ν] [Named μ] (slots : Zones ν)
        (slots' : Zones μ) (wanted wanted' : String), Zones.Alike policy slots slots' →
        policy.same wanted wanted' = true →
        Zones.search policy slots wanted = Zones.search policy slots' wanted' ∧
          ∀ (absentZone : Bool) (lo hi : Nat),
            Zones.searchZone policy slots absentZone wanted lo hi =
              Zones.searchZone policy slots' absentZone wanted' lo hi := by
  have hread : compareBy lowercase = CasePolicy.compare := by
    funext policy a b
    exact compareBy_lowercase policy a b
  refine ⟨hread ▸ orders_compareBy lowercase, fun policy a b => ?_, orders_compareBy,
    fun policy ν μ _ _ slots slots' wanted wanted' halike hwanted => ?_⟩
  · exact (compareBy_lowercase policy a b).symm
  · have hkey := same_iff.mp hwanted
    exact ⟨halike.search_eq hkey, halike.searchZone_eq hkey⟩

/-- The dotted capital expands to a small letter and a dot. So a name with it is equal to a longer
one in which the dot is a character of its own, and both come behind a name with a letter in the
place of the dot. A search for either name ends at the same places, in whichever way the children
are written. -/
theorem compare_lawful_dotted :
    insensitive.compare "İx" "iz" = .gt ∧ insensitive.compare "i\u0307X" "iz" = .gt ∧
      Zones.search insensitive #[.present "A", .present "İx", .absent "B"] "i\u0307x" =
        Zones.search insensitive #[.present "a", .present "i\u0307X", .absent "b"] "İX" := by
  obtain ⟨horders, -, -, hsearch⟩ := compare_lawful
  have hequal : insensitive.compare "İx" "i\u0307X" = .eq :=
    horders.insensitive_eq_iff.mpr (by decide +kernel)
  have hbehind : insensitive.compare "İx" "iz" = .gt :=
    horders.insensitive_gt_iff.mpr (by decide +kernel)
  refine ⟨hbehind, (horders.congr hequal "iz").1 ▸ hbehind, (hsearch _ _ _ _ _ _ _ ?_ ?_).1⟩
  · intro i
    match i with
    | 0 => exact .some ⟨rfl, by decide +kernel⟩
    | 1 => exact .some ⟨rfl, beq_iff_eq.mpr hequal⟩
    | 2 => exact .some ⟨rfl, by decide +kernel⟩
    | _ + 3 => exact .none
  · decide +kernel

end CasePolicy

end LazyTree
