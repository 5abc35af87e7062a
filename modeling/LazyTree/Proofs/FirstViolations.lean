import LazyTree.Proofs.ZoneConsistency
import Mathlib.Data.Nat.Find

set_option autoImplicit false

/-!
# What the checker reports

The checker of two-zone arrays passes the tidy ones. Of any other array it reports one violation,
and this is which one, said of the array alone and for arrays of any slots whatever: a child behind
an absent name goes before everything else, then comes the order of neighbours, then the absent
names beside a complete listing, and last a name that is in both zones. Of the violations of one
kind the first in the array is reported.

## Main definitions

* `LazyTree.FirstAt` — the first position at which something is found.
* `LazyTree.Zones.Stray`, `LazyTree.Zones.Disorder`, `LazyTree.Zones.Shadow` — the violations that
  have a position.
* `LazyTree.Zones.Reports` — the violation that has to be reported.

## Main results

* `LazyTree.Zones.strayChild?_eq_some_iff`, `LazyTree.Zones.disorder?_eq_some_iff`,
  `LazyTree.Zones.shadow?_eq_some_iff` — each part of the checker finds the first violation of its
  kind.
* `LazyTree.Zones.checker_exact` — the checker passes what is tidy, and reports what has to be
  reported.
-/

namespace LazyTree

/-- Something is found at a position, and nothing is found further in front. -/
def FirstAt {α : Type} (found : Nat → α → Prop) (i : Nat) (x : α) : Prop :=
  found i x ∧ ∀ j y, j < i → ¬ found j y

section FirstAt

variable {α : Type} {found : Nat → α → Prop} {p : Nat → α → Prop} {i j : Nat} {x y : α}

/-- There is only one first position. -/
theorem FirstAt.index_eq (hx : FirstAt found i x) (hy : FirstAt found j y) : i = j := by
  rcases Nat.lt_trichotomy i j with hij | hij | hij
  · exact absurd hx.1 (hy.2 i x hij)
  · exact hij
  · exact absurd hy.1 (hx.2 j y hij)

/-- What alone is found at the start is what is found first. -/
theorem exists_firstAt_of_zero (hzero : found 0 x) (hunique : ∀ y, found 0 y → y = x) :
    (∃ i y, FirstAt found i y ∧ p i y) ↔ p 0 x := by
  have hfirst : FirstAt found 0 x := ⟨hzero, fun _ _ hj => absurd hj (Nat.not_lt_zero _)⟩
  constructor
  · rintro ⟨i, y, hy, hp⟩
    obtain rfl := hfirst.index_eq hy
    rwa [hunique y hy.1] at hp
  · exact fun hp => ⟨0, x, hfirst, hp⟩

/-- If nothing is found at the start, the first find is the first one behind it. -/
theorem exists_firstAt_of_not_zero (hzero : ∀ x, ¬ found 0 x) :
    (∃ i x, FirstAt found i x ∧ p i x) ↔
      ∃ i x, FirstAt (fun j => found (j + 1)) i x ∧ p (i + 1) x := by
  constructor
  · rintro ⟨i, x, ⟨hx, hfirst⟩, hp⟩
    cases i with
    | zero => exact absurd hx (hzero x)
    | succ i => exact ⟨i, x, ⟨hx, fun j y hj => hfirst (j + 1) y (Nat.succ_lt_succ hj)⟩, hp⟩
  · rintro ⟨i, x, ⟨hx, hfirst⟩, hp⟩
    refine ⟨i + 1, x, ⟨hx, fun j y hj => ?_⟩, hp⟩
    cases j with
    | zero => exact hzero y
    | succ j => exact hfirst j y (Nat.lt_of_succ_lt_succ hj)

/-- If anything is found, then something is found first. -/
theorem exists_firstAt (h : found i x) : ∃ j y, FirstAt found j y := by
  classical
  have hfound : ∃ i, ∃ x, found i x := ⟨i, x, h⟩
  obtain ⟨y, hy⟩ := Nat.find_spec hfound
  exact ⟨Nat.find hfound, y, hy, fun j z hj hz => Nat.find_min hfound hj ⟨z, hz⟩⟩

/-- A check that reports what is found first passes exactly if nothing is found. -/
theorem eq_none_iff_of_firstAt {β : Type} {check : Option β} {report : Nat → α → β}
    (h : ∀ b, check = some b ↔ ∃ i x, FirstAt found i x ∧ report i x = b) :
    check = none ↔ ∀ i x, ¬ found i x := by
  constructor
  · intro hnone i x hx
    obtain ⟨j, y, hy⟩ := exists_firstAt hx
    cases hnone.symm.trans ((h _).mpr ⟨j, y, hy, rfl⟩)
  · intro hnot
    refine Option.eq_none_iff_forall_ne_some.mpr fun b hb => ?_
    obtain ⟨i, x, hx, -⟩ := (h b).mp hb
    exact hnot i x hx.1

/-- Looking through a list finds the first element that passes a test. -/
theorem find?_map_eq_some_iff {β : Type} {l : List α} {test : α → Bool} {report : α → β} {b : β} :
    (l.find? test).map report = some b ↔
      ∃ i x, FirstAt (fun i x => l[i]? = some x ∧ test x = true) i x ∧ report x = b := by
  induction l with
  | nil => simp [FirstAt]
  | cons a l ih =>
    rw [List.find?_cons]
    cases ha : test a with
    | true =>
      rw [exists_firstAt_of_zero ⟨rfl, ha⟩ fun y hy => (Option.some.inj hy.1).symm]
      exact Option.some_inj
    | false =>
      have hzero : ∀ x, ¬ ((a :: l)[0]? = some x ∧ test x = true) := by
        rintro x ⟨hx, htest⟩
        obtain rfl : a = x := Option.some.inj hx
        exact absurd htest (by simp [ha])
      rw [exists_firstAt_of_not_zero hzero]
      exact ih

end FirstAt

namespace Zones

variable {ν : Type}

/-! ### Violations -/

/-- A child behind an absent name. -/
def Stray (l : List (Slot ν)) (i : Nat) (slot : Slot ν) : Prop :=
  l[i]? = some slot ∧ slot.isAbsent = false ∧
    ∃ j other, j < i ∧ l[j]? = some other ∧ other.isAbsent = true

variable [Named ν]

/-- Neighbours of one zone, of which the second does not come behind the first in the order of the
names. The position is that of the first of the two. -/
def Disorder (policy : CasePolicy) (l : List (Slot ν)) (i : Nat) (pair : Slot ν × Slot ν) : Prop :=
  l[i]? = some pair.1 ∧ l[i + 1]? = some pair.2 ∧ pair.1.isAbsent = pair.2.isAbsent ∧
    ¬ policy.Before (name pair.1) (name pair.2)

/-- An absent name that one of the children has. -/
def Shadow (policy : CasePolicy) (l : List (Slot ν)) (i : Nat) (slot : Slot ν) : Prop :=
  l[i]? = some slot ∧ slot.isAbsent = true ∧
    ∃ child ∈ l, child.isAbsent = false ∧ policy.key (name child) = policy.key (name slot)

/-- The violation that has to be reported of an array. Violations of an earlier kind go before
those of a later one, and of one kind the first goes before the others. -/
inductive Reports (policy : CasePolicy) (allLoaded : Bool) (slots : Zones ν) :
    Inconsistency → Prop
  /-- The first child behind an absent name. -/
  | zoneOrder {i : Nat} {slot : Slot ν} (hfirst : FirstAt (Stray slots.toList) i slot) :
    Reports policy allLoaded slots (.zoneOrder i (name slot))
  /-- The first slot that is not behind its predecessor of the same zone, if it has its name. -/
  | duplicate {i : Nat} {a b : Slot ν} (hzoned : ∀ i slot, ¬ Stray slots.toList i slot)
    (hfirst : FirstAt (Disorder policy slots.toList) i (a, b))
    (hsame : policy.key (name b) = policy.key (name a)) :
    Reports policy allLoaded slots (.duplicate (i + 1) (name b))
  /-- The first slot that is not behind its predecessor of the same zone, if it belongs in front of
  it. -/
  | unsorted {i : Nat} {a b : Slot ν} (hzoned : ∀ i slot, ¬ Stray slots.toList i slot)
    (hfirst : FirstAt (Disorder policy slots.toList) i (a, b))
    (hbefore : policy.Before (name b) (name a)) :
    Reports policy allLoaded slots (.unsorted (i + 1) (name b))
  /-- The number of absent names, if the listing is complete. -/
  | absentWhileLoaded (hzoned : ∀ i slot, ¬ Stray slots.toList i slot)
    (hsorted : ∀ i pair, ¬ Disorder policy slots.toList i pair) (hloaded : allLoaded = true)
    (habsent : 0 < slots.toList.countP Slot.isAbsent) :
    Reports policy allLoaded slots (.absentWhileLoaded (slots.toList.countP Slot.isAbsent))
  /-- The first absent name that a child has. -/
  | shadowed {i : Nat} {slot : Slot ν} (hzoned : ∀ i slot, ¬ Stray slots.toList i slot)
    (hsorted : ∀ i pair, ¬ Disorder policy slots.toList i pair)
    (hloaded : allLoaded = true → slots.toList.countP Slot.isAbsent = 0)
    (hfirst : FirstAt (Shadow policy slots.toList) i slot) :
    Reports policy allLoaded slots (.shadowed (name slot))

/-! ### The order of the zones -/

/-- A child behind an absent name, among slots that come behind an absent name themselves if
`behind` is set. -/
def StrayIn (behind : Bool) (l : List (Slot ν)) (i : Nat) (slot : Slot ν) : Prop :=
  l[i]? = some slot ∧ slot.isAbsent = false ∧
    (behind = true ∨ ∃ j other, j < i ∧ l[j]? = some other ∧ other.isAbsent = true)

variable {policy : CasePolicy} {allLoaded behind : Bool} {slots : Zones ν} {l : List (Slot ν)}
  {a slot : Slot ν} {i : Nat}

omit [Named ν] in
/-- The first slot is a stray child if it is a child and an absent name was seen before. -/
theorem strayIn_zero :
    StrayIn behind (a :: l) 0 slot ↔ a = slot ∧ slot.isAbsent = false ∧ behind = true := by
  simp [StrayIn]

omit [Named ν] in
/-- Further behind, the first slot counts among those seen before. -/
theorem strayIn_succ :
    (fun i => StrayIn behind (a :: l) (i + 1)) = StrayIn (behind || a.isAbsent) l := by
  funext i slot
  have hexists : (∃ j other, j < i + 1 ∧ (a :: l)[j]? = some other ∧ other.isAbsent = true) ↔
      a.isAbsent = true ∨ ∃ j other, j < i ∧ l[j]? = some other ∧ other.isAbsent = true := by
    constructor
    · rintro ⟨j, other, hj, hother, habsent⟩
      cases j with
      | zero =>
        obtain rfl : a = other := Option.some.inj hother
        exact .inl habsent
      | succ j => exact .inr ⟨j, other, Nat.lt_of_succ_lt_succ hj, hother, habsent⟩
    · rintro (habsent | ⟨j, other, hj, hother, habsent⟩)
      · exact ⟨0, a, Nat.succ_pos i, rfl, habsent⟩
      · exact ⟨j + 1, other, Nat.succ_lt_succ hj, hother, habsent⟩
  simp only [StrayIn, List.getElem?_cons_succ, hexists, Bool.or_eq_true, or_assoc]

/-- The first part of the checker finds the first stray child. -/
theorem strayChild?_eq_some_iff {index : Nat} {broken : Inconsistency} :
    strayChild? index behind l = some broken ↔
      ∃ i slot, FirstAt (StrayIn behind l) i slot ∧
        .zoneOrder (index + i) (name slot) = broken := by
  induction l generalizing index behind with
  | nil => simp [strayChild?, FirstAt, StrayIn]
  | cons a l ih =>
    rw [strayChild?]
    split
    · next hstray =>
      simp only [Bool.and_eq_true, Bool.not_eq_true'] at hstray
      rw [exists_firstAt_of_zero (strayIn_zero.mpr ⟨rfl, hstray.2, hstray.1⟩)
        fun slot hzero => (strayIn_zero.mp hzero).1.symm]
      exact Option.some_inj
    · next hstray =>
      have hzero : ∀ slot, ¬ StrayIn behind (a :: l) 0 slot := by
        intro slot hzero
        obtain ⟨rfl, hpresent, hbehind⟩ := strayIn_zero.mp hzero
        exact hstray (by simp [hpresent, hbehind])
      rw [ih, exists_firstAt_of_not_zero hzero, strayIn_succ]
      simp only [Nat.add_assoc, Nat.add_comm 1]

omit [Named ν] in
/-- With nothing in front of them, stray children are those behind an absent name. -/
theorem strayIn_false : StrayIn false l = Stray l := by
  funext i slot
  simp [StrayIn, Stray]

/-! ### The order within the zones -/

/-- The first two slots are in disorder if they are neighbours that are not in order. -/
theorem disorder_zero {b : Slot ν} {pair : Slot ν × Slot ν} :
    Disorder policy (a :: b :: l) 0 pair ↔
      pair = (a, b) ∧ a.isAbsent = b.isAbsent ∧ ¬ policy.Before (name a) (name b) := by
  constructor
  · rintro ⟨ha, hb, h⟩
    obtain ⟨rfl, rfl⟩ := And.intro (Option.some.inj ha) (Option.some.inj hb)
    exact ⟨rfl, h⟩
  · rintro ⟨rfl, h⟩
    exact ⟨rfl, rfl, h⟩

/-- The second part of the checker finds the first neighbours that are in disorder. -/
theorem disorder?_eq_some_iff {index : Nat} {broken : Inconsistency} :
    disorder? policy index l = some broken ↔
      ∃ i pair, FirstAt (Disorder policy l) i pair ∧
        (if policy.key (name pair.2) = policy.key (name pair.1) then
          .duplicate (index + i) (name pair.2) else .unsorted (index + i) (name pair.2)) =
          broken := by
  fun_induction disorder? policy index l with
  | case1 index a b rest hzone hgt ih =>
    have hzero : ∀ pair, ¬ Disorder policy (a :: b :: rest) 0 pair := by
      intro pair hpair
      exact (disorder_zero.mp hpair).2.2 (CasePolicy.compare_gt_iff.mp hgt)
    rw [ih, exists_firstAt_of_not_zero hzero]
    simp only [Nat.add_assoc, Nat.add_comm 1]
    rfl
  | case2 index a b rest hzone heq =>
    have hkey := CasePolicy.compare_eq_iff.mp heq
    have hpair : Disorder policy (a :: b :: rest) 0 (a, b) :=
      disorder_zero.mpr ⟨rfl, hzone, fun hbefore => hbefore.key_ne hkey.symm⟩
    rw [exists_firstAt_of_zero hpair fun pair hpair => (disorder_zero.mp hpair).1, if_pos hkey]
    exact Option.some_inj
  | case3 index a b rest hzone hlt =>
    have hbefore : policy.Before (name b) (name a) := hlt
    have hpair : Disorder policy (a :: b :: rest) 0 (a, b) :=
      disorder_zero.mpr ⟨rfl, hzone, fun hab => (hab.trans hbefore).key_ne rfl⟩
    rw [exists_firstAt_of_zero hpair fun pair hpair => (disorder_zero.mp hpair).1,
      if_neg hbefore.key_ne]
    exact Option.some_inj
  | case4 index a b rest hzone ih =>
    have hzero : ∀ pair, ¬ Disorder policy (a :: b :: rest) 0 pair :=
      fun pair hpair => hzone (disorder_zero.mp hpair).2.1
    rw [ih, exists_firstAt_of_not_zero hzero]
    simp only [Nat.add_assoc, Nat.add_comm 1]
    rfl
  | case5 l index hshort =>
    have hnone : ∀ i pair, ¬ Disorder policy l i pair := by
      rintro i pair ⟨-, hsecond, -⟩
      rcases l with _ | ⟨a, _ | ⟨b, rest⟩⟩
      · cases hsecond
      · cases i <;> cases hsecond
      · exact hshort a b rest rfl
    simp only [reduceCtorEq, false_iff, not_exists, not_and]
    exact fun i pair hfirst => absurd hfirst.1 (hnone i pair)

/-! ### Names in both zones -/

/-- The last part of the checker finds the first absent name that a child has. -/
theorem shadow?_eq_some_iff {ps : List ν} {as : List String} (h : Ascending policy ps)
    {broken : Inconsistency} :
    shadow? policy (ofParts ps as) ps.length = some broken ↔
      ∃ i slot, FirstAt (Shadow policy (ofParts ps as).toList) i slot ∧
        .shadowed (name slot) = broken := by
  have hchild (wanted : String) : (∃ child ∈ (ofParts ps as).toList, child.isAbsent = false ∧
      policy.key (name child) = policy.key wanted) ↔
      ∃ p ∈ ps, policy.key (name p) = policy.key wanted := by
    simp [or_and_right, exists_or]
  let test : Slot ν → Bool := fun slot =>
    decide (slot.isAbsent = true ∧ ∃ p ∈ ps, policy.key (name p) = policy.key (name slot))
  have hshadow : Shadow policy (ofParts ps as).toList = fun i slot =>
      (ofParts ps as).toList[i]? = some slot ∧ test slot = true := by
    funext i slot
    simp only [Shadow, hchild, test, decide_eq_true_eq]
  have hfind : (ofParts ps as).toList.find? test =
      ((ofParts ps as).toList.drop ps.length).find? fun slot =>
        (bisect (fun i => ((ofParts ps as)[i]?.map fun s =>
          policy.compare (name s) (name slot)).getD .gt) 0 ps.length).index?.isSome := by
    have hpresent : (ps.map Slot.present).find? test = none := by simp [test]
    rw [toList_ofParts, List.find?_append, hpresent, List.drop_left' (by simp), Option.none_or,
      List.find?_map, List.find?_map]
    congr 2
    funext wanted
    rw [Bool.eq_iff_iff]
    exact (decide_eq_true_iff.trans (and_iff_right rfl)).trans
      (isSome_bisect_ofParts_iff h wanted).symm
  rw [hshadow, ← find?_map_eq_some_iff, hfind]
  rfl

/-! ### The checker -/

/-- What has to be reported, kind by kind. -/
theorem reports_iff {broken : Inconsistency} :
    Reports policy allLoaded slots broken ↔
      (∃ i slot, FirstAt (Stray slots.toList) i slot ∧ .zoneOrder i (name slot) = broken) ∨
      (∀ i slot, ¬ Stray slots.toList i slot) ∧
        ((∃ i pair, FirstAt (Disorder policy slots.toList) i pair ∧
          (if policy.key (name pair.2) = policy.key (name pair.1) then
            .duplicate (i + 1) (name pair.2) else .unsorted (i + 1) (name pair.2)) = broken) ∨
        (∀ i pair, ¬ Disorder policy slots.toList i pair) ∧
          ((allLoaded = true ∧ 0 < slots.toList.countP Slot.isAbsent ∧
            .absentWhileLoaded (slots.toList.countP Slot.isAbsent) = broken) ∨
          (allLoaded = true → slots.toList.countP Slot.isAbsent = 0) ∧
            ∃ i slot, FirstAt (Shadow policy slots.toList) i slot ∧
              .shadowed (name slot) = broken)) := by
  constructor
  · intro h
    cases h with
    | zoneOrder hfirst => exact .inl ⟨_, _, hfirst, rfl⟩
    | duplicate hzoned hfirst hsame =>
      exact .inr ⟨hzoned, .inl ⟨_, _, hfirst, if_pos hsame⟩⟩
    | unsorted hzoned hfirst hbefore =>
      exact .inr ⟨hzoned, .inl ⟨_, _, hfirst, if_neg hbefore.key_ne⟩⟩
    | absentWhileLoaded hzoned hsorted hloaded habsent =>
      exact .inr ⟨hzoned, .inr ⟨hsorted, .inl ⟨hloaded, habsent, rfl⟩⟩⟩
    | shadowed hzoned hsorted hloaded hfirst =>
      exact .inr ⟨hzoned, .inr ⟨hsorted, .inr ⟨hloaded, _, _, hfirst, rfl⟩⟩⟩
  · rintro (⟨i, slot, hfirst, rfl⟩ | ⟨hzoned, ⟨i, ⟨a, b⟩, hfirst, rfl⟩ | ⟨hsorted,
      ⟨hloaded, habsent, rfl⟩ | ⟨hloaded, i, slot, hfirst, rfl⟩⟩⟩)
    · exact .zoneOrder hfirst
    · split
      · next hsame => exact .duplicate hzoned hfirst hsame
      · next hne =>
        have hbefore := CasePolicy.before_or_before hne
        exact .unsorted hzoned hfirst (hbefore.resolve_right hfirst.1.2.2.2)
    · exact .absentWhileLoaded hzoned hsorted hloaded habsent
    · exact .shadowed hzoned hsorted hloaded hfirst

/-- What the checker reports is what has to be reported.

**Proof sketch.** The parts of the checker run one after the other, and each finds the first
violation of its kind. The last two look at the array from its first absent name on, which tells
them what they want to know only because by then the array is known to be put together from two
ascending lists. -/
theorem inconsistency?_eq_some_iff {broken : Inconsistency} :
    inconsistency? policy allLoaded slots = some broken ↔
      Reports policy allLoaded slots broken := by
  have hstray (broken : Inconsistency) : strayChild? 0 false slots.toList = some broken ↔
      ∃ i slot, FirstAt (Stray slots.toList) i slot ∧ .zoneOrder i (name slot) = broken := by
    simp only [strayChild?_eq_some_iff, strayIn_false, Nat.zero_add]
  have hdisorder (broken : Inconsistency) : disorder? policy 1 slots.toList = some broken ↔
      ∃ i pair, FirstAt (Disorder policy slots.toList) i pair ∧
        (if policy.key (name pair.2) = policy.key (name pair.1) then
          .duplicate (i + 1) (name pair.2) else .unsorted (i + 1) (name pair.2)) = broken := by
    simp only [disorder?_eq_some_iff, Nat.add_comm 1]
  rw [reports_iff, ← hstray, ← hdisorder, ← eq_none_iff_of_firstAt hstray,
    ← eq_none_iff_of_firstAt hdisorder, inconsistency?]
  simp only [Option.orElse_eq_some]
  refine or_congr_right (and_congr_right fun hzoned => or_congr_right
    (and_congr_right fun hsorted => ?_))
  obtain ⟨ps, as, rfl, hps, -⟩ := exists_ascending_parts hzoned hsorted
  have hcount : (ofParts ps as).toList.countP Slot.isAbsent = as.length := by
    simp [List.countP_map, Function.comp_def]
  rw [hcount, toList_ofParts, findIdx_isAbsent_parts, shadow?_eq_some_iff hps, size_ofParts]
  cases allLoaded with
  | false => simp
  | true =>
    cases as with
    | nil => simp
    | cons a as => simp

/-- The checker is sound, complete and precise. For every array, policy and flag: it passes the
array exactly if all children stand in front of all absent names, any two slots of one zone are in
the order of their names, no name is in both zones, and there are no absent names beside a complete
listing; and otherwise it reports the first child behind an absent name, or else the first slot
that has the name of its predecessor in the same zone or belongs in front of it, or else the number
of absent names beside a complete listing, or else the first absent name that a child has. -/
theorem checker_exact (policy : CasePolicy) (allLoaded : Bool) (slots : Zones ν) :
    (inconsistency? policy allLoaded slots = none ↔ Tidy policy allLoaded slots) ∧
      ∀ broken, inconsistency? policy allLoaded slots = some broken ↔
        Reports policy allLoaded slots broken :=
  ⟨inconsistency?_eq_none_iff, fun _ => inconsistency?_eq_some_iff⟩

/-- The order within a zone goes before the absent names beside a complete listing, and those go
before the name that is in both zones. -/
example : inconsistency? .insensitive true
    #[.present "Ash", .present "oak", .absent "OAK", .absent "elm"] =
      some (.unsorted 3 "elm") := by
  decide

end Zones

end LazyTree
