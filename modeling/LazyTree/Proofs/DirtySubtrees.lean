import LazyTree.Proofs.Households

set_option autoImplicit false

/-!
# Marking all that is cached below a node

A node and all that is cached below it are marked as needing a refresh by a walk over the arrays.
The walk need not look at a whole array: it stops at the first absent name, since in a tidy array no
child stands behind it. It may mark what it meets as it goes, since marks change no array. In a
forest it has an end; it marks the node, what is below it, and nothing else; and it changes nothing
but marks.

## Main definitions

* `LazyTree.Children.leading` — the children in front of the first absent name.
* `LazyTree.Tree.sweep` — the walk that marks as it goes, and stops at absent names.
* `LazyTree.Tree.MarksBelow` — a node and what is below it have been marked, and nothing else has
  changed.

## Main results

* `LazyTree.Tree.sweep_eq` — the walk that marks as it goes meets what the walk over the arrays
  does.
* `LazyTree.Household.Reached.marksBelow` — in a forest marking has an end, and covers exactly what
  is below.
-/

namespace LazyTree

/-- The children in front of the first absent name. -/
def Children.leading (c : Children) : List Node :=
  (c.slots.toList.takeWhile fun slot => !slot.isAbsent).filterMap Slot.child?

/-- In a tidy array no child stands behind an absent name. -/
theorem Children.Tidy.leading_eq {c : Children} (h : c.Tidy) : c.leading = c.present := by
  obtain ⟨ps, as, hslots, -, -⟩ := Zones.tidy_iff.mp h
  have hfront : (ps.map Slot.present ++ as.map Slot.absent).takeWhile (fun slot => !slot.isAbsent) =
      ps.map Slot.present := by
    have hbehind : (as.map Slot.absent : List (Slot Node)).takeWhile (fun slot => !slot.isAbsent) =
        [] := by
      cases as <;> rfl
    rw [List.takeWhile_append_of_pos, hbehind, List.append_nil]
    rintro slot hslot
    obtain ⟨n, -, rfl⟩ := List.mem_map.mp hslot
    rfl
  rw [leading, present, hslots, Zones.children_ofParts, Zones.toList_ofParts, hfront,
    List.filterMap_map]
  exact (congrFun List.filterMap_eq_map' ps).trans (List.map_id ps)

namespace Tree

open TreeM

variable {t t' : Tree} {n m : Node} {c : Children}

/-! ### Marks -/

/-- Saying that an object needs a refresh leaves the numbers of all children as they are. -/
theorem childSerials_setDirty (t : Tree) (dirty : Bool) (serial : Nat) :
    (t.setDirty dirty serial).childSerials = t.childSerials := by
  funext k
  have hsame := children?_setDirty t { (default : Node) with serial := k } dirty serial
  unfold children? cell? at hsame
  rw [childSerials, childSerials, hsame]

/-- So does saying so of several objects. -/
theorem childSerials_foldl_setDirty (t : Tree) (dirty : Bool) (serials : List Nat) :
    (serials.foldl (setDirty · dirty) t).childSerials = t.childSerials := by
  induction serials generalizing t with
  | nil => rfl
  | cons serial rest ih => exact (ih _).trans (childSerials_setDirty t dirty serial)

/-- All arrays stay as they are. -/
theorem children?_foldl_setDirty (t : Tree) (dirty : Bool) (serials : List Nat) (m : Node) :
    (serials.foldl (setDirty · dirty) t).children? m = t.children? m := by
  induction serials generalizing t with
  | nil => rfl
  | cons serial rest ih => exact (ih _).trans (children?_setDirty t m dirty serial)

/-- The same nodes are objects. -/
theorem owns_foldl_setDirty (t : Tree) (dirty : Bool) (serials : List Nat) (m : Node) :
    (serials.foldl (setDirty · dirty) t).Owns m ↔ t.Owns m := by
  induction serials generalizing t with
  | nil => rfl
  | cons serial rest ih => exact (ih _).trans (owns_setDirty t m dirty serial)

/-- Nothing but the objects changes. -/
theorem foldl_setDirty_eq (t : Tree) (dirty : Bool) (serials : List Nat) :
    serials.foldl (setDirty · dirty) t =
      { t with cells := (serials.foldl (setDirty · dirty) t).cells } := by
  induction serials generalizing t with
  | nil => rfl
  | cons serial rest ih => exact ih (t.setDirty dirty serial)

/-- Tidy arrays stay tidy. -/
theorem Tidy.foldl_setDirty (ht : t.Tidy) (dirty : Bool) (serials : List Nat) :
    (serials.foldl (setDirty · dirty) t).Tidy := by
  intro n c hc
  rw [children?_foldl_setDirty] at hc
  rw [foldl_setDirty_eq]
  exact ht n c hc

/-- Exactly the objects that are marked become dirty. -/
theorem isDirty_foldl_setDirty (t : Tree) (serials : List Nat) (hm : t.Owns m) :
    (serials.foldl (setDirty · true) t).isDirty m = true ↔
      t.isDirty m = true ∨ m.serial ∈ serials := by
  induction serials generalizing t with
  | nil => simp
  | cons serial rest ih =>
    rw [List.foldl_cons, ih _ ((owns_setDirty t m true serial).mpr hm), List.mem_cons, ← or_assoc]
    refine or_congr_left ?_
    obtain ⟨cell, hcell, -⟩ := Option.map_eq_some_iff.mp hm
    unfold isDirty
    rw [cell?_setDirty, hcell]
    by_cases hserial : serial = m.serial
    · simp [hserial]
    · simp [hserial, Ne.symm hserial]

/-- What a walk meets depends on the numbers of children alone. -/
theorem below?_congr (h : t'.childSerials = t.childSerials) (depth : Nat) :
    t'.below? depth = t.below? depth := by
  induction depth with
  | zero => rfl
  | succ depth ih =>
    funext serial
    rw [below?, below?, h, ih]

/-! ### The walk that marks as it goes -/

/-- The numbers of the children in front of the first absent name in an array. -/
def leadingSerials (t : Tree) (serial : Nat) : List Nat :=
  match (t.cells[serial]?).bind Cell.children with
  | some c => c.leading.map Node.serial
  | none => []

/-- Marks an object, and then goes on with each of its children in front of the first absent name.
There is no end if the object is below itself. -/
def sweep : Nat → Tree → Nat → Option Tree
  | 0, _, _ => none
  | depth + 1, t, serial => (t.leadingSerials serial).foldlM (sweep depth) (t.setDirty true serial)

/-- In a tidy tree no child is left out behind an absent name. -/
theorem Tidy.leadingSerials_eq (ht : t.Tidy) (serial : Nat) :
    t.leadingSerials serial = t.childSerials serial := by
  cases hc : (t.cells[serial]?).bind Cell.children with
  | none => rw [leadingSerials, childSerials, hc]
  | some c =>
    have hknown : t.children? { (default : Node) with serial := serial } = some c := hc
    rw [leadingSerials, hc]
    dsimp only
    rw [(ht _ c hknown).2.leading_eq]
    exact (ht.childSerials_eq hknown).symm

/-- The walk that marks as it goes has an end where the walk over the arrays has one, and marks what
that meets.

**Proof sketch.** By induction on how deep the walk may go, and there on the children. What was
marked before does not matter for what is met. -/
theorem sweep_eq (ht : t.Tidy) (depth serial : Nat) :
    t.sweep depth serial = (t.below? depth serial).map (·.foldl (setDirty · true) t) := by
  induction depth generalizing t serial with
  | zero => rfl
  | succ depth ih =>
    have hchildren : ∀ (serials : List Nat) (u : Tree), u.Tidy → u.childSerials = t.childSerials →
        serials.foldlM (sweep depth) u =
          (serials.mapM (t.below? depth)).map (·.flatten.foldl (setDirty · true) u) := by
      intro serials
      induction serials with
      | nil => exact fun _ _ _ => rfl
      | cons first rest ihrest =>
        intro u hu hsame
        rw [List.foldlM_cons, List.mapM_cons, ih hu, below?_congr hsame]
        cases hmet : t.below? depth first with
        | none => rfl
        | some met =>
          have hrest := ihrest _ (hu.foldl_setDirty true met)
            ((childSerials_foldl_setDirty u true met).trans hsame)
          show rest.foldlM (sweep depth) (met.foldl (setDirty · true) u) = _
          rw [hrest]
          cases rest.mapM (t.below? depth) with
          | none => rfl
          | some lists => exact congrArg some (List.foldl_append ..).symm
    have hfirst : (t.setDirty true serial).Tidy := ht.foldl_setDirty true [serial]
    rw [sweep, ht.leadingSerials_eq, hchildren _ _ hfirst (childSerials_setDirty t true serial),
      below?]
    cases (t.childSerials serial).mapM (t.below? depth) <;> rfl

/-! ### What is marked -/

/-- A node and all that is cached below it have been marked as needing a refresh, and nothing else
has changed. -/
structure MarksBelow (t : Tree) (n : Node) (t' : Tree) : Prop where
  /-- An object needs a refresh if it did before, or is the node or below it. -/
  dirty : ∀ m, t.Owns m → (t'.isDirty m = true ↔ t.isDirty m = true ∨ t.Beneath n m)
  /-- The same nodes are objects. -/
  owns : ∀ m, t'.Owns m ↔ t.Owns m
  /-- All arrays are the same, with their flags and the counts of their changes. -/
  children : ∀ m, t'.children? m = t.children? m
  /-- Neither has the registry changed, nor who holds objects, nor what was chosen for the tree. -/
  frame : t' = { t with cells := t'.cells }

/-- Marking what a walk over objects met marks the node and what is below it. -/
theorem marksBelow_of_met {met : List Nat} (howns : ∀ m, t.Beneath n m → t.Owns m)
    (hmet : ∀ serial, serial ∈ met ↔ ∃ m, t.Beneath n m ∧ m.serial = serial) :
    t.MarksBelow n (met.foldl (setDirty · true) t) where
  dirty m hm := by
    rw [isDirty_foldl_setDirty t met hm, hmet]
    refine or_congr_right ⟨?_, fun hbeneath => ⟨m, hbeneath, rfl⟩⟩
    rintro ⟨k, hk, hserial⟩
    exact (howns k hk).eq_of_serial hm hserial ▸ hk
  owns m := owns_foldl_setDirty t true met m
  children m := children?_foldl_setDirty t true met m
  frame := foldl_setDirty_eq t true met

end Tree

namespace Household

/-- Marking covers exactly what is cached below a node. In whatever is reached by operations that
give directories only children made for them, marking an object has an end; then exactly the objects
that needed a refresh before, the object itself and what is cached below it need one, and nothing
else has changed. The walk that marks as it goes and stops at absent names does the same.

**Proof sketch.** In a forest the walk over the arrays has an end, and meets what is below the
object. All arrays are tidy, so nothing is missed behind an absent name. -/
theorem Reached.marksBelow {policy : CasePolicy} {config : TreeConfig} {root : FileId}
    {name : String} {s : Household} (h : Reached policy config root name s) {n : Node}
    (hn : s.tree.Owns n) :
    ∃ t', (Tree.markDirtyRecursively n).run s.tree = .done (.ok ()) t' ∧
      s.tree.sweep s.tree.cells.size n.serial = some t' ∧ s.tree.MarksBelow n t' := by
  obtain ⟨K, hK⟩ := h.reared
  obtain ⟨met, hmet, -, hiff⟩ := hK.descended.isForest.walk n hn
  refine ⟨met.foldl (Tree.setDirty · true) s.tree, ?_, ?_, ?_⟩
  · rw [Tree.markDirtyRecursively, TreeM.run_bind, TreeM.run_get, Run.bind_done_ok, hmet]
    rfl
  · have hbelow : s.tree.below? s.tree.cells.size n.serial = some met := hmet
    rw [Tree.sweep_eq hK.descended.tidy.1, hbelow]
    rfl
  · exact Tree.marksBelow_of_met (fun m hm => hK.descended.owns_of_beneath hn hm) hiff

/-- What is said of all sessions holds where a file was added again: marking the root marks the file
with it. -/
theorem Return.marksBelow_again : Reached .sensitive default Return.root.id "/" Return.again ∧
    Return.again.tree.Owns Return.root ∧
    ∃ t', (Tree.markDirtyRecursively Return.root).run Return.again.tree = .done (.ok ()) t' ∧
      Return.again.tree.sweep Return.again.tree.cells.size Return.root.serial = some t' ∧
      Return.again.tree.MarksBelow Return.root t' := by
  have howns : (Return.again.tree.cell? Return.root).map Cell.node = some Return.root := by
    decide +kernel
  exact ⟨Return.reached_again, howns, Reached.marksBelow Return.reached_again howns⟩

end Household

end LazyTree
