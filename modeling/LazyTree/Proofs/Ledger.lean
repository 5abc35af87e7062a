import LazyTree.Children

set_option autoImplicit false

/-!
# The ledger of a directory

What a directory is known to hold, without the array: for each name, up to the policy of the tree,
either a child that is present, or the fact that the name is free, or nothing; and whether the
children are all there are. Every change of the array is a change of this ledger.

## Main definitions

* `LazyTree.Fact` — what can be known of a name.
* `LazyTree.Ledger` — the facts about the names of a directory.
* `LazyTree.Ledger.answer` — what the ledger says about a name.
* `LazyTree.Ledger.insert`, `LazyTree.Ledger.insertIfUnknown`, `LazyTree.Ledger.insertAbsent`,
  `LazyTree.Ledger.remove`, `LazyTree.Ledger.markAllLoaded`, `LazyTree.Ledger.install`,
  `LazyTree.Ledger.clear` — the changes.
* `LazyTree.Children.ledger` — the ledger that an array stands for.
-/

namespace LazyTree

/-- What can be known of a name. -/
inductive Fact where
  /-- A child has it. -/
  | present (child : Node)
  /-- No child has it. -/
  | absent
deriving DecidableEq

namespace Fact

/-- The child that has the name, if one is known. -/
def child? : Fact → Option Node
  | present child => some child
  | absent => none

end Fact

/-- The facts about the names of a directory. -/
structure Ledger where
  /-- Which names are the same. -/
  policy : CasePolicy
  /-- What is known of the names with a key. -/
  facts : List Char → Option Fact
  /-- Whether the children that are present are all there are. -/
  complete : Bool
  /-- The number of changes so far. -/
  changes : Nat

namespace Ledger

/-- Nothing is known yet. -/
def empty (policy : CasePolicy) : Ledger :=
  ⟨policy, fun _ => none, false, 0⟩

/-- What is known of a name. -/
def fact? (l : Ledger) (name : String) : Option Fact :=
  l.facts (l.policy.key name)

/-- Names that are the same are known alike. -/
theorem fact?_congr (l : Ledger) {a b : String} (hab : l.policy.key a = l.policy.key b) :
    l.fact? a = l.fact? b := by
  rw [fact?, fact?, hab]

/-- What the ledger says about a name. A complete listing leaves nothing unknown. -/
def answer (l : Ledger) (name : String) : Knowledge :=
  match l.fact? name with
  | some (.present child) => .present child
  | some .absent => .absent
  | none => if l.complete then .absent else .unknown

/-- Names that are the same are answered alike. -/
theorem answer_congr (l : Ledger) {a b : String} (hab : l.policy.key a = l.policy.key b) :
    l.answer a = l.answer b := by
  rw [answer, answer, l.fact?_congr hab]

/-- The ledger says that a child has a name exactly if that is known. -/
theorem answer_eq_present_iff {l : Ledger} {name : String} {child : Node} :
    l.answer name = .present child ↔ l.fact? name = some (.present child) := by
  rw [answer]
  split
  · next kept hfact => simp [hfact]
  · next hfact => simp [hfact]
  · next hfact =>
    rw [hfact]
    split <;> simp

/-- Nothing is known of a name that the ledger does not know. -/
theorem fact?_of_answer_unknown {l : Ledger} {name : String} (h : l.answer name = .unknown) :
    l.fact? name = none := by
  rw [answer] at h
  split at h
  · cases h
  · cases h
  · assumption

/-- Replaces what is known of a name. -/
def record (l : Ledger) (name : String) (fact : Option Fact) : Ledger :=
  { l with
    facts := fun k => if k = l.policy.key name then fact else l.facts k
    changes := l.changes + 1 }

/-- What is replaced is known of the names that are the same, and nothing else changes. -/
theorem fact?_record (l : Ledger) (name other : String) (fact : Option Fact) :
    (l.record name fact).fact? other =
      if l.policy.key other = l.policy.key name then fact else l.fact? other :=
  rfl

/-- Adds a child, unless one of its name is present. -/
def insert (l : Ledger) (child : Node) : Node × Ledger :=
  match l.fact? child.name with
  | some (.present kept) => (kept, l)
  | _ => (child, l.record child.name (some (.present child)))

/-- Adds a child, unless something is known of its name. -/
def insertIfUnknown (l : Ledger) (child : Node) : Knowledge × Ledger :=
  match l.fact? child.name with
  | some (.present kept) => (.present kept, l)
  | some .absent => (.absent, l)
  | none => (.present child, l.record child.name (some (.present child)))

/-- Records that a name is free, unless that follows from what is known already. -/
def insertAbsent (l : Ledger) (name : String) : Knowledge × Ledger :=
  if name.isEmpty then (.absent, l)
  else match l.fact? name with
    | some (.present kept) => (.present kept, l)
    | some .absent => (.absent, l)
    | none => (.absent, if l.complete then l else l.record name (some .absent))

/-- Removes the child with the name and identity of `child`. A name that is free then is recorded
as such if that is wanted and the listing is not complete. -/
def remove (l : Ledger) (child : Node) (remember : Bool) : Bool × Ledger :=
  let remembered := if remember && !l.complete then some Fact.absent else none
  match l.fact? child.name with
  | some (.present kept) =>
    if kept.id = child.id then (true, l.record child.name remembered) else (false, l)
  | some .absent => (false, l)
  | none => (false, if remembered.isSome then l.record child.name remembered else l)

/-- What is known of the name of a child after its removal. -/
theorem fact?_remove (l : Ledger) (child : Node) (remember : Bool) :
    (l.remove child remember).2.fact? child.name =
      match l.fact? child.name with
      | some (.present kept) =>
        if kept.id = child.id then if remember && !l.complete then some .absent else none
        else some (.present kept)
      | some .absent => some .absent
      | none => if remember && !l.complete then some .absent else none := by
  rw [remove]
  cases hfact : l.fact? child.name with
  | none =>
    cases remember && !l.complete with
    | true => exact if_pos rfl
    | false => exact hfact
  | some fact =>
    cases fact with
    | absent => exact hfact
    | present kept =>
      by_cases hid : kept.id = child.id
      · simp only [hid, if_true]
        exact if_pos rfl
      · simp only [hid, if_false]
        exact hfact

/-- Declares the children that are present to be all there are. -/
def markAllLoaded (l : Ledger) : Unit × Ledger :=
  ((), { l with
    facts := fun k => (l.facts k).bind fun fact => fact.child?.map .present
    complete := true
    changes := l.changes + 1 })

/-- Makes a listing the complete one, unless there were changes since the given number. -/
def install (l : Ledger) (listing : List Node) (changes : Nat) : Bool × Ledger :=
  if l.changes ≠ changes then (false, l)
  else (true, { l with
    facts := fun k => (listing.find? fun n => l.policy.key n.name = k).map .present
    complete := true
    changes := l.changes + 1 })

/-- Forgets everything. -/
def clear (l : Ledger) : Unit × Ledger :=
  ((), { l with facts := fun _ => none, complete := false, changes := l.changes + 1 })

end Ledger

namespace Slot

/-- What a slot says of its name. -/
def fact : Slot Node → Fact
  | present child => .present child
  | absent _ => .absent

end Slot

namespace Children

/-- What the array says of the names with a key. -/
def factAt (c : Children) (k : List Char) : Option Fact :=
  (c.slots.toList.find? fun slot => c.policy.key (name slot) = k).map Slot.fact

/-- The ledger that an array stands for. -/
def ledger (c : Children) : Ledger :=
  ⟨c.policy, c.factAt, c.allLoaded, c.generation⟩

end Children

end LazyTree
