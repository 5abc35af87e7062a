import LazyTree.Proofs.Ledger

set_option autoImplicit false

/-!
# The children that a ledger knows after a change

Which children a ledger knows after a change: those that it knew before, but for one that was
removed, and one that was inserted, if its name was free or unknown. A child that is answered is
known.

## Main results

* `LazyTree.Ledger.present_insert`, `LazyTree.Ledger.present_insertIfUnknown` — insertions add at
  most the child that is inserted.
* `LazyTree.Ledger.insert_keeps`, `LazyTree.Ledger.insertIfUnknown_keeps` — they keep all others.
* `LazyTree.Ledger.present_remove_iff` — removing a child that is known removes no other.
-/

namespace LazyTree.Ledger

variable {l : Ledger} {child n : Node} {name : String}

/-! ### Insertions -/

/-- The children after one was inserted are the old ones and it. -/
theorem present_insert (h : (l.insert child).2.fact? name = some (.present n)) :
    l.fact? name = some (.present n) ∨ n = child ∧ (l.insert child).1 = child := by
  rw [insert] at h ⊢
  split at h
  · exact .inl h
  · rw [fact?_record] at h
    split at h
    · cases h
      exact .inr ⟨rfl, rfl⟩
    · exact .inl h

/-- A child is inserted where no other has its name. -/
theorem insert_of_free (hfree : ∀ kept, l.fact? child.name ≠ some (.present kept)) :
    l.insert child = (child, l.record child.name (some (.present child))) := by
  rw [insert]
  split
  · next kept hkept => exact absurd hkept (hfree kept)
  · rfl

/-- Inserting a child keeps all children. -/
theorem insert_keeps (h : l.fact? name = some (.present n)) :
    (l.insert child).2.fact? name = some (.present n) := by
  rw [insert]
  split
  · exact h
  · next hfree =>
    rw [fact?_record, if_neg]
    · exact h
    · intro hkey
      rw [l.fact?_congr hkey] at h
      exact hfree n h

/-- The child that is answered when one is inserted is known afterwards. -/
theorem insert_answered : (l.insert child).2.fact? child.name = some (.present (l.insert child).1) := by
  rw [insert]
  split
  · next kept hfact => exact hfact
  · rw [fact?_record, if_pos rfl]

/-- A child is inserted where its name is unknown. -/
theorem insertIfUnknown_of_unknown (hunknown : l.fact? child.name = none) :
    l.insertIfUnknown child = (.present child, l.record child.name (some (.present child))) := by
  rw [insertIfUnknown, hunknown]

/-- The children after one was inserted where its name was unknown are the old ones and it. -/
theorem present_insertIfUnknown
    (h : (l.insertIfUnknown child).2.fact? name = some (.present n)) :
    l.fact? name = some (.present n) ∨
      n = child ∧ (l.insertIfUnknown child).1 = .present child := by
  rw [insertIfUnknown] at h ⊢
  split at h
  · exact .inl h
  · exact .inl h
  · rw [fact?_record] at h
    split at h
    · cases h
      exact .inr ⟨rfl, rfl⟩
    · exact .inl h

/-- Inserting a child where its name was unknown keeps all children. -/
theorem insertIfUnknown_keeps (h : l.fact? name = some (.present n)) :
    (l.insertIfUnknown child).2.fact? name = some (.present n) := by
  rw [insertIfUnknown]
  split
  · exact h
  · exact h
  · next hfact =>
    rw [fact?_record, if_neg]
    · exact h
    · intro hkey
      rw [l.fact?_congr hkey, hfact] at h
      cases h

/-- A child that is answered when one is inserted where its name is unknown is known afterwards. -/
theorem insertIfUnknown_answered (h : (l.insertIfUnknown child).1 = .present n) :
    (l.insertIfUnknown child).2.fact? child.name = some (.present n) := by
  rw [insertIfUnknown] at h ⊢
  split at h
  · next kept hfact =>
    cases h
    exact hfact
  · cases h
  · cases h
    rw [fact?_record, if_pos rfl]

/-! ### Absences -/

/-- Recording an absent name adds no children. -/
theorem present_insertAbsent {absent : String} :
    (l.insertAbsent absent).2.fact? name = some (.present n) ↔
      l.fact? name = some (.present n) := by
  rw [insertAbsent]
  split
  · rfl
  · split
    · rfl
    · rfl
    · next hfact =>
      dsimp only
      split
      · rfl
      · rw [fact?_record]
        split
        · next hkey =>
          rw [l.fact?_congr hkey, hfact]
          simp
        · rfl

/-- A child that is answered when a name is recorded as free was known before. -/
theorem insertAbsent_answered (h : (l.insertAbsent name).1 = .present n) :
    l.fact? name = some (.present n) := by
  rw [insertAbsent] at h
  split at h
  · cases h
  · split at h
    · next kept hfact =>
      cases h
      exact hfact
    · cases h
    · cases h

/-! ### Removals -/

/-- Recording that a name is free, or that nothing is known of it, takes no other child away. -/
theorem present_record {fact : Option Fact} (hfact : fact ≠ some (.present n)) {other : String} :
    (l.record other fact).fact? name = some (.present n) ↔
      l.fact? name = some (.present n) ∧ l.policy.key name ≠ l.policy.key other := by
  rw [fact?_record]
  split
  · next hkey => exact ⟨fun hn => absurd hn hfact, fun ⟨_, hne⟩ => absurd hkey hne⟩
  · next hkey => exact (and_iff_left hkey).symm

/-- What is recorded of the name of a removed child is no child. -/
theorem remembered_ne_present (l : Ledger) (remember : Bool) (n : Node) :
    (if remember && !l.complete then some Fact.absent else none) ≠ some (.present n) := by
  split <;> simp

/-- Removing a child adds none. -/
theorem present_remove {remember : Bool}
    (h : (l.remove child remember).2.fact? name = some (.present n)) :
    l.fact? name = some (.present n) := by
  have hremembered := l.remembered_ne_present remember n
  rw [remove] at h
  split at h
  · split at h
    · exact ((present_record hremembered).mp h).1
    · exact h
  · exact h
  · dsimp only at h
    generalize (if remember && !l.complete then some Fact.absent else none) = fact
      at hremembered h
    split at h
    · exact ((present_record hremembered).mp h).1
    · exact h

/-- Where no child was removed, all are kept. -/
theorem remove_keeps {remember : Bool} (hkept : (l.remove child remember).1 = false)
    (h : l.fact? name = some (.present n)) :
    (l.remove child remember).2.fact? name = some (.present n) := by
  rw [remove] at hkept ⊢
  cases hfact : l.fact? child.name with
  | none =>
    dsimp only
    generalize (if remember && !l.complete then some Fact.absent else none) = fact
    split
    · rw [fact?_record, if_neg]
      · exact h
      · intro hkey
        rw [l.fact?_congr hkey, hfact] at h
        cases h
    · exact h
  | some fact =>
    cases fact with
    | absent => exact h
    | present kept =>
      rw [hfact] at hkept
      dsimp only at hkept ⊢
      split
      · next hid =>
        rw [if_pos hid] at hkept
        cases hkept
      · exact h

/-- The child that was removed was known under the name of the given one, with its identity. -/
theorem exists_of_remove {remember : Bool} (h : (l.remove child remember).1 = true) :
    ∃ kept, l.fact? child.name = some (.present kept) ∧ kept.id = child.id := by
  rw [remove] at h
  split at h
  · next kept hfact =>
    split at h
    · next hid => exact ⟨kept, hfact, hid⟩
    · cases h
  · cases h
  · cases h

/-- A child that is known can be removed. -/
theorem remove_of_known (h : l.fact? child.name = some (.present child)) (remember : Bool) :
    l.remove child remember = (true, l.record child.name
      (if remember && !l.complete then some .absent else none)) := by
  rw [remove, h]
  exact if_pos rfl

/-- Removing a child that is known removes no other. -/
theorem present_remove_iff (h : l.fact? child.name = some (.present child)) (remember : Bool) :
    (l.remove child remember).2.fact? name = some (.present n) ↔
      l.fact? name = some (.present n) ∧ l.policy.key name ≠ l.policy.key child.name := by
  rw [remove_of_known h]
  exact present_record (l.remembered_ne_present remember n)

/-! ### Complete listings -/

/-- Declaring the children to be all there are changes none of them. -/
theorem present_markAllLoaded :
    l.markAllLoaded.2.fact? name = some (.present n) ↔ l.fact? name = some (.present n) := by
  show ((l.fact? name).bind fun fact => fact.child?.map Fact.present) = _ ↔ _
  cases l.fact? name with
  | none => rfl
  | some fact => cases fact <;> simp [Fact.child?]

end LazyTree.Ledger
