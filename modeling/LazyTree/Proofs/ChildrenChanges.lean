import LazyTree.Proofs.Ledger
import LazyTree.Proofs.SlotChanges

set_option autoImplicit false

/-!
# Every change of an array is a change of its ledger

On a directory whose array is tidy, each change succeeds, keeps the array tidy, and does to what is
known of the names exactly what the change of the ledger does, with the same answer.

## Main definitions

* `LazyTree.Children.Follows` — a change does what the ledger says.

## Main results

* `LazyTree.Children.find_eq` — what is found in the array is the answer of the ledger.
* `LazyTree.Children.insert_follows`, `LazyTree.Children.insertIfUnknown_follows`,
  `LazyTree.Children.insertAbsent_follows`, `LazyTree.Children.remove_follows`,
  `LazyTree.Children.markAllLoaded_follows`, `LazyTree.Children.install_follows`,
  `LazyTree.Children.clear_follows` — each change follows the ledger.
-/

namespace LazyTree

namespace Children

/-- A change does what the ledger says: it succeeds with that answer, and the array is tidy
afterwards and stands for that ledger. -/
structure Follows {α : Type} (change : Change α) (expected : α × Ledger) : Prop where
  /-- The change succeeds with the expected answer. -/
  answer : change.1 = .ok expected.1
  /-- The array is tidy afterwards. -/
  tidy : change.2.Tidy
  /-- The array stands for the expected ledger afterwards. -/
  ledger : change.2.ledger = expected.2

variable {c : Children} {wanted : String}

/-- The directory that was never looked at has no children. -/
theorem present_empty (policy : CasePolicy) : (Children.empty policy).present = [] := by
  simp [Children.present, Zones.children, Children.empty]

/-- The ledger of the directory that was never looked at is empty. -/
theorem ledger_empty (policy : CasePolicy) :
    (Children.empty policy).ledger = Ledger.empty policy :=
  rfl

/-! ### Facts in the two zones -/

/-- What is known of the names with a key is what their slot says. -/
theorem factAt_eq (c : Children) (k : List Char) : c.factAt k = (c.slotAt k).map Slot.fact :=
  rfl

/-- What two lists of children and of absent names say of the names with a key. -/
def factIn (policy : CasePolicy) (ps : List Node) (as : List String) (k : List Char) :
    Option Fact :=
  ((ps.find? fun p => policy.key p.name = k).map Fact.present).or
    ((as.find? fun a => policy.key a = k).map fun _ => .absent)

/-- What the array says is what the lists say that it is put together from. -/
theorem factAt_of_slots_eq {ps : List Node} {as : List String}
    (h : c.slots = Zones.ofParts ps as) : c.factAt = factIn c.policy ps as := by
  funext k
  have hslot : c.slotAt k = slotIn c.policy ps as k := congrFun (slotAt_of_slots_eq h) k
  rw [factAt_eq, hslot, slotIn, factIn]
  cases ps.find? fun p => c.policy.key p.name = k with
  | some p => rfl
  | none => cases as.find? fun a => c.policy.key a = k <;> rfl

/-- Publishing an array that is put together from orderly lists succeeds, and what is known
afterwards is what the lists say. -/
theorem publish_ofParts {α : Type} {ps : List Node} {as : List String}
    (h : Zones.Orderly c.policy ps as) (hloaded : c.allLoaded = true → as = []) (answer : α) :
    Follows (c.publish (Zones.ofParts ps as) answer)
      (answer, ⟨c.policy, factIn c.policy ps as, c.allLoaded, c.generation + 1⟩) := by
  have htidy := h.tidy hloaded
  rw [publish, htidy.inconsistency?_eq_none]
  refine ⟨rfl, htidy, ?_⟩
  simp only [Children.ledger, Ledger.mk.injEq, and_self, true_and, and_true]
  exact factAt_of_slots_eq rfl

/-- A fact is known of the names with a key exactly when a slot of the array tells it. -/
theorem Tidy.factAt_eq_some_iff (h : c.Tidy) {k : List Char} {fact : Fact} :
    c.factAt k = some fact ↔ ∃ slot ∈ c.slots, c.policy.key (name slot) = k ∧ slot.fact = fact := by
  simp only [factAt_eq, Option.map_eq_some_iff, h.slotAt_eq_some_iff, and_assoc]

/-- A child is present exactly when a slot of the array holds it. -/
theorem Tidy.mem_present_iff_slot (h : c.Tidy) {n : Node} :
    n ∈ c.present ↔ Slot.present n ∈ c.slots := by
  obtain ⟨ps, as, hslots, -, -⟩ := Zones.tidy_iff.mp h
  rw [Children.present, hslots, Zones.children_ofParts, Zones.present_mem_ofParts]

/-- The children of a tidy array are in the order of their names. -/
theorem Tidy.ascending_present (h : c.Tidy) : Ascending c.policy c.present := by
  obtain ⟨ps, as, hslots, horderly, -⟩ := Zones.tidy_iff.mp h
  rw [present, hslots, Zones.children_ofParts]
  exact horderly.present_ascending

/-- A present child is known exactly when it is in the array. -/
theorem Tidy.factAt_eq_present_iff (h : c.Tidy) {k : List Char} {n : Node} :
    c.factAt k = some (.present n) ↔ n ∈ c.present ∧ c.policy.key n.name = k := by
  rw [h.factAt_eq_some_iff, h.mem_present_iff_slot]
  constructor
  · rintro ⟨slot, hslot, hkey, hfact⟩
    cases slot with
    | absent s => cases hfact
    | present p =>
      cases hfact
      exact ⟨hslot, hkey⟩
  · rintro ⟨hslot, hkey⟩
    exact ⟨.present n, hslot, hkey, rfl⟩

/-- What the array says of a name is what the cuts hold. -/
theorem Cuts.factAt_key (d : Cuts c wanted) : c.factAt (c.policy.key wanted) =
    (d.present.hit.map Fact.present).or (d.absent.hit.map fun _ => .absent) := by
  rw [factAt_eq, d.slotAt_key]
  cases d.present.hit with
  | some n => rfl
  | none => cases d.absent.hit <;> rfl

/-- What is known of a name at the places where the search finds it is the answer of the ledger. -/
theorem Tidy.knowledgeAt_eq (h : c.Tidy) (wanted : String) :
    c.knowledgeAt (c.search wanted) = c.ledger.answer wanted := by
  obtain ⟨d⟩ := h.exists_cuts wanted
  have hfact : c.ledger.fact? wanted = _ := d.factAt_key
  rw [d.knowledgeAt_eq, Ledger.answer, hfact]
  cases hp : d.present.hit with
  | some n => simp [d.absent_hit_eq_none hp]
  | none => cases d.absent.hit <;> rfl

/-- What is found in the array is the answer of the ledger, except that no child has the empty
name. -/
theorem find_eq (h : c.Tidy) (wanted : String) :
    c.find wanted = if wanted.isEmpty then .absent else c.ledger.answer wanted := by
  rw [find, h.knowledgeAt_eq]

/-- Looking for a name that a file can have gives the answer of the ledger. -/
theorem find_of_isFileName (h : c.Tidy) {wanted : String} (hwanted : isFileName wanted = true) :
    c.find wanted = c.ledger.answer wanted := by
  have hempty : wanted.isEmpty = false := by
    cases hempty : wanted.isEmpty with
    | false => rfl
    | true => simp [isFileName, hempty] at hwanted
  rw [find_eq h, hempty]
  rfl

/-! ### The changes -/

/-- A change that does nothing follows a ledger that stays the same. -/
theorem follows_self {α : Type} (h : c.Tidy) (answer : α) :
    Follows (.ok answer, c) (answer, c.ledger) :=
  ⟨rfl, h, rfl⟩

/-- A change that writes the slot of a name follows the ledger that records what the slot says. -/
theorem Writes.follows {α : Type} {change : Change α} {answer : α} {slot : Option (Slot Node)}
    (h : Writes c wanted change ⟨answer, slot, true⟩) :
    Follows change (answer, c.ledger.record wanted (slot.map Slot.fact)) := by
  refine ⟨h.answer, h.tidy, ?_⟩
  have hfacts : change.2.factAt = fun k =>
      if k = c.policy.key wanted then slot.map Slot.fact else c.factAt k := by
    funext k
    rw [factAt_eq, h.slotAt, Function.update_apply, factAt_eq]
    split <;> rfl
  rw [Children.ledger, h.policy, hfacts, h.allLoaded, h.generation]
  rfl

/-- A change that publishes nothing and leaves the slot of its name as it is follows a ledger that
stays the same. -/
theorem Writes.follows_self {α : Type} {change : Change α} {answer : α}
    {slot : Option (Slot Node)} (h : Writes c wanted change ⟨answer, slot, false⟩)
    (hslot : c.slotAt (c.policy.key wanted) = slot) : Follows change (answer, c.ledger) := by
  refine ⟨h.answer, h.tidy, ?_⟩
  have hslots : change.2.slotAt = c.slotAt := by
    rw [h.slotAt, ← hslot, Function.update_eq_self]
  have hfacts : change.2.factAt = c.factAt := by
    funext k
    rw [factAt_eq, hslots, factAt_eq]
  rw [Children.ledger, h.policy, hfacts, h.allLoaded, h.generation]
  rfl

/-- Inserting a child follows the ledger. -/
theorem insert_follows (h : c.Tidy) (child : Node) :
    Follows (c.insert child) (c.ledger.insert child) := by
  have hwrites := insert_writes h child
  have hfact : c.ledger.fact? child.name = _ := factAt_eq c (c.policy.key child.name)
  rw [Ledger.insert, hfact]
  cases hslot : c.slotAt (c.policy.key child.name) with
  | none =>
    rw [hslot] at hwrites
    exact hwrites.follows
  | some slot =>
    rw [hslot] at hwrites
    cases slot with
    | present kept => exact hwrites.follows_self hslot
    | absent known => exact hwrites.follows

/-- Inserting a child of a name that is unknown follows the ledger. -/
theorem insertIfUnknown_follows (h : c.Tidy) (child : Node) :
    Follows (c.insertIfUnknown child) (c.ledger.insertIfUnknown child) := by
  have hwrites := insertIfUnknown_writes h child
  have hfact : c.ledger.fact? child.name = _ := factAt_eq c (c.policy.key child.name)
  rw [Ledger.insertIfUnknown, hfact]
  cases hslot : c.slotAt (c.policy.key child.name) with
  | none =>
    rw [hslot] at hwrites
    exact hwrites.follows
  | some slot =>
    rw [hslot] at hwrites
    cases slot <;> exact hwrites.follows_self hslot

/-- Recording an absent name follows the ledger. -/
theorem insertAbsent_follows (h : c.Tidy) (wanted : String) :
    Follows (c.insertAbsent wanted) (c.ledger.insertAbsent wanted) := by
  have hwrites := insertAbsent_writes h wanted
  have hfact : c.ledger.fact? wanted = _ := factAt_eq c (c.policy.key wanted)
  have hcomplete : c.ledger.complete = c.allLoaded := rfl
  unfold Effect.insertAbsent at hwrites
  rw [Ledger.insertAbsent, hfact, hcomplete]
  split at hwrites
  · next hempty =>
    rw [if_pos hempty]
    exact hwrites.follows_self rfl
  · next hempty =>
    rw [if_neg hempty]
    cases hslot : c.slotAt (c.policy.key wanted) with
    | none =>
      rw [hslot] at hwrites
      cases hl : c.allLoaded with
      | true =>
        rw [hl] at hwrites
        exact hwrites.follows_self hslot
      | false =>
        rw [hl] at hwrites
        exact hwrites.follows
    | some slot =>
      rw [hslot] at hwrites
      cases slot <;> exact hwrites.follows_self hslot

/-- Removing a child follows the ledger. -/
theorem remove_follows (h : c.Tidy) (child : Node) (remember : Bool) :
    Follows (c.remove child remember) (c.ledger.remove child remember) := by
  have hwrites := remove_writes h child remember
  have hfact : c.ledger.fact? child.name = _ := factAt_eq c (c.policy.key child.name)
  have hcomplete : c.ledger.complete = c.allLoaded := rfl
  simp only [Ledger.remove, hfact, hcomplete]
  cases hslot : c.slotAt (c.policy.key child.name) with
  | none =>
    rw [hslot] at hwrites
    unfold Effect.remove at hwrites
    cases hr : remember && !c.allLoaded with
    | true =>
      rw [hr] at hwrites
      exact hwrites.follows
    | false =>
      rw [hr] at hwrites
      exact hwrites.follows_self hslot
  | some slot =>
    rw [hslot] at hwrites
    unfold Effect.remove at hwrites
    cases slot with
    | absent known => exact hwrites.follows_self hslot
    | present kept =>
      by_cases hid : kept.id = child.id
      · simp only [Option.map_some, Slot.fact, hid, if_true] at hwrites ⊢
        cases hr : remember && !c.allLoaded <;> rw [hr] at hwrites <;> exact hwrites.follows
      · simp only [Option.map_some, Slot.fact, hid, if_false] at hwrites ⊢
        exact hwrites.follows_self hslot

/-- Declaring the present children to be all there are follows the ledger. -/
theorem markAllLoaded_follows (h : c.Tidy) :
    Follows c.markAllLoaded c.ledger.markAllLoaded := by
  obtain ⟨ps, as, hslots, hparts, -⟩ := Zones.tidy_iff.mp h
  have horderly : Zones.Orderly c.policy ps [] := ⟨hparts.present_ascending, .nil, by simp⟩
  have hpublish := publish_ofParts (c := { c with allLoaded := true }) horderly (fun _ => rfl) ()
  have htake : c.slots.take (Zones.boundary c.slots) = Zones.ofParts ps [] := by
    rw [hslots, Zones.take_boundary_ofParts]
  rw [markAllLoaded, htake]
  refine ⟨hpublish.answer, hpublish.tidy, hpublish.ledger.trans ?_⟩
  simp only [Children.ledger, Ledger.markAllLoaded, Ledger.mk.injEq, and_self, true_and, and_true]
  funext k
  rw [factAt_of_slots_eq hslots, factIn, factIn]
  cases ps.find? fun p => c.policy.key p.name = k with
  | some p => rfl
  | none => cases as.find? fun a => c.policy.key a = k <;> rfl

/-- Installing a listing in ascending order follows the ledger. -/
theorem install_follows (h : c.Tidy) {listing : List Node}
    (hlisting : Ascending c.policy listing) (generation : Nat) :
    Follows (c.install listing generation) (c.ledger.install listing generation) := by
  have hchanges : c.ledger.changes = c.generation := rfl
  rw [install, Ledger.install, hchanges]
  split
  · exact follows_self h _
  · have horderly : Zones.Orderly c.policy listing [] := ⟨hlisting, .nil, by simp⟩
    have hpublish := publish_ofParts (c := { c with allLoaded := true }) horderly (fun _ => rfl)
      true
    rw [Zones.toArray_present]
    refine ⟨hpublish.answer, hpublish.tidy, hpublish.ledger.trans ?_⟩
    simp only [Children.ledger, Ledger.mk.injEq, and_self, true_and, and_true]
    funext k
    rw [factIn, List.find?_nil, Option.map_none, Option.or_none]
    rfl

/-- Forgetting everything follows the ledger. -/
theorem clear_follows (c : Children) : Follows c.clear c.ledger.clear := by
  have horderly : Zones.Orderly c.policy ([] : List Node) [] := ⟨.nil, .nil, by simp⟩
  exact publish_ofParts (c := { c with allLoaded := false }) horderly (fun _ => rfl) ()

end Children

end LazyTree
