import LazyTree.Children
import LazyTree.Proofs.ZoneConsistency
import Mathlib.Logic.Function.Basic

set_option autoImplicit false

/-!
# A change of one name touches one slot

In a tidy array each name, up to the policy, has at most one slot. Adding a child, recording an
absence and removing a child look at the slot of one name and at nothing else, and write that slot
or leave the directory as it is. All other names keep their slots. A tidy array is laid out in only
one way, so this says what the new array is.

## Main definitions

* `LazyTree.Children.Tidy` — a directory whose array satisfies all rules.
* `LazyTree.Children.slotAt` — the slot of the names with a key.
* `LazyTree.Children.Cuts` — both zones of an array, cut at a name.
* `LazyTree.Effect` — what a change makes of the slot of its name, and what it answers.
* `LazyTree.Children.Writes` — a change of a directory has an effect on the slot of a name.

## Main results

* `LazyTree.Children.Tidy.slots_eq` — the slots of the names determine the array.
* `LazyTree.Children.insert_writes`, `LazyTree.Children.insertIfUnknown_writes`,
  `LazyTree.Children.insertAbsent_writes`, `LazyTree.Children.remove_writes` — each change writes
  the slot of its name.
-/

namespace LazyTree

/-- A node has the name that is written on it. -/
@[simp] theorem name_node (n : Node) : Named.name n = n.name := rfl

/-- What a change of one name comes to. -/
structure Effect (α : Type) where
  /-- What the change answers. -/
  answer : α
  /-- The slot of the name afterwards, if it has one. -/
  slot : Option (Slot Node)
  /-- Whether a new array is published. -/
  published : Bool

namespace Effect

/-- The effect of adding a child. One that is present under that name stays. -/
def insert (child : Node) : Option (Slot Node) → Effect Node
  | some (.present kept) => ⟨kept, some (.present kept), false⟩
  | some (.absent _) | none => ⟨child, some (.present child), true⟩

/-- The effect of adding a child of an unknown name. -/
def insertIfUnknown (child : Node) : Option (Slot Node) → Effect Knowledge
  | some (.present kept) => ⟨.present kept, some (.present kept), false⟩
  | some (.absent free) => ⟨.absent, some (.absent free), false⟩
  | none => ⟨.present child, some (.present child), true⟩

/-- The effect of recording an absence, of which a complete listing makes no record. -/
def insertAbsent (complete : Bool) (free : String) (slot : Option (Slot Node)) :
    Effect Knowledge :=
  if free.isEmpty then ⟨.absent, slot, false⟩
  else match slot with
    | some (.present kept) => ⟨.present kept, some (.present kept), false⟩
    | some (.absent known) => ⟨.absent, some (.absent known), false⟩
    | none =>
      if complete then ⟨.absent, none, false⟩ else ⟨.absent, some (.absent free), true⟩

/-- The effect of removing a child. Its name is recorded as absent if that is wanted, unless the
listing is complete. -/
def remove (complete : Bool) (child : Node) (remember : Bool) : Option (Slot Node) → Effect Bool
  | some (.present kept) =>
    if kept.id = child.id then
      ⟨true, if remember && !complete then some (.absent child.name) else none, true⟩
    else ⟨false, some (.present kept), false⟩
  | some (.absent known) => ⟨false, some (.absent known), false⟩
  | none =>
    if remember && !complete then ⟨false, some (.absent child.name), true⟩
    else ⟨false, none, false⟩

end Effect

namespace Children

/-- A directory whose array satisfies all rules. -/
def Tidy (c : Children) : Prop :=
  Zones.Tidy c.policy c.allLoaded c.slots

/-- The slot of the names with a key. -/
def slotAt (c : Children) (k : List Char) : Option (Slot Node) :=
  c.slots.toList.find? fun slot => c.policy.key (name slot) = k

/-- Both zones of an array, cut at a name. -/
structure Cuts (c : Children) (wanted : String) where
  /-- The children, cut at the name. -/
  present : Cut c.policy wanted Node
  /-- The absent names, cut at the name. -/
  absent : Cut c.policy wanted String
  /-- The array is put together from the two. -/
  slots_eq : c.slots = Zones.ofParts present.whole absent.whole
  /-- They are in order. -/
  orderly : Zones.Orderly c.policy present.whole absent.whole
  /-- A complete listing has no absent names. -/
  none_absent : c.allLoaded = true → absent.whole = []

/-- A change of a directory has an effect on the slot of a name, and on nothing else: it succeeds,
it leaves a tidy array, and it is counted if it published one. -/
structure Writes {α : Type} (c : Children) (wanted : String) (change : Change α)
    (effect : Effect α) : Prop where
  /-- The change succeeds with the answer of the effect. -/
  answer : change.1 = .ok effect.answer
  /-- The array is tidy afterwards. -/
  tidy : change.2.Tidy
  /-- The policy stays. -/
  policy : change.2.policy = c.policy
  /-- The listing is as complete as it was. -/
  allLoaded : change.2.allLoaded = c.allLoaded
  /-- An array that is published is counted. -/
  generation : change.2.generation = c.generation + effect.published.toNat
  /-- The slot of the name is that of the effect, and every other name keeps its slot. -/
  slotAt : change.2.slotAt = Function.update c.slotAt (c.policy.key wanted) effect.slot

variable {c : Children} {wanted : String}

/-- A tidy array can be cut at any name. -/
theorem Tidy.exists_cuts (h : c.Tidy) (wanted : String) : Nonempty (Cuts c wanted) := by
  obtain ⟨ps, as, hslots, hparts, hloaded⟩ := Zones.tidy_iff.mp h
  obtain ⟨cp, rfl⟩ := hparts.present_ascending.exists_cut wanted
  obtain ⟨ca, rfl⟩ := hparts.absent_ascending.exists_cut wanted
  exact ⟨⟨cp, ca, hslots, hparts, hloaded⟩⟩

/-- The array of the directory that was never looked at is tidy. -/
theorem tidy_empty (policy : CasePolicy) : (Children.empty policy).Tidy :=
  Zones.tidy_iff.mpr ⟨[], [], rfl, ⟨.nil, .nil, by simp⟩, fun _ => rfl⟩

/-! ### Slots by name -/

/-- The slot that two lists of children and of absent names have for a key. -/
def slotIn (policy : CasePolicy) (ps : List Node) (as : List String) (k : List Char) :
    Option (Slot Node) :=
  ((ps.find? fun p => policy.key p.name = k).map Slot.present).or
    ((as.find? fun a => policy.key a = k).map Slot.absent)

/-- The slots of an array are those of the lists that it is put together from. -/
theorem slotAt_of_slots_eq {ps : List Node} {as : List String}
    (h : c.slots = Zones.ofParts ps as) : c.slotAt = slotIn c.policy ps as := by
  funext k
  rw [Children.slotAt, h, Zones.toList_ofParts, List.find?_append, List.find?_map, List.find?_map]
  rfl

/-- A slot stands for a key exactly when it is in the array and its name has the key. -/
theorem Tidy.slotAt_eq_some_iff (h : c.Tidy) {k : List Char} {slot : Slot Node} :
    c.slotAt k = some slot ↔ slot ∈ c.slots ∧ c.policy.key (name slot) = k := by
  constructor
  · intro hfind
    exact ⟨Array.mem_toList_iff.mp (List.mem_of_find?_eq_some hfind),
      by simpa using List.find?_some hfind⟩
  · rintro ⟨hmem, rfl⟩
    have hsome : (c.slotAt (c.policy.key (name slot))).isSome = true :=
      List.find?_isSome.mpr ⟨slot, Array.mem_toList_iff.mpr hmem, by simp⟩
    obtain ⟨other, hfind⟩ := Option.isSome_iff_exists.mp hsome
    have hother := Array.mem_toList_iff.mp (List.mem_of_find?_eq_some hfind)
    have hkey : c.policy.key (name other) = c.policy.key (name slot) := by
      simpa using List.find?_some hfind
    rwa [h.slot_unique hother hmem hkey] at hfind

/-- A tidy array is laid out in only one way: arrays with the same slots, in whatever places, are
the same array. -/
theorem Tidy.slots_eq_of_mem_iff {c' : Children} (h : c.Tidy) (h' : c'.Tidy)
    (hpolicy : c'.policy = c.policy) (hmem : ∀ slot, slot ∈ c'.slots ↔ slot ∈ c.slots) :
    c'.slots = c.slots := by
  obtain ⟨ps, as, hslots, horderly, -⟩ := Zones.tidy_iff.mp h
  obtain ⟨ps', as', hslots', horderly', -⟩ := Zones.tidy_iff.mp h'
  rw [hpolicy] at horderly'
  rw [hslots, hslots'] at hmem ⊢
  have hps : ps' = ps := by
    refine horderly'.present_ascending.eq_of_mem_iff horderly.present_ascending fun p => ?_
    simpa only [Zones.present_mem_ofParts] using hmem (.present p)
  have has : as' = as := by
    refine horderly'.absent_ascending.eq_of_mem_iff horderly.absent_ascending fun a => ?_
    simpa only [Zones.absent_mem_ofParts] using hmem (.absent a)
  rw [hps, has]

/-- The slots of the names determine a tidy array. -/
theorem Tidy.slots_eq {c' : Children} (h : c.Tidy) (h' : c'.Tidy)
    (hpolicy : c'.policy = c.policy) (hslots : c'.slotAt = c.slotAt) : c'.slots = c.slots := by
  refine h.slots_eq_of_mem_iff h' hpolicy fun slot => ?_
  have hat : slot ∈ c.slots ↔ c.slotAt (c.policy.key (name slot)) = some slot := by
    rw [h.slotAt_eq_some_iff, and_iff_left rfl]
  have hat' : slot ∈ c'.slots ↔ c'.slotAt (c.policy.key (name slot)) = some slot := by
    rw [h'.slotAt_eq_some_iff, hpolicy, and_iff_left rfl]
  rw [hat, hat', hslots]

namespace Cuts

variable (d : Cuts c wanted)

/-- No name is in both zones. -/
theorem absent_hit_eq_none {n : Node} (h : d.present.hit = some n) : d.absent.hit = none := by
  refine Option.eq_none_iff_forall_ne_some.mpr fun s hs => ?_
  obtain ⟨hn, hnkey⟩ := d.present.mem_and_key_iff.mpr h
  obtain ⟨hs, hskey⟩ := d.absent.mem_and_key_iff.mpr hs
  exact d.orderly.disjoint n hn s hs (hnkey.trans hskey.symm)

/-- A complete listing has no absent names. -/
theorem absent_hit_of_loaded (h : c.allLoaded = true) : d.absent.hit = none := by
  refine Option.eq_none_iff_forall_ne_some.mpr fun s hs => ?_
  have hmem := (d.absent.mem_and_key_iff.mpr hs).1
  rw [d.none_absent h] at hmem
  cases hmem

/-- The slot of the name is what the cuts hold. -/
theorem slotAt_key : c.slotAt (c.policy.key wanted) =
    (d.present.hit.map Slot.present).or (d.absent.hit.map Slot.absent) := by
  have hp : d.present.whole.find? (fun p => c.policy.key p.name = c.policy.key wanted) =
      d.present.hit := d.present.find?_key
  have ha : d.absent.whole.find? (fun a => c.policy.key a = c.policy.key wanted) =
      d.absent.hit := d.absent.find?_key
  rw [slotAt_of_slots_eq d.slots_eq, slotIn, hp, ha]

/-- The search finds both cuts. -/
theorem search_eq : c.search wanted =
    ⟨d.present.place 0, d.absent.place d.present.whole.length⟩ := by
  rw [Children.search, d.slots_eq]
  exact Zones.search_ofParts d.present d.absent

/-- The position for the name among the children. -/
theorem present_index : (c.search wanted).present.index = d.present.front.length := by
  rw [d.search_eq, Cut.place_index, Nat.zero_add]

/-- The place of the name among the absent names. -/
theorem absent_place : (c.search wanted).absent =
    if d.absent.hit.isSome then .found (d.present.whole.length + d.absent.front.length)
    else .gap (d.present.whole.length + d.absent.front.length) := by
  rw [d.search_eq]
  rfl

/-- The child found by the search is the one in the cut. -/
theorem foundChild?_eq : c.foundChild? (c.search wanted) = d.present.hit := by
  rw [d.search_eq, foundChild?, d.slots_eq]
  cases hhit : d.present.hit with
  | none => simp [Cut.place, hhit, Place.index?]
  | some n =>
    have hlt := d.present.front_length_lt (by simp [hhit])
    simp [Cut.place, hhit, Place.index?, Zones.getElem?_ofParts_left hlt,
      d.present.getElem?_hit hhit]

/-- What the places say about the name. -/
theorem knowledgeAt_eq : c.knowledgeAt (c.search wanted) =
    if d.absent.hit.isSome then .absent
    else match d.present.hit with
      | some child => .present child
      | none => if c.allLoaded then .absent else .unknown := by
  have hfound := d.foundChild?_eq
  rw [foundChild?] at hfound
  cases hhit : d.present.hit <;>
    rw [knowledgeAt, hfound, d.search_eq, Cut.place_index?_isSome, hhit]

/-- What both zones become, when something else is put into the cuts, is in order. -/
theorem orderly_put (x : Option Node) (s : Option String)
    (hx : ∀ y, x = some y → c.policy.key y.name = c.policy.key wanted)
    (hs : ∀ y, s = some y → c.policy.key y = c.policy.key wanted)
    (hone : x = none ∨ s = none) :
    Zones.Orderly c.policy (d.present.put x hx).whole (d.absent.put s hs).whole := by
  refine ⟨d.present.ascending_put d.orderly.present_ascending x hx,
    d.absent.ascending_put d.orderly.absent_ascending s hs, ?_⟩
  intro p hp a ha
  rcases (d.present.put x hx).mem_whole.mp hp with hpx | hp <;>
    rcases (d.absent.put s hs).mem_whole.mp ha with has | ha
  · rcases hone with h | h
    · exact absurd (h.symm.trans hpx) (by simp)
    · exact absurd (h.symm.trans has) (by simp)
  · intro hkey
    exact (d.absent.put s hs).rest_key_ne ha (hkey.symm.trans (hx p hpx))
  · intro hkey
    exact (d.present.put x hx).rest_key_ne hp (hkey.trans (hs a has))
  · exact d.orderly.disjoint p (d.present.mem_whole.mpr (.inr hp)) a
      (d.absent.mem_whole.mpr (.inr ha))

/-- Publishing what both zones become, when something else is put into the cuts, writes it into the
slot of the name. -/
theorem publish_writes {α : Type} (x : Option Node) (s : Option String)
    (hx : ∀ y, x = some y → c.policy.key y.name = c.policy.key wanted)
    (hs : ∀ y, s = some y → c.policy.key y = c.policy.key wanted)
    (hone : x = none ∨ s = none) (hloaded : c.allLoaded = true → s = none) (answer : α) :
    Writes c wanted
      (c.publish (Zones.ofParts (d.present.put x hx).whole (d.absent.put s hs).whole) answer)
      ⟨answer, (x.map Slot.present).or (s.map Slot.absent), true⟩ := by
  have horderly := d.orderly_put x s hx hs hone
  have hnone : c.allLoaded = true → (d.absent.put s hs).whole = [] := by
    intro h
    have hwhole := d.none_absent h
    have hs := hloaded h
    subst hs
    simp only [Cut.whole, List.append_eq_nil_iff] at hwhole
    simp [Cut.put, Cut.whole, hwhole]
  have htidy := horderly.tidy hnone
  rw [publish, htidy.inconsistency?_eq_none]
  refine ⟨rfl, htidy, rfl, rfl, rfl, ?_⟩
  have hp (k : List Char) : (d.present.put x hx).whole.find? (fun p => c.policy.key p.name = k) =
      if k = c.policy.key wanted then x
      else d.present.whole.find? fun p => c.policy.key p.name = k :=
    d.present.find?_put x hx k
  have ha (k : List Char) : (d.absent.put s hs).whole.find? (fun a => c.policy.key a = k) =
      if k = c.policy.key wanted then s else d.absent.whole.find? fun a => c.policy.key a = k :=
    d.absent.find?_put s hs k
  funext k
  rw [slotAt_of_slots_eq rfl, slotAt_of_slots_eq d.slots_eq, Function.update_apply, slotIn, slotIn,
    hp, ha]
  by_cases hk : k = c.policy.key wanted
  · simp only [if_pos hk]
  · simp only [if_neg hk]

end Cuts

/-! ### The changes -/

/-- A change that does nothing leaves the slot of any name as it is. -/
theorem writes_self {α : Type} (h : c.Tidy) {slot : Option (Slot Node)}
    (hslot : c.slotAt (c.policy.key wanted) = slot) (answer : α) :
    Writes c wanted (.ok answer, c) ⟨answer, slot, false⟩ :=
  ⟨rfl, h, rfl, rfl, rfl, by rw [← hslot, Function.update_eq_self]⟩

/-- Adding a child writes the slot of its name. One of that name that is present stays; otherwise
the cut of the absent names is emptied, and that of the children filled. -/
theorem insert_writes (h : c.Tidy) (child : Node) :
    Writes c child.name (c.insert child)
      (Effect.insert child (c.slotAt (c.policy.key child.name))) := by
  obtain ⟨d⟩ := h.exists_cuts child.name
  have hslot := d.slotAt_key
  rw [insert, d.foundChild?_eq, hslot]
  cases hp : d.present.hit with
  | some kept =>
    rw [hp] at hslot
    exact writes_self h hslot kept
  | none =>
    have hpublish := d.publish_writes (some child) none (by simp) (by simp) (.inr rfl)
      (fun _ => rfl) child
    have hfill : Zones.insertAt (Zones.ofParts d.present.whole d.absent.rest)
        (c.search child.name).present.index (.present child) =
        Zones.ofParts (d.present.fill child) d.absent.rest := by
      rw [d.present_index, ← d.present.rest_eq_whole hp, Zones.insertAt_present]
    cases ha : d.absent.hit with
    | some s =>
      simp only [d.absent_place, ha, Option.isSome_some, if_true]
      rw [d.slots_eq, Zones.eraseAt_absent d.absent ha, hfill]
      exact hpublish
    | none =>
      simp only [d.absent_place, ha, Option.isSome_none, Bool.false_eq_true, if_false]
      rw [d.slots_eq, ← d.absent.rest_eq_whole ha, hfill]
      exact hpublish

/-- Adding a child of an unknown name writes the slot of the name. -/
theorem insertIfUnknown_writes (h : c.Tidy) (child : Node) :
    Writes c child.name (c.insertIfUnknown child)
      (Effect.insertIfUnknown child (c.slotAt (c.policy.key child.name))) := by
  obtain ⟨d⟩ := h.exists_cuts child.name
  have hslot := d.slotAt_key
  rw [insertIfUnknown, d.knowledgeAt_eq, hslot]
  cases hp : d.present.hit with
  | some kept =>
    rw [hp] at hslot
    rw [d.absent_hit_eq_none hp]
    exact writes_self h hslot _
  | none =>
    cases ha : d.absent.hit with
    | some s =>
      have hunloaded : c.allLoaded = false := by
        refine Bool.eq_false_iff.mpr fun hl => ?_
        rw [d.absent_hit_of_loaded hl] at ha
        cases ha
      rw [hp, ha] at hslot
      simp only [Option.isSome_some, if_true, hunloaded, Bool.false_eq_true, if_false]
      exact writes_self h hslot _
    | none =>
      -- whether the listing is complete or not, the child is added
      have hpublish := d.publish_writes (some child) none (by simp) (by simp) (.inr rfl)
        (fun _ => rfl) (Knowledge.present child)
      have hslots : Zones.insertAt c.slots (c.search child.name).present.index
          (.present child) = Zones.ofParts (d.present.fill child) d.absent.rest := by
        rw [d.present_index, d.slots_eq, ← d.present.rest_eq_whole hp, Zones.insertAt_present,
          d.absent.rest_eq_whole ha]
      rw [hslots]
      cases hl : c.allLoaded <;> exact hpublish

/-- Recording an absence writes the slot of the name. -/
theorem insertAbsent_writes (h : c.Tidy) (free : String) :
    Writes c free (c.insertAbsent free)
      (Effect.insertAbsent c.allLoaded free (c.slotAt (c.policy.key free))) := by
  obtain ⟨d⟩ := h.exists_cuts free
  have hslot := d.slotAt_key
  unfold insertAbsent Effect.insertAbsent
  split
  · exact writes_self h rfl _
  · simp only [d.knowledgeAt_eq, hslot]
    cases hp : d.present.hit with
    | some kept =>
      rw [hp] at hslot
      rw [d.absent_hit_eq_none hp]
      exact writes_self h hslot _
    | none =>
      cases ha : d.absent.hit with
      | some s =>
        rw [hp, ha] at hslot
        exact writes_self h hslot _
      | none =>
        rw [hp, ha] at hslot
        cases hl : c.allLoaded with
        | true => exact writes_self h hslot _
        | false =>
          have hpublish := d.publish_writes none (some free) (by simp) (by simp) (.inl rfl)
            (by simp [hl]) Knowledge.absent
          have hslots : Zones.insertAt c.slots (d.present.whole.length + d.absent.front.length)
              (.absent free) = Zones.ofParts d.present.rest (d.absent.fill free) := by
            rw [d.slots_eq, ← d.absent.rest_eq_whole ha, Zones.insertAt_absent,
              d.present.rest_eq_whole hp]
          simp only [d.absent_place, ha, Option.isSome_none, Bool.false_eq_true, if_false, hslots,
            Option.map_none, Option.or_none]
          exact hpublish

/-- Recording an absent name at an empty cut, when the children are already what they will be,
puts the name into the cut. The position is searched for again, as the removal of a child has
moved it. -/
theorem insertAt_searched {policy : CasePolicy} (cp : Cut policy wanted Node)
    (ca : Cut policy wanted String) (ha : ca.hit = none) :
    Zones.insertAt (Zones.ofParts cp.whole ca.whole)
      (Zones.search policy (Zones.ofParts cp.whole ca.whole) wanted).absent.index
      (.absent wanted) = Zones.ofParts cp.whole (ca.fill wanted) := by
  rw [Zones.search_ofParts, Cut.place_index, ← ca.rest_eq_whole ha, Zones.insertAt_absent]

/-- Removing a child writes the slot of its name. -/
theorem remove_writes (h : c.Tidy) (child : Node) (remember : Bool) :
    Writes c child.name (c.remove child remember)
      (Effect.remove c.allLoaded child remember (c.slotAt (c.policy.key child.name))) := by
  obtain ⟨d⟩ := h.exists_cuts child.name
  have hslot := d.slotAt_key
  have hisNone : (c.search child.name).present.index?.isNone = d.present.hit.isNone := by
    rw [d.search_eq, ← Option.not_isSome, Cut.place_index?_isSome, Option.not_isSome]
  have habsent : (c.search child.name).absent.index?.isNone = d.absent.hit.isNone := by
    rw [d.search_eq, ← Option.not_isSome, Cut.place_index?_isSome, Option.not_isSome]
  simp only [remove, d.foundChild?_eq, hisNone, habsent, hslot]
  cases hp : d.present.hit with
  | some kept =>
    have ha := d.absent_hit_eq_none hp
    rw [hp] at hslot
    rw [ha]
    by_cases hid : kept.id = child.id
    · -- the child goes, and its place among the absent names is searched for again
      have herase : Zones.eraseAt c.slots (c.search child.name).present.index =
          Zones.ofParts (d.present.put none (by simp)).whole d.absent.whole := by
        rw [d.present_index, d.slots_eq, Zones.eraseAt_present d.present hp]
        rfl
      have hremembered (hl : c.allLoaded = false) := d.publish_writes none (some child.name)
        (by simp) (by simp) (.inl rfl) (by simp [hl]) true
      have hforgotten := d.publish_writes none none (by simp) (by simp) (.inl rfl)
        (fun _ => rfl) true
      simp only [hid, Option.map_some, Option.some_or, decide_true, if_true, Bool.true_or,
        Bool.and_true, Option.isNone_none, herase, insertAt_searched _ _ ha, Effect.remove]
      cases hr : remember && !c.allLoaded with
      | true =>
        simp only [Bool.and_eq_true, Bool.not_eq_true'] at hr
        exact hremembered hr.2
      | false =>
        rw [d.absent.rest_eq_whole ha |>.symm]
        exact hforgotten
    · simp only [hid, Option.map_some, Option.some_or, decide_false, Option.isNone_some,
        Bool.or_false, Bool.and_false, Bool.false_and, Bool.false_eq_true, if_false, Effect.remove]
      exact writes_self h hslot _
  | none =>
    cases ha : d.absent.hit with
    | some s =>
      rw [hp, ha] at hslot
      simp only [Option.isNone_some, Bool.and_false, Bool.false_eq_true, if_false]
      exact writes_self h hslot _
    | none =>
      rw [hp, ha] at hslot
      have hremembered (hl : c.allLoaded = false) := d.publish_writes none (some child.name)
        (by simp) (by simp) (.inl rfl) (by simp [hl]) false
      have hslots : Zones.insertAt c.slots
          (Zones.search c.policy c.slots child.name).absent.index (.absent child.name) =
          Zones.ofParts d.present.rest (d.absent.fill child.name) := by
        rw [d.slots_eq, insertAt_searched _ _ ha, d.present.rest_eq_whole hp]
      simp only [Option.isNone_none, Bool.or_true, Bool.and_true, Bool.false_eq_true, if_false,
        hslots, Option.map_none, Option.or_none, Effect.remove]
      cases hr : remember && !c.allLoaded with
      | true =>
        simp only [Bool.and_eq_true, Bool.not_eq_true'] at hr
        exact hremembered hr.2
      | false => exact writes_self h hslot _

end Children

end LazyTree
