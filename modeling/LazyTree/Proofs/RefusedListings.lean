import LazyTree.Proofs.Publishing

set_option autoImplicit false

/-!
# Refused listings

A listing that comes in time either becomes the array of its directory, or it is refused because two
neighbours are not in order. A refusal leaves the array and the count alone, but not the flag: the
old array is taken for a complete listing from then on. Names of which nothing was known then count
as absent, and unless no absence had been recorded, the array breaks a rule until it is replaced.

## Main definitions

* `LazyTree.Children.presumed` — an array that is taken for a complete listing.
* `LazyTree.Children.Presumption` — what that makes of a tidy array.

## Main results

* `LazyTree.Children.apply_presumed` — a change restores the rules, or changes nothing.
* `LazyTree.Children.install_outcome` — the three ends of an installation, and what each leaves.
-/

namespace LazyTree.Children

variable {c : Children} {listing : List Node}

/-- The same array and count, taken for a complete listing. -/
def presumed (c : Children) : Children :=
  { c with allLoaded := true }

/-- What a tidy array becomes when it is taken for a complete listing. -/
structure Presumption (c : Children) : Prop where
  /-- Nothing becomes different only if it was a complete listing before. -/
  eq_self_iff : c.presumed = c ↔ c.allLoaded = true
  /-- The rules are satisfied only if no absence is recorded. -/
  tidy_iff : c.presumed.Tidy ↔ c.absentNames = []
  /-- A name of which nothing was known counts as absent. -/
  find : ∀ name, c.presumed.find name = if c.find name = .unknown then .absent else c.find name
  /-- Beside a recorded absence, no child can be added under a name of which nothing was known. -/
  insert : c.absentNames ≠ [] → ∀ child, c.find child.name = .unknown →
    c.presumed.insert child = (.error (.absentWhileLoaded c.absentNames.length), c.presumed)
  /-- A change leaves a tidy array, or changes nothing. -/
  apply : ∀ op, (c.presumed.apply op).2 = c.presumed ∨ (c.presumed.apply op).2.Tidy

/-! ### The listing and the checker -/

/-- An array of children is tidy exactly if they are in strictly ascending order. -/
theorem tidy_listing_iff {policy : CasePolicy} {allLoaded : Bool} :
    Zones.Tidy policy allLoaded (listing.map Slot.present).toArray ↔ Ascending policy listing := by
  rw [Zones.toArray_present]
  refine ⟨fun h => ?_, fun h => Zones.Orderly.tidy ⟨h, .nil, nofun⟩ fun _ => rfl⟩
  obtain ⟨ps, as, hparts, horderly, -⟩ := h.exists_parts
  have hchildren :
      Zones.children (Zones.ofParts listing []) = Zones.children (Zones.ofParts ps as) :=
    congrArg Zones.children hparts
  rw [Zones.children_ofParts, Zones.children_ofParts] at hchildren
  subst hchildren
  exact horderly.present_ascending

/-- All that the checker may have against an array of children is that two neighbours are not in
order. -/
theorem inconsistency?_listing (policy : CasePolicy) (allLoaded : Bool) (listing : List Node) :
    Zones.inconsistency? policy allLoaded (listing.map Slot.present).toArray =
      Zones.disorder? policy 1 (listing.map Slot.present) := by
  have hboundary : (listing.map (Slot.present (ν := Node))).findIdx Slot.isAbsent =
      listing.length := by
    rw [← Zones.findIdx_isAbsent_parts listing [], List.map_nil, List.append_nil]
  have hstray : Zones.strayChild? 0 false (listing.map (Slot.present (ν := Node))) = none := by
    rw [← Zones.strayChild?_parts listing [] 0, List.map_nil, List.append_nil]
  have hshadow : Zones.shadow? policy (listing.map Slot.present).toArray listing.length = none := by
    rw [Zones.shadow?, List.drop_of_length_le (by simp)]
    rfl
  rw [Zones.inconsistency?, hboundary, hstray, hshadow]
  cases Zones.disorder? policy 1 (listing.map Slot.present) <;> simp

/-- A listing that is not in strictly ascending order is refused, if the count is the given one. -/
theorem install_of_not_ascending (hlisting : ¬ Ascending c.policy listing) :
    ∃ broken, Zones.disorder? c.policy 1 (listing.map Slot.present) = some broken ∧
      c.install listing c.generation = (.error broken, c.presumed) := by
  cases hbroken : Zones.disorder? c.policy 1 (listing.map Slot.present) with
  | none =>
    rw [← inconsistency?_listing c.policy true, Zones.inconsistency?_eq_none_iff,
      tidy_listing_iff] at hbroken
    exact absurd hbroken hlisting
  | some broken =>
    refine ⟨broken, rfl, ?_⟩
    rw [install, if_neg (not_not_intro rfl), publish, inconsistency?_listing, hbroken]
    rfl

/-! ### The array that is left -/

/-- An array is taken for a complete listing that it was before, exactly if it was one. -/
theorem presumed_eq_self_iff : c.presumed = c ↔ c.allLoaded = true := by
  constructor
  · intro h
    rw [← h]
    rfl
  · intro h
    rw [presumed, ← h]

/-- A tidy array may be taken for a complete listing exactly if no absence is recorded. -/
theorem tidy_presumed_iff (h : c.Tidy) : c.presumed.Tidy ↔ c.absentNames = [] := by
  obtain ⟨ps, as, hslots, horderly, -⟩ := h.exists_parts
  have habsent : c.absentNames = as := by rw [absentNames, hslots, Zones.absentNames_ofParts]
  rw [habsent]
  constructor
  · intro hpresumed
    refine List.eq_nil_iff_forall_not_mem.mpr fun a ha => ?_
    have hslot : Slot.absent a ∈ c.presumed.slots := hslots ▸ Zones.absent_mem_ofParts.mpr ha
    cases hpresumed.none_absent rfl _ hslot
  · rintro rfl
    rw [Tidy, presumed, hslots]
    exact horderly.tidy fun _ => rfl

/-- A name of which nothing is known counts as absent in an array that is taken for a complete
listing, and every other name is answered as before. -/
theorem find_presumed (name : String) :
    c.presumed.find name = if c.find name = .unknown then .absent else c.find name := by
  have hat : ∀ places, c.presumed.knowledgeAt places =
      if c.knowledgeAt places = .unknown then .absent else c.knowledgeAt places := by
    intro places
    have hchild : (places.present.index?.bind fun i => c.presumed.slots[i]?.bind Slot.child?) =
        places.present.index?.bind fun i => c.slots[i]?.bind Slot.child? := rfl
    rw [knowledgeAt, knowledgeAt, hchild]
    cases places.absent.index?.isSome with
    | true => rfl
    | false =>
      cases places.present.index?.bind fun i => c.slots[i]?.bind Slot.child? with
      | some child => rfl
      | none => cases c.allLoaded <;> rfl
  unfold find
  split
  · rfl
  · exact hat _

/-- A change of an array that is taken for a complete listing leaves a tidy one, or changes nothing.
So the array breaks no other rule than before, and none after the first change that is made. -/
theorem apply_presumed (c : Children) (op : Op) :
    (c.presumed.apply op).2 = c.presumed ∨ (c.presumed.apply op).2.Tidy := by
  rcases apply_eq_self_or_publish c.presumed op with ⟨answer, hself⟩ | ⟨slots, answer, hpublish⟩
  · exact .inl (congrArg Prod.snd hself)
  · by_cases hclear : op = .clear
    · subst hclear
      exact .inr (clear_follows c.presumed).tidy
    · have hflagged : c.presumed.flagged op = c.presumed := by
        cases op <;> first | rfl | exact absurd rfl hclear
      rw [hpublish, hflagged, publish]
      split
      · exact .inl rfl
      · next hpassed => exact .inr (Zones.inconsistency?_eq_none_iff.mp hpassed)

/-- If an absence is recorded in an array that is taken for a complete listing, then no child can be
added under a name of which nothing is known. -/
theorem insert_presumed (h : c.Tidy) (habsent : c.absentNames ≠ []) {child : Node}
    (hchild : c.find child.name = .unknown) :
    c.presumed.insert child =
      (.error (.absentWhileLoaded c.absentNames.length), c.presumed) := by
  obtain ⟨d⟩ := h.exists_cuts child.name
  have hnames : c.absentNames = d.absent.whole := by
    rw [absentNames, d.slots_eq, Zones.absentNames_ofParts]
  have hanswer := find_eq h child.name
  have hunknown : c.ledger.answer child.name = .unknown := by
    rw [hchild] at hanswer
    split at hanswer
    · cases hanswer
    · exact hanswer.symm
  have hnone : d.present.hit = none ∧ d.absent.hit = none := by
    have hfact : c.ledger.fact? child.name = _ := d.factAt_key
    rw [Ledger.fact?_of_answer_unknown hunknown] at hfact
    cases hp : d.present.hit <;> cases ha : d.absent.hit <;> simp [hp, ha] at hfact ⊢
  obtain ⟨hpresent, hgap⟩ := hnone
  have hslots : Zones.insertAt c.slots (c.search child.name).present.index (.present child) =
      Zones.ofParts (d.present.fill child) d.absent.rest := by
    rw [d.slots_eq, d.present_index, ← d.present.rest_eq_whole hpresent,
      ← d.absent.rest_eq_whole hgap, Zones.insertAt_present]
  have horderly : Zones.Orderly c.policy (d.present.fill child) d.absent.rest :=
    d.orderly_put (some child) none (by simp) (by simp) (.inr rfl)
  rw [hnames, ← d.absent.rest_eq_whole hgap] at habsent ⊢
  have hfound : c.presumed.foundChild? (c.presumed.search child.name) = none :=
    d.foundChild?_eq.trans hpresent
  have hplace : (c.presumed.search child.name).absent =
      .gap (d.present.whole.length + d.absent.front.length) := by
    have hsearch : (c.presumed.search child.name).absent = _ := d.absent_place
    rw [hsearch, hgap]
    rfl
  have hbroken : Zones.inconsistency? c.presumed.policy c.presumed.allLoaded
      (Zones.insertAt c.presumed.slots (c.presumed.search child.name).present.index
        (.present child)) = some (.absentWhileLoaded d.absent.rest.length) := by
    rw [← horderly.inconsistency?_of_absent habsent, ← hslots]
    rfl
  rw [insert]
  simp only [hfound, hplace]
  rw [publish, hbroken]

/-! ### The ends of an installation -/

/-- Installing a listing has one of three ends. It is turned down if changes were published since,
and then nothing is changed. In time it becomes the array exactly if it is in strictly ascending
order. Otherwise it is refused, and the array that is left is the old one with the flag of a
complete listing, which is the state before only if the flag was set already.

**Proof sketch.** The flag is set before the listing is given to the checker. A listing has no
absent names, so the checker tells only whether it is in order; and if it objects, the flag
stays. -/
theorem install_outcome (h : c.Tidy) (listing : List Node) (generation : Nat) :
    (c.generation ≠ generation ∧ c.install listing generation = (.ok false, c)) ∨
      (c.generation = generation ∧ Ascending c.policy listing ∧
        c.install listing generation = (.ok true,
          { c with slots := (listing.map Slot.present).toArray, allLoaded := true,
                   generation := c.generation + 1 })) ∨
      (c.generation = generation ∧ ¬ Ascending c.policy listing ∧ c.Presumption ∧
        ∃ broken, Zones.disorder? c.policy 1 (listing.map Slot.present) = some broken ∧
          c.install listing generation = (.error broken, c.presumed)) := by
  by_cases hgeneration : c.generation = generation
  · subst hgeneration
    by_cases hlisting : Ascending c.policy listing
    · exact .inr (.inl ⟨rfl, hlisting, install_of_ascending h hlisting⟩)
    · have hpresumption : c.Presumption :=
        ⟨presumed_eq_self_iff, tidy_presumed_iff h, find_presumed,
          fun habsent _ hchild => insert_presumed h habsent hchild, apply_presumed c⟩
      exact .inr (.inr ⟨rfl, hlisting, hpresumption, install_of_not_ascending hlisting⟩)
  · exact .inl ⟨hgeneration, if_pos hgeneration⟩

namespace Misread

/-- A child of the directory. -/
def known : Node :=
  ⟨2, ⟨2, FileId.raw_two_ne_zero⟩, "m", some ⟨1, FileId.raw_one_ne_zero⟩, default⟩

/-- The children of a listing whose names are not in order. -/
def reversed : List Node :=
  [⟨4, ⟨3, FileId.raw_three_ne_zero⟩, "b", some ⟨1, FileId.raw_one_ne_zero⟩, default⟩,
    ⟨5, ⟨2, FileId.raw_two_ne_zero⟩, "a", some ⟨1, FileId.raw_one_ne_zero⟩, default⟩]

/-- A directory in which one child is known, and the absence of one name. -/
def before : Children :=
  ⟨.sensitive, Zones.ofParts [known] ["x"], false, 2⟩

/-- The array of the directory is tidy. -/
theorem tidy_before : before.Tidy := by
  refine Zones.Orderly.tidy ⟨List.pairwise_singleton _ _, List.pairwise_singleton _ _, ?_⟩ nofun
  simp only [List.mem_singleton, forall_eq]
  decide

/-- The listing is refused. -/
theorem install_before :
    before.install reversed 2 = (.error (.unsorted 1 "a"), before.presumed) := by
  decide

/-- The three ends, for a listing that is refused. -/
theorem install_outcome_before :
    before.Tidy ∧ ((before.generation ≠ 2 ∧ before.install reversed 2 = (.ok false, before)) ∨
      (before.generation = 2 ∧ Ascending before.policy reversed ∧
        before.install reversed 2 = (.ok true,
          { before with slots := (reversed.map Slot.present).toArray, allLoaded := true,
                        generation := before.generation + 1 })) ∨
      (before.generation = 2 ∧ ¬ Ascending before.policy reversed ∧ before.Presumption ∧
        ∃ broken, Zones.disorder? before.policy 1 (reversed.map Slot.present) = some broken ∧
          before.install reversed 2 = (.error broken, before.presumed))) :=
  ⟨tidy_before, install_outcome tidy_before reversed 2⟩

/-- A refusal need not leave everything as it was, nor an array that satisfies the rules. -/
theorem not_install_atomic :
    ¬ ∀ (c : Children), c.Tidy → ∀ (listing : List Node) (generation : Nat) (broken : Inconsistency)
      (c' : Children), c.install listing generation = (.error broken, c') → c' = c ∧ c'.Tidy := by
  intro h
  obtain ⟨hsame, -⟩ := h before tidy_before reversed 2 _ _ install_before
  exact Bool.noConfusion (presumed_eq_self_iff.mp hsame)

end Misread

end LazyTree.Children
