import LazyTree.Proofs.ChildrenRuns

set_option autoImplicit false

/-!
# Changes of different names commute

A change of one name reads and writes the slot of that name only. So two changes of different names
do not see each other: in either order both give the answers that they would give alone, and the
array, the flag and the count at the end are the same. By swapping neighbours this carries over to
any number of changes of different names, in whatever order they got hold of the directory.

## Main definitions

* `LazyTree.Children.Op.effect?` — what a change of one name does to the slot of the name.
* `LazyTree.Children.Op.Apart` — two changes are about different names.

## Main results

* `LazyTree.Children.apply_writes` — a change of one name writes the slot of that name.
* `LazyTree.Children.changes_commute` — two changes of different names commute.
* `LazyTree.Children.run_perm` — the order of any number of such changes does not matter.
-/

namespace LazyTree.Children

namespace Op

/-- What a change of one name does to the slot of the name. -/
def effect? (complete : Bool) (slot : Option (Slot Node)) : (op : Op) → Option (Effect op.Answer)
  | insert child => some (.insert child slot)
  | insertIfUnknown child => some (.insertIfUnknown child slot)
  | insertAbsent free => some (.insertAbsent complete free slot)
  | remove child remember => some (.remove complete child remember slot)
  | markAllLoaded | install _ _ | clear => none

/-- Two changes are about different names. -/
def Apart (policy : CasePolicy) (a b : Op) : Prop :=
  ∃ x y, a.subject? = some x ∧ b.subject? = some y ∧ policy.key x ≠ policy.key y

/-- If one change is apart from another, then the other is apart from it. -/
theorem Apart.symm {policy : CasePolicy} {a b : Op} (h : Apart policy a b) : Apart policy b a := by
  obtain ⟨x, y, hx, hy, hkey⟩ := h
  exact ⟨y, x, hy, hx, hkey.symm⟩

end Op

variable {c : Children} {a b op : Op} {x y : String}

/-- A change of one name writes the slot of that name. -/
theorem apply_writes (h : c.Tidy) (hop : op.subject? = some x) :
    ∃ effect, op.effect? c.allLoaded (c.slotAt (c.policy.key x)) = some effect ∧
      Writes c x (c.apply op) effect := by
  cases op with
  | insert child =>
    obtain rfl : child.name = x := Option.some.inj hop
    exact ⟨_, rfl, insert_writes h child⟩
  | insertIfUnknown child =>
    obtain rfl : child.name = x := Option.some.inj hop
    exact ⟨_, rfl, insertIfUnknown_writes h child⟩
  | insertAbsent free =>
    obtain rfl : free = x := Option.some.inj hop
    exact ⟨_, rfl, insertAbsent_writes h free⟩
  | remove child remember =>
    obtain rfl : child.name = x := Option.some.inj hop
    exact ⟨_, rfl, remove_writes h child remember⟩
  | markAllLoaded => cases hop
  | install listing generation => cases hop
  | clear => cases hop

/-- The slots of the names, the flag and the count determine a directory. -/
theorem Tidy.eq_of_slotAt {c' : Children} (h : c.Tidy) (h' : c'.Tidy)
    (hpolicy : c'.policy = c.policy) (hslots : c'.slotAt = c.slotAt)
    (hloaded : c'.allLoaded = c.allLoaded) (hgeneration : c'.generation = c.generation) :
    c' = c := by
  have hsame := h.slots_eq h' hpolicy hslots
  cases c
  cases c'
  cases hpolicy
  cases hsame
  cases hloaded
  cases hgeneration
  rfl

/-- A change of one name does not see what another change does to the slot of another name. -/
theorem Writes.next {α : Type} {change : Change α} {effect : Effect α}
    (h : Writes c x change effect) (hop : op.subject? = some y)
    (hkey : c.policy.key y ≠ c.policy.key x) {next : Effect op.Answer}
    (hnext : op.effect? c.allLoaded (c.slotAt (c.policy.key y)) = some next) :
    Writes change.2 y (change.2.apply op) next := by
  obtain ⟨found, hfound, hwrites⟩ := apply_writes h.tidy hop
  rw [h.allLoaded, h.slotAt, h.policy, Function.update_of_ne hkey, hnext] at hfound
  rwa [Option.some.inj hfound]

/-- Two changes of different names commute: in either order they give the same answers and leave
the same directory.

**Proof sketch.** The effect of the second change is the effect that it would have alone, as the
first one writes another slot. So either order leaves both slots written and both changes counted,
and the slots of the names determine the array. -/
theorem Tidy.commute (h : c.Tidy) (hapart : Op.Apart c.policy a b) :
    ∃ answerA answerB ca cb c', c.apply a = (.ok answerA, ca) ∧ ca.apply b = (.ok answerB, c') ∧
      c.apply b = (.ok answerB, cb) ∧ cb.apply a = (.ok answerA, c') := by
  obtain ⟨x, y, hx, hy, hkey⟩ := hapart
  obtain ⟨effectA, heffectA, ha⟩ := apply_writes h hx
  obtain ⟨effectB, heffectB, hb⟩ := apply_writes h hy
  have hab := ha.next hy hkey.symm heffectB
  have hba := hb.next hx hkey heffectA
  have hend : ((c.apply b).2.apply a).2 = ((c.apply a).2.apply b).2 := by
    refine hab.tidy.eq_of_slotAt hba.tidy ?_ ?_ ?_ ?_
    · rw [hba.policy, hb.policy, hab.policy, ha.policy]
    · rw [hba.slotAt, hb.slotAt, hab.slotAt, ha.slotAt, hb.policy, ha.policy,
        Function.update_comm hkey]
    · rw [hba.allLoaded, hb.allLoaded, hab.allLoaded, ha.allLoaded]
    · rw [hba.generation, hb.generation, hab.generation, ha.generation, Nat.add_right_comm]
  exact ⟨effectA.answer, effectB.answer, (c.apply a).2, (c.apply b).2, ((c.apply a).2.apply b).2,
    Prod.ext ha.answer rfl, Prod.ext hab.answer rfl, Prod.ext hb.answer rfl,
    Prod.ext hba.answer hend⟩

/-- Changes of different names commute on every directory whose array satisfies all rules: none of
them is refused, in either order they give the same answers, and they leave the same array, the
same flag and the same count. What such an array holds determines how it is laid out. -/
theorem changes_commute (h : Zones.Tidy c.policy c.allLoaded c.slots) (ha : a.subject? = some x)
    (hb : b.subject? = some y) (hxy : c.policy.same x y = false) :
    (∃ answerA answerB ca cb c', c.apply a = (.ok answerA, ca) ∧ ca.apply b = (.ok answerB, c') ∧
      c.apply b = (.ok answerB, cb) ∧ cb.apply a = (.ok answerA, c')) ∧
    ∀ d : Children, Zones.Tidy d.policy d.allLoaded d.slots → d.policy = c.policy →
      (∀ slot, slot ∈ d.slots ↔ slot ∈ c.slots) → d.slots = c.slots := by
  have htidy : c.Tidy := h
  exact ⟨htidy.commute ⟨x, y, ha, hb, CasePolicy.same_eq_false_iff.mp hxy⟩,
    fun d hd hpolicy hmem => htidy.slots_eq_of_mem_iff hd hpolicy hmem⟩

/-- A removal that is remembered and the arrival of a child whose absence was recorded under another
spelling. The one takes a slot from the front zone and puts one into the back zone, the other the
other way round. -/
theorem changes_commute_across_zones :
    let gone : Node := ⟨1, ⟨5, by decide⟩, "Mole", some ⟨1, by decide⟩, default⟩
    let come : Node := ⟨2, ⟨6, by decide⟩, "Adder", some ⟨1, by decide⟩, default⟩
    let c : Children := ⟨.insensitive, #[.present gone, .absent "adder"], false, 7⟩
    Zones.Tidy c.policy c.allLoaded c.slots ∧ c.policy.same gone.name come.name = false ∧
      ∃ answerA answerB ca cb c', c.apply (.remove gone true) = (.ok answerA, ca) ∧
        ca.apply (.insert come) = (.ok answerB, c') ∧ c.apply (.insert come) = (.ok answerB, cb) ∧
        cb.apply (.remove gone true) = (.ok answerA, c') := by
  intro gone come c
  have htidy : Zones.Tidy c.policy c.allLoaded c.slots := by
    refine Zones.tidy_iff.mpr ⟨[gone], ["adder"], rfl, ⟨?_, ?_, ?_⟩, nofun⟩
    · exact List.pairwise_singleton _ gone
    · exact List.pairwise_singleton _ "adder"
    · simp only [List.mem_singleton, forall_eq]
      decide
  have hapart : c.policy.same gone.name come.name = false := by decide
  have hcommute := changes_commute (a := .remove gone true) (b := .insert come) htidy rfl rfl hapart
  exact ⟨htidy, hapart, hcommute.1⟩

/-- A run of changes goes on from what its first change leaves. -/
theorem Writes.run_cons {effect : Effect op.Answer} (h : Writes c x (c.apply op) effect)
    (ops : List Op) : c.run (op :: ops) = (c.apply op).2.run ops := by
  have happly : c.apply op = (.ok effect.answer, (c.apply op).2) := Prod.ext h.answer rfl
  rw [run, happly]

/-- The order of changes of different names does not matter, however many there are. -/
theorem run_perm (h : c.Tidy) {ops ops' : List Op} (hperm : ops.Perm ops')
    (hnamed : ∀ op ∈ ops, ∃ x, op.subject? = some x) (hapart : ops.Pairwise (Op.Apart c.policy)) :
    c.run ops = c.run ops' := by
  induction hperm generalizing c with
  | nil => rfl
  | cons op hperm ih =>
    obtain ⟨⟨x, hx⟩, hnamed⟩ := List.forall_mem_cons.mp hnamed
    obtain ⟨effect, -, hwrites⟩ := apply_writes h hx
    rw [hwrites.run_cons, hwrites.run_cons]
    exact ih hwrites.tidy hnamed (hwrites.policy ▸ hapart.of_cons)
  | swap b a ops =>
    obtain ⟨answerA, answerB, ca, cb, c', ha, hab, hb, hba⟩ :=
      h.commute (List.rel_of_pairwise_cons hapart List.mem_cons_self)
    simp only [run, ha, hab, hb, hba]
  | trans hfirst hsecond ih ih' =>
    rw [ih h hnamed hapart]
    exact ih' h (fun op hop => hnamed op (hfirst.mem_iff.mpr hop))
      (hapart.perm hfirst Op.Apart.symm)

end LazyTree.Children
