import LazyTree.Proofs.Recording
import Mathlib.Logic.Relation

set_option autoImplicit false

/-!
# Published changes

A directory counts the changes of its array that are published. Whether a change is published can be
told from the ledger: adding a child whose name is taken, recording a name of which something is
known, or removing a child that is not there publishes nothing. A change that publishes nothing
leaves the array, the flag and the count as they are, and any other makes the count one greater. So
a directory with an old count is the old one, whatever has happened in between, also if children
came and went again.

## Main definitions

* `LazyTree.Ledger.Publishes` — a change is published.
* `LazyTree.Tree.Published` — a change of the array of a directory is published.
* `LazyTree.Tree.Undisturbed`, `LazyTree.Tree.Disturbed` — no change of a directory was published,
  or some change was.

## Main results

* `LazyTree.Children.generation_apply`, `LazyTree.Children.apply_eq_self` — what a change does to
  the count and to the array.
* `LazyTree.Children.install_of_ascending` — a listing is installed, if the count is the given one.
* `LazyTree.Tree.Happens.undisturbed_iff` — whatever happens is one or the other.
* `LazyTree.Tree.Undisturbed.children?`, `LazyTree.Tree.Disturbed.generation_lt` — the array is the
  same, or the count is greater.
-/

namespace LazyTree

namespace Ledger

/-- A change is published. -/
def Publishes (l : Ledger) : Children.Op → Prop
  | .insert child => ∀ kept, l.fact? child.name ≠ some (.present kept)
  | .insertIfUnknown child => l.fact? child.name = none
  | .insertAbsent name => name.isEmpty = false ∧ l.fact? name = none ∧ l.complete = false
  | .remove child remember =>
    (∃ kept, l.fact? child.name = some (.present kept) ∧ kept.id = child.id) ∨
      l.fact? child.name = none ∧ remember = true ∧ l.complete = false
  | .install _ changes => l.changes = changes
  | .markAllLoaded | .clear => True

variable {l : Ledger} {op : Children.Op}

/-- A change that is published is counted. -/
theorem changes_apply (h : l.Publishes op) : (l.apply op).2.changes = l.changes + 1 := by
  cases op with
  | insert child =>
    rw [apply, insert]
    split
    · next kept hfact => exact absurd hfact (h kept)
    · rfl
  | insertIfUnknown child =>
    have hfact : l.fact? child.name = none := h
    rw [apply, insertIfUnknown, hfact]
    rfl
  | insertAbsent name =>
    obtain ⟨hname, hfact, hcomplete⟩ := h
    rw [apply, insertAbsent, hname, hfact, hcomplete]
    rfl
  | remove child remember =>
    rw [apply, remove]
    rcases h with ⟨kept, hfact, hid⟩ | ⟨hfact, rfl, hcomplete⟩
    · simp only [hfact, hid, if_true]
      rfl
    · rw [hfact, hcomplete]
      rfl
  | markAllLoaded => rfl
  | install listing changes =>
    have hchanges : ¬ l.changes ≠ changes := not_not_intro h
    rw [apply, install, if_neg hchanges]
  | clear => rfl

/-- A change that is not published leaves the ledger as it is. -/
theorem apply_eq_self (h : ¬ l.Publishes op) : (l.apply op).2 = l := by
  cases op with
  | insert child =>
    rw [apply, insert]
    split
    · rfl
    · next hfact => exact absurd hfact h
  | insertIfUnknown child =>
    rw [apply, insertIfUnknown]
    split
    · rfl
    · rfl
    · next hfact => exact absurd hfact h
  | insertAbsent name =>
    rw [apply, insertAbsent]
    split
    · rfl
    · next hname =>
      split
      · rfl
      · rfl
      · next hfact =>
        refine if_pos (Bool.of_not_eq_false fun hcomplete => h ⟨?_, hfact, hcomplete⟩)
        exact Bool.eq_false_iff.mpr hname
  | remove child remember =>
    rw [apply, remove]
    split
    · next kept hfact =>
      exact congrArg Prod.snd (if_neg fun hid => h (.inl ⟨kept, hfact, hid⟩))
    · rfl
    · next hfact =>
      refine if_neg fun hremembered => h (.inr ⟨hfact, ?_⟩)
      cases remember <;> cases hcomplete : l.complete <;> simp_all
  | markAllLoaded => exact absurd trivial h
  | install listing changes => exact congrArg Prod.snd (if_pos h)
  | clear => exact absurd trivial h

end Ledger

namespace Children

variable {c : Children} {op : Op}

/-- An array that is published without an objection is the new one. -/
theorem publish_of_ok {α : Type} {slots : Zones Node} {answer given : α}
    (h : (c.publish slots answer).1 = .ok given) :
    (c.publish slots answer).2 = { c with slots := slots, generation := c.generation + 1 } := by
  unfold publish at *
  cases hbroken : Zones.inconsistency? c.policy c.allLoaded slots with
  | none => rfl
  | some broken =>
    rw [hbroken] at h
    cases h

/-- An array with the flag that a change sets before it publishes. -/
def flagged (c : Children) : Op → Children
  | .markAllLoaded | .install _ _ => { c with allLoaded := true }
  | .clear => { c with allLoaded := false }
  | .insert _ | .insertIfUnknown _ | .insertAbsent _ | .remove _ _ => c

/-- A change answers and leaves everything as it is, or it sets the flag and then publishes an
array. -/
theorem apply_eq_self_or_publish (c : Children) (op : Op) :
    (∃ answer, c.apply op = (.ok answer, c)) ∨
      ∃ slots answer, c.apply op = (c.flagged op).publish slots answer := by
  cases op with
  | insert child =>
    rw [apply, insert]
    split
    · exact .inl ⟨_, rfl⟩
    · exact .inr ⟨_, _, rfl⟩
  | insertIfUnknown child =>
    rw [apply, insertIfUnknown]
    split
    · exact .inl ⟨_, rfl⟩
    · split
      · exact .inr ⟨_, _, rfl⟩
      · exact .inl ⟨_, rfl⟩
    · exact .inr ⟨_, _, rfl⟩
  | insertAbsent name =>
    rw [apply, insertAbsent]
    split
    · exact .inl ⟨_, rfl⟩
    · dsimp only
      split
      · exact .inl ⟨_, rfl⟩
      · exact .inl ⟨_, rfl⟩
      · split
        · exact .inl ⟨_, rfl⟩
        · exact .inr ⟨_, _, rfl⟩
  | remove child remember =>
    have hchoice : ∀ (recorded removed : Bool) (absent without : Zones Node),
        let after := if recorded then c.publish absent removed
          else if removed then c.publish without removed else (.ok removed, c)
        (∃ answer, after = (.ok answer, c)) ∨
          ∃ slots answer, after = c.publish slots answer := by
      intro recorded removed absent without
      dsimp only
      split
      · exact .inr ⟨_, _, rfl⟩
      · split
        · exact .inr ⟨_, _, rfl⟩
        · exact .inl ⟨_, rfl⟩
    exact hchoice ..
  | markAllLoaded => exact .inr ⟨_, _, rfl⟩
  | install listing generation =>
    rw [apply, install]
    split
    · exact .inl ⟨_, rfl⟩
    · exact .inr ⟨_, _, rfl⟩
  | clear => exact .inr ⟨#[], (), rfl⟩

/-- A change that is admissible leaves a tidy array as it is, or is counted. -/
theorem apply_eq_or (h : c.Tidy) (hop : op.Admissible c.policy) :
    (c.apply op).2 = c ∨ (c.apply op).2.generation = c.generation + 1 := by
  have hanswer := (apply_follows h hop).answer
  rcases apply_eq_self_or_publish c op with ⟨answer, hself⟩ | ⟨slots, answer, hpublish⟩
  · exact .inl (congrArg Prod.snd hself)
  · rw [hpublish] at hanswer ⊢
    refine .inr ((congrArg generation (publish_of_ok hanswer)).trans ?_)
    cases op <;> rfl

/-- A change that is published is counted. -/
theorem generation_apply (h : c.Tidy) (hop : op.Admissible c.policy)
    (hpublishes : c.ledger.Publishes op) : (c.apply op).2.generation = c.generation + 1 :=
  (congrArg Ledger.changes (apply_follows h hop).ledger).trans (Ledger.changes_apply hpublishes)

/-- A change that is not published leaves the array, the flag and the count as they are. -/
theorem apply_eq_self (h : c.Tidy) (hop : op.Admissible c.policy)
    (hpublishes : ¬ c.ledger.Publishes op) : (c.apply op).2 = c := by
  refine (apply_eq_or h hop).resolve_right fun hnext => ?_
  have hsame : (c.apply op).2.generation = c.generation :=
    (congrArg Ledger.changes (apply_follows h hop).ledger).trans
      (congrArg Ledger.changes (Ledger.apply_eq_self hpublishes))
  exact Nat.succ_ne_self _ (hnext.symm.trans hsame)

/-- A listing in strictly ascending order becomes the array, if the count is the given one. -/
theorem install_of_ascending (h : c.Tidy) {listing : List Node}
    (hlisting : Ascending c.policy listing) :
    c.install listing c.generation = (.ok true,
      { c with slots := (listing.map Slot.present).toArray, allLoaded := true,
               generation := c.generation + 1 }) := by
  have hop : Op.Admissible c.policy (.install listing c.generation) := hlisting
  have hledger : (c.ledger.apply (.install listing c.generation)).1 = true :=
    congrArg Prod.fst (if_neg (not_not_intro rfl))
  have hanswer : (c.install listing c.generation).1 = .ok true :=
    (apply_follows h hop).answer.trans (congrArg Except.ok hledger)
  refine Prod.ext hanswer ?_
  rw [install, if_neg (not_not_intro rfl)] at *
  exact publish_of_ok hanswer

/-- The nodes of a listing that becomes the array are the children from then on. -/
theorem present_install (h : c.Tidy) {listing : List Node}
    (hlisting : Ascending c.policy listing) :
    (c.apply (.install listing c.generation)).2.present = listing := by
  rw [apply, install_of_ascending h hlisting, present, Zones.toArray_present,
    Zones.children_ofParts]

end Children

namespace Tree

variable {t t' : Tree} {dir : Node} {c : Children}

/-- Any number of updates, one after the other. -/
abbrev Updates : Tree → Tree → Prop :=
  Relation.ReflTransGen Update

/-- A change of the array of a directory is published. -/
def Published (dir : Node) (t t' : Tree) : Prop :=
  ∃ (d : Node) (c : Children) (op : Children.Op), d.serial = dir.serial ∧
    t.children? d = some c ∧ op.Admissible t.policy ∧ c.ledger.Publishes op ∧
    t' = t.setChildren d (c.apply op).2

/-- Updates of which none published a change of a directory. -/
def Undisturbed (dir : Node) : Tree → Tree → Prop :=
  Relation.ReflTransGen fun t t' => Update t t' ∧ ¬ Published dir t t'

/-- Updates of which some published a change of a directory. -/
def Disturbed (dir : Node) (t t' : Tree) : Prop :=
  ∃ before after, Updates t before ∧ Published dir before after ∧ Updates after t'

/-- Updates keep what every update keeps. -/
theorem Stable.updates {policy : CasePolicy} {P : Tree → Prop} (h : Stable policy P)
    (hupdates : Updates t t') (ht : P t) : P t' := by
  induction hupdates with
  | refl => exact ht
  | tail _ hupdate ih => exact h.update _ _ hupdate ih

/-- Updates keep tidy arrays tidy. -/
theorem Updates.tidy (h : Updates t t') (ht : t.Tidy) : t'.Tidy :=
  ((stable_tidy t).updates h ⟨ht, .refl t⟩).1

/-- Publishing a change is an update. -/
theorem Published.update (h : Published dir t t') : Update t t' := by
  obtain ⟨d, c, op, -, hc, hop, -, rfl⟩ := h
  exact .change t d c op hc hop

/-- A change that is published is counted. -/
theorem Published.generation (h : Published dir t t') (ht : t.Tidy)
    (hc : t.children? dir = some c) :
    ∃ c', t'.children? dir = some c' ∧ c'.generation = c.generation + 1 := by
  obtain ⟨d, cd, op, hserial, hcd, hop, hpublishes, rfl⟩ := h
  obtain rfl : cd = c := Option.some.inj (hcd.symm.trans ((children?_congr hserial).trans hc))
  obtain ⟨hpolicy, htidy⟩ := ht d cd hcd
  refine ⟨(cd.apply op).2, ?_, Children.generation_apply htidy (hpolicy ▸ hop) hpublishes⟩
  rw [← children?_congr hserial]
  exact children?_setChildren_self hcd _

/-- An update that publishes no change of a directory leaves its array as it is. -/
theorem Update.children?_of_not_published (h : Update t t') (hnot : ¬ Published dir t t')
    (ht : t.Tidy) (hc : t.children? dir = some c) : t'.children? dir = some c := by
  cases h with
  | make parent id name attributes => exact children?_make_of_children? hc parent id name attributes
  | dirty dirty serial => rwa [children?_setDirty]
  | registry registry => exact hc
  | held held => exact hc
  | change d cd op hcd hop =>
    rw [children?_setChildren]
    split
    · next hserial =>
      obtain rfl : cd = c := Option.some.inj (hcd.symm.trans ((children?_congr hserial).trans hc))
      obtain ⟨hpolicy, htidy⟩ := ht d cd hcd
      rw [hc, Option.map_some, Children.apply_eq_self htidy (hpolicy ▸ hop)]
      exact fun hpublishes => hnot ⟨d, cd, op, hserial, hcd, hop, hpublishes, rfl⟩
    · exact hc

/-- No update makes the count of a directory smaller. -/
theorem Updates.generation_le (h : Updates t t') (ht : t.Tidy) (hc : t.children? dir = some c) :
    ∃ c', t'.children? dir = some c' ∧ c.generation ≤ c'.generation := by
  induction h with
  | refl => exact ⟨c, hc, Nat.le_refl _⟩
  | @tail m m' hm hupdate ih =>
    obtain ⟨c', hc', hle⟩ := ih
    have htidy := Updates.tidy hm ht
    by_cases hpublished : Published dir m m'
    · obtain ⟨c'', hc'', hnext⟩ := hpublished.generation htidy hc'
      exact ⟨c'', hc'', hnext ▸ Nat.le_succ_of_le hle⟩
    · exact ⟨c', hupdate.children?_of_not_published hpublished htidy hc', hle⟩

/-- Updates of which none published a change leave the array of a directory as it is. -/
theorem Undisturbed.children? (h : Undisturbed dir t t') (ht : t.Tidy)
    (hc : t.children? dir = some c) : t'.children? dir = some c := by
  have hboth : Updates t t' ∧ t'.children? dir = some c := by
    induction h with
    | refl => exact ⟨.refl, hc⟩
    | tail _ hstep ih =>
      exact ⟨ih.1.tail hstep.1,
        hstep.1.children?_of_not_published hstep.2 (Updates.tidy ih.1 ht) ih.2⟩
  exact hboth.2

/-- Updates of which some published a change make the count of a directory greater. -/
theorem Disturbed.generation_lt (h : Disturbed dir t t') (ht : t.Tidy)
    (hc : t.children? dir = some c) :
    ∃ c', t'.children? dir = some c' ∧ c.generation < c'.generation := by
  obtain ⟨before, after, hbefore, hpublished, hafter⟩ := h
  obtain ⟨c₁, hc₁, hle₁⟩ := hbefore.generation_le ht hc
  have htidy := Updates.tidy hbefore ht
  obtain ⟨c₂, hc₂, hnext⟩ := hpublished.generation htidy hc₁
  obtain ⟨c₃, hc₃, hle₃⟩ :=
    Updates.generation_le hafter (Updates.tidy (.single hpublished.update) htidy) hc₂
  exact ⟨c₃, hc₃, by omega⟩

/-- Either no update published a change of a directory, or some did. -/
theorem stable_disturbance (dir : Node) (t₀ : Tree) : Stable t₀.policy fun t =>
    Later t₀ t ∧ t.Tidy ∧ (Undisturbed dir t₀ t ∨ Updates t₀ t ∧ Disturbed dir t₀ t) where
  policy := fun t h => h.1.policy
  update := by
    rintro t t' hupdate ⟨hlater, htidy, hso⟩
    obtain ⟨htidy', hlater'⟩ := (stable_tidy t₀).update _ _ hupdate ⟨htidy, hlater⟩
    refine ⟨hlater', htidy', ?_⟩
    rcases hso with hnone | ⟨hupdates, before, after, hbefore, hpublished, hafter⟩
    · have hupdates : Updates t₀ t := Relation.ReflTransGen.mono (fun _ _ h => h.1) _ _ hnone
      by_cases hpublished : Published dir t t'
      · exact .inr ⟨hupdates.tail hupdate, t, t', hupdates, hpublished, .refl⟩
      · exact .inl (hnone.tail ⟨hupdate, hpublished⟩)
    · exact .inr ⟨hupdates.tail hupdate, before, after, hbefore, hpublished, hafter.tail hupdate⟩

/-- A directory keeps its array, or gets a greater count. -/
theorem stable_counted (dir : Node) (c : Children) (policy : CasePolicy) : Stable policy fun t =>
    t.policy = policy ∧ t.Tidy ∧
      ∃ c', t.children? dir = some c' ∧ (c' = c ∨ c.generation < c'.generation) where
  policy := fun t h => h.1
  update := by
    rintro t t' hupdate ⟨hpolicy, htidy, c', hc', hso⟩
    obtain ⟨htidy', hlater⟩ := (stable_tidy t).update _ _ hupdate ⟨htidy, .refl t⟩
    refine ⟨hlater.policy.trans hpolicy, htidy', ?_⟩
    by_cases hpublished : Published dir t t'
    · obtain ⟨c'', hc'', hnext⟩ := hpublished.generation htidy hc'
      refine ⟨c'', hc'', .inr ?_⟩
      rcases hso with rfl | hlt <;> omega
    · exact ⟨c', hupdate.children?_of_not_published hpublished htidy hc', hso⟩

/-- Whatever happens, no change of a directory is published meanwhile exactly if it is not the case
that some is. -/
theorem Happens.undisturbed_iff (h : Happens t t') (ht : t.Tidy)
    (hc : t.children? dir = some c) : Undisturbed dir t t' ↔ ¬ Disturbed dir t t' := by
  constructor
  · intro hundisturbed hdisturbed
    obtain ⟨c', hc', hlt⟩ := hdisturbed.generation_lt ht hc
    obtain rfl : c' = c := Option.some.inj (hc'.symm.trans (hundisturbed.children? ht hc))
    exact Nat.lt_irrefl _ hlt
  · have hso := ((stable_disturbance dir t).happens h ⟨.refl t, ht, .inl .refl⟩).2.2
    exact fun hnot => hso.resolve_right fun hdisturbed => hnot hdisturbed.2

end Tree

end LazyTree
