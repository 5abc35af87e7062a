import LazyTree.Proofs.ChildrenChanges

set_option autoImplicit false

/-!
# Runs of changes of a directory

Any number of changes in any order, from the directory that was never looked at. If the listings
that are installed are in strictly ascending order, then no change is ever refused, the array
always satisfies all rules, and it always stands for the ledger on which the same changes were
made.

## Main definitions

* `LazyTree.Children.Op` — a change, with what it is given.
* `LazyTree.Children.Op.offered` — the children that a change offers.
* `LazyTree.Children.Op.subject?` — the one name that a change is about.
* `LazyTree.Children.apply`, `LazyTree.Ledger.apply` — what a change does to an array and to a
  ledger.
* `LazyTree.Children.run`, `LazyTree.Ledger.run` — what many changes do.
* `LazyTree.Children.Represents` — an array represents a ledger.

## Main results

* `LazyTree.Children.run_tidy` — no run of changes breaks a rule.
* `LazyTree.Children.run_represents` — every run of changes does what the ledger says.
-/

namespace LazyTree

namespace Children

/-- A change of what is known of a directory. -/
inductive Op where
  /-- Adds a child. -/
  | insert (child : Node)
  /-- Adds a child of a name that is unknown. -/
  | insertIfUnknown (child : Node)
  /-- Records an absent name. -/
  | insertAbsent (name : String)
  /-- Removes a child, and possibly records its name as absent. -/
  | remove (child : Node) (remember : Bool)
  /-- Declares the present children to be all there are. -/
  | markAllLoaded
  /-- Makes a listing the complete one. -/
  | install (listing : List Node) (generation : Nat)
  /-- Forgets everything. -/
  | clear
deriving DecidableEq

namespace Op

/-- What a change answers. -/
abbrev Answer : Op → Type
  | insert _ => Node
  | insertIfUnknown _ | insertAbsent _ => Knowledge
  | remove _ _ | install _ _ => Bool
  | markAllLoaded | clear => Unit

/-- What is asked of a change: a listing has to be in strictly ascending order. -/
def Admissible (policy : CasePolicy) : Op → Prop
  | install listing _ => Ascending policy listing
  | _ => True

/-- The children that a change offers. -/
def offered : Op → List Node
  | insert child | insertIfUnknown child => [child]
  | install listing _ => listing
  | insertAbsent _ | remove _ _ | markAllLoaded | clear => []

/-- The name that a change is about. Some changes are about all names at once. -/
def subject? : Op → Option String
  | insert child | insertIfUnknown child | remove child _ => some child.name
  | insertAbsent free => some free
  | markAllLoaded | install _ _ | clear => none

/-- Nothing is asked of a change that offers no child. -/
theorem admissible_of_offered {op : Op} (h : op.offered = []) (policy : CasePolicy) :
    op.Admissible policy := by
  cases op with
  | install listing generation =>
    subst h
    exact List.Pairwise.nil
  | _ => trivial

end Op

/-- Makes a change of an array. -/
def apply (c : Children) : (op : Op) → Change op.Answer
  | .insert child => c.insert child
  | .insertIfUnknown child => c.insertIfUnknown child
  | .insertAbsent name => c.insertAbsent name
  | .remove child remember => c.remove child remember
  | .markAllLoaded => c.markAllLoaded
  | .install listing generation => c.install listing generation
  | .clear => c.clear

/-- Makes changes of an array one after the other, up to the first that is refused. -/
def run (c : Children) : List Op → Except Inconsistency Children
  | [] => .ok c
  | op :: ops =>
    match c.apply op with
    | (.error broken, _) => .error broken
    | (.ok _, changed) => changed.run ops

end Children

namespace Ledger

/-- Makes a change of a ledger. -/
def apply (l : Ledger) : (op : Children.Op) → op.Answer × Ledger
  | .insert child => l.insert child
  | .insertIfUnknown child => l.insertIfUnknown child
  | .insertAbsent name => l.insertAbsent name
  | .remove child remember => l.remove child remember
  | .markAllLoaded => l.markAllLoaded
  | .install listing generation => l.install listing generation
  | .clear => l.clear

/-- Makes changes of a ledger one after the other. -/
def run (l : Ledger) : List Children.Op → Ledger
  | [] => l
  | op :: ops => (l.apply op).2.run ops

/-- No change touches the policy. -/
theorem apply_policy (l : Ledger) (op : Children.Op) : (l.apply op).2.policy = l.policy := by
  cases op with
  | insert child => rw [apply, insert]; split <;> rfl
  | insertIfUnknown child => rw [apply, insertIfUnknown]; split <;> rfl
  | insertAbsent name =>
    rw [apply, insertAbsent]
    split
    · rfl
    · split
      · rfl
      · rfl
      · cases l.complete <;> rfl
  | remove child remember =>
    rw [apply, remove]
    split
    · split <;> rfl
    · rfl
    · cases remember <;> cases l.complete <;> rfl
  | markAllLoaded => rfl
  | install listing generation => rw [apply, install]; split <;> rfl
  | clear => rfl

/-- Children that are all there are stay so, whatever changes, until they are forgotten. -/
theorem complete_apply {l : Ledger} {op : Children.Op} (hop : op ≠ .clear)
    (hcomplete : l.complete = true) : (l.apply op).2.complete = true := by
  cases op with
  | insert child => rw [apply, insert]; split <;> exact hcomplete
  | insertIfUnknown child => rw [apply, insertIfUnknown]; split <;> exact hcomplete
  | insertAbsent name =>
    rw [apply, insertAbsent, hcomplete]
    split
    · exact hcomplete
    · split <;> exact hcomplete
  | remove child remember =>
    rw [apply, remove]
    split
    · split <;> exact hcomplete
    · exact hcomplete
    · dsimp only
      split <;> exact hcomplete
  | markAllLoaded => rfl
  | install listing generation =>
    rw [apply, install]
    split
    · exact hcomplete
    · rfl
  | clear => exact absurd rfl hop

end Ledger

namespace Children

/-- An array represents a ledger: of each name it tells by one slot what the ledger has of the
name, and it has no other slots. So only finitely many names have facts. -/
structure Represents (c : Children) (l : Ledger) : Prop where
  /-- Names are the same for both. -/
  policy : l.policy = c.policy
  /-- The facts of the ledger are those that the slots tell. -/
  facts : ∀ k fact,
    l.facts k = some fact ↔ ∃ slot ∈ c.slots, c.policy.key (name slot) = k ∧ slot.fact = fact
  /-- Both take the children for complete, or neither does. -/
  complete : l.complete = c.allLoaded
  /-- Both count the same changes. -/
  changes : l.changes = c.generation

variable {c : Children}

/-- A tidy array represents the ledger that it stands for. -/
theorem Tidy.represents (h : c.Tidy) : c.Represents c.ledger :=
  ⟨rfl, fun _ _ => h.factAt_eq_some_iff, rfl, rfl⟩

/-- An admissible change of a tidy array follows the ledger. -/
theorem apply_follows (h : c.Tidy) {op : Op} (hop : op.Admissible c.policy) :
    Follows (c.apply op) (c.ledger.apply op) := by
  cases op with
  | insert child => exact insert_follows h child
  | insertIfUnknown child => exact insertIfUnknown_follows h child
  | insertAbsent name => exact insertAbsent_follows h name
  | remove child remember => exact remove_follows h child remember
  | markAllLoaded => exact markAllLoaded_follows h
  | install listing generation => exact install_follows h hop generation
  | clear => exact clear_follows c

/-- No admissible change of a tidy array touches the policy. -/
theorem apply_policy (h : c.Tidy) {op : Op} (hop : op.Admissible c.policy) :
    (c.apply op).2.policy = c.policy :=
  (congrArg Ledger.policy (apply_follows h hop).ledger).trans (c.ledger.apply_policy op)

/-- A run of admissible changes from a tidy array is not refused, ends in a tidy array, and takes
the ledger of the one to that of the other. -/
theorem run_follows (h : c.Tidy) {ops : List Op} (hops : ∀ op ∈ ops, op.Admissible c.policy) :
    ∃ c', c.run ops = .ok c' ∧ c'.policy = c.policy ∧ c'.Tidy ∧ c'.ledger = c.ledger.run ops := by
  induction ops generalizing c with
  | nil => exact ⟨c, rfl, rfl, h, rfl⟩
  | cons op ops ih =>
    obtain ⟨hop, hops⟩ := List.forall_mem_cons.mp hops
    have hstep := apply_follows h hop
    have hpolicy := apply_policy h hop
    obtain ⟨c', hrun, hpolicy', htidy, hledger⟩ := ih hstep.tidy (by rwa [hpolicy])
    have happly : c.apply op = (.ok (c.ledger.apply op).1, (c.apply op).2) :=
      Prod.ext hstep.answer rfl
    refine ⟨c', ?_, hpolicy'.trans hpolicy, htidy, ?_⟩
    · rw [run, happly]
      exact hrun
    · rw [hledger, hstep.ledger]
      rfl

/-- No run of changes breaks a rule: started where nothing is known, it is never refused, and the
array that it ends with has all children in front of all absent names, either zone in strictly
ascending order, no name in both zones, and no absent name beside a complete listing. -/
theorem run_tidy (policy : CasePolicy) (ops : List Op)
    (hops : ∀ op ∈ ops, op.Admissible policy) :
    ∃ c, (Children.empty policy).run ops = .ok c ∧ c.policy = policy ∧
      Zones.Tidy policy c.allLoaded c.slots := by
  obtain ⟨c, hrun, hpolicy, htidy, -⟩ := run_follows (tidy_empty policy) hops
  refine ⟨c, hrun, hpolicy, ?_⟩
  have hzones : Zones.Tidy c.policy c.allLoaded c.slots := htidy
  rwa [hpolicy] at hzones

/-- A listing installed over a directory with a removed child, under the policy that folds case. -/
theorem run_tidy_of_listing :
    let gone : Node := ⟨1, ⟨5, by decide⟩, "Foo", some ⟨1, by decide⟩, default⟩
    let kept : Node := ⟨2, ⟨6, by decide⟩, "bar", some ⟨1, by decide⟩, default⟩
    let ops : List Op := [.insert gone, .remove gone true, .install [kept, gone] 2]
    (∀ op ∈ ops, op.Admissible .insensitive) ∧
      ∃ c, (Children.empty .insensitive).run ops = .ok c ∧ c.policy = .insensitive ∧
        Zones.Tidy .insensitive c.allLoaded c.slots := by
  intro gone kept ops
  have hbefore : CasePolicy.insensitive.Before kept.name gone.name := by
    unfold CasePolicy.Before
    decide
  have hops : ∀ op ∈ ops, op.Admissible .insensitive := by
    simp [ops, Op.Admissible, Ascending, hbefore]
  exact ⟨hops, run_tidy .insensitive ops hops⟩

/-- Every run of changes does what the ledger says: started where nothing is known, it is never
refused, the array that it ends with represents the ledger on which the same changes were made,
looking for a name other than the empty one gives the answer of the ledger, and any further
change succeeds with the answer of the ledger and leaves an array that represents the ledger after
that change.

**Proof sketch.** By induction on the run, each step by the lemma that the change follows the
ledger. That lemma cuts both zones of the array at the name of the change, finds all positions
that the change uses at the cuts, and puts into the cuts what the ledger then knows of the name. -/
theorem run_represents (policy : CasePolicy) (ops : List Op)
    (hops : ∀ op ∈ ops, op.Admissible policy) :
    ∃ c, (Children.empty policy).run ops = .ok c ∧
      c.Represents ((Ledger.empty policy).run ops) ∧
      (∀ name : String, name.isEmpty = false →
        c.find name = ((Ledger.empty policy).run ops).answer name) ∧
      ∀ op : Op, op.Admissible policy →
        ∃ c', c.apply op = (.ok (((Ledger.empty policy).run ops).apply op).1, c') ∧
          c'.Represents (((Ledger.empty policy).run ops).apply op).2 := by
  obtain ⟨c, hrun, hpolicy, htidy, hledger⟩ := run_follows (tidy_empty policy) hops
  rw [ledger_empty] at hledger
  rw [← hledger]
  refine ⟨c, hrun, htidy.represents, ?_, ?_⟩
  · intro name hname
    rw [find_eq htidy, hname]
    rfl
  · intro op hop
    have hop : op.Admissible c.policy := by rwa [hpolicy]
    have hstep := apply_follows htidy hop
    refine ⟨(c.apply op).2, Prod.ext hstep.answer rfl, ?_⟩
    rw [← hstep.ledger]
    exact hstep.tidy.represents

/-- A child that replaces the recorded absence of another spelling of its name. -/
theorem run_represents_of_replaced_absence :
    let child : Node := ⟨1, ⟨5, by decide⟩, "Foo", some ⟨1, by decide⟩, default⟩
    let ops : List Op := [.insertAbsent "foo", .insert child, .markAllLoaded]
    let l := (Ledger.empty .insensitive).run ops
    (∀ op ∈ ops, op.Admissible .insensitive) ∧
      ∃ c, (Children.empty .insensitive).run ops = .ok c ∧ c.Represents l ∧
        (∀ name : String, name.isEmpty = false → c.find name = l.answer name) ∧
        ∀ op : Op, op.Admissible .insensitive →
          ∃ c', c.apply op = (.ok (l.apply op).1, c') ∧ c'.Represents (l.apply op).2 := by
  intro child ops l
  have hops : ∀ op ∈ ops, op.Admissible .insensitive := by
    simp [ops, Op.Admissible]
  exact ⟨hops, run_represents .insensitive ops hops⟩

end Children

end LazyTree
