import LazyTree.Proofs.Updates

set_option autoImplicit false

/-!
# What may happen to a tree

Operations of a tree, one after the other, with any answers from the backend; and while the backend
is asked, more operations, with more questions, and so on. Whoever holds objects may hold others at
any time. All arrays stay tidy throughout, the policy and the settings stay what they are, and no
directory loses its array.

## Main definitions

* `LazyTree.Tree.Happens` — what may happen to a tree, as a relation of the tree before and after.
* `LazyTree.Tree.Tidy` — all arrays of the tree are tidy.
* `LazyTree.Tree.Later` — what stays as it is.

## Main results

* `LazyTree.Tree.Stable.happens` — what every update keeps is kept by all that may happen.
* `LazyTree.Tree.Happens.tidy`, `LazyTree.Tree.Happens.later` — so arrays stay tidy, and policy,
  settings and directories stay.
-/

namespace LazyTree.Tree

open TreeM

/-- What may happen to a tree. -/
inductive Happens : Tree → Tree → Prop where
  /-- Nothing. -/
  | refl (t : Tree) : Happens t t
  /-- An operation, with other things happening while it asks the backend, and then more. -/
  | command {t t' t'' : Tree} (handles : Handles) (on : Operands) (command : Command)
      {exchanges : List Exchange} {result : Except TreeError (StepReply Node)}
      (took : ((command.run handles on).run t).Took exchanges result t')
      (meanwhile : ∀ x ∈ exchanges, Happens x.asked x.resumed)
      (rest : Happens t' t'') : Happens t t''
  /-- Other objects are held, and then more. -/
  | held {t t' : Tree} (held : List Nat) (rest : Happens { t with held := held } t') : Happens t t'

/-- All arrays of the tree are tidy, under the policy of the tree. -/
def Tidy (t : Tree) : Prop :=
  ∀ (n : Node) (c : Children), t.children? n = some c → c.policy = t.policy ∧ c.Tidy

/-- What stays as it is from one tree to a later one. -/
structure Later (t t' : Tree) : Prop where
  /-- The policy stays. -/
  policy : t'.policy = t.policy
  /-- What was chosen stays. -/
  config : t'.config = t.config
  /-- Directories stay directories. -/
  isSome : ∀ n, (t.children? n).isSome = true → (t'.children? n).isSome = true

namespace Happens

/-- One thing may happen after another. -/
theorem trans {t t' t'' : Tree} (h : Happens t t') (h' : Happens t' t'') : Happens t t'' := by
  induction h with
  | refl t => exact h'
  | command handles on command took meanwhile rest _ ih =>
    exact .command handles on command took meanwhile (ih h')
  | held held rest ih => exact .held held (ih h')

end Happens

/-- What every update keeps is kept by all that may happen. -/
theorem Stable.happens {policy : CasePolicy} {P : Tree → Prop} (h : Stable policy P) {t t' : Tree}
    (hhappens : Happens t t') (ht : P t) : P t' := by
  induction hhappens with
  | refl t => exact ht
  | command handles on command took _ _ hmeanwhile ih =>
    exact ih (took.always (h.command handles on command _ ht) hmeanwhile)
  | held held _ ih => exact ih (h.update _ _ (.held _ held) ht)

/-! ### Arrays after updates -/

section Arrays

variable (t : Tree) (n dir : Node)

/-- A change of one array leaves all others as they are. -/
theorem children?_setChildren (c : Children) : (t.setChildren dir c).children? n =
    if dir.serial = n.serial then (t.children? n).map fun _ => c else t.children? n := by
  unfold children? cell? setChildren modifyCell
  rw [Array.getElem?_modify]
  split <;> cases t.cells[n.serial]? <;> rfl

/-- Saying that an object needs a refresh leaves all arrays as they are. -/
theorem children?_setDirty (dirty : Bool) (serial : Nat) :
    (t.setDirty dirty serial).children? n = t.children? n := by
  unfold children? cell? setDirty modifyCell
  rw [Array.getElem?_modify]
  split <;> cases t.cells[n.serial]? <;> rfl

/-- Making an object leaves the arrays of all others as they are. -/
theorem children?_make (id : FileId) (name : String) (attributes : Attributes) :
    (t.make dir id name attributes).2.children? n =
      if n.serial = t.cells.size then
        if attributes.directory then some (Children.empty t.policy) else none
      else t.children? n := by
  unfold children? cell? make
  simp only [Array.getElem?_push]
  split
  · rfl
  · rfl

end Arrays

/-- Nothing has happened yet. -/
theorem Later.refl (t : Tree) : Later t t :=
  ⟨rfl, rfl, fun _ h => h⟩

/-- Updates keep tidy arrays tidy, and what stays as it is. -/
theorem stable_tidy (t₀ : Tree) : Stable t₀.policy fun t => t.Tidy ∧ Later t₀ t where
  policy := fun t h => h.2.policy
  update := by
    rintro t t' hupdate ⟨htidy, hlater⟩
    cases hupdate with
    | registry registry => exact ⟨htidy, hlater.policy, hlater.config, hlater.isSome⟩
    | held held => exact ⟨htidy, hlater.policy, hlater.config, hlater.isSome⟩
    | dirty dirty serial =>
      refine ⟨fun n c hc => ?_, hlater.policy, hlater.config, fun n hn => ?_⟩
      · rw [children?_setDirty] at hc
        exact htidy n c hc
      · rw [children?_setDirty]
        exact hlater.isSome n hn
    | make dir id name attributes =>
      refine ⟨fun n c hc => ?_, hlater.policy, hlater.config, fun n hn => ?_⟩
      · rw [children?_make] at hc
        split at hc
        · split at hc
          · cases hc
            exact ⟨rfl, Children.tidy_empty t.policy⟩
          · cases hc
        · exact htidy n c hc
      · have hold := hlater.isSome n hn
        rw [children?_make, if_neg]
        · exact hold
        · intro hserial
          unfold children? cell? at hold
          rw [hserial, Array.getElem?_eq_none (Nat.le_refl _)] at hold
          cases hold
    | change dir c op hc hop =>
      obtain ⟨hpolicy, hctidy⟩ := htidy dir c hc
      have hop : op.Admissible c.policy := by rwa [hpolicy]
      refine ⟨fun n c' hc' => ?_, hlater.policy, hlater.config, fun n hn => ?_⟩
      · rw [children?_setChildren] at hc'
        split at hc'
        · obtain ⟨_, -, rfl⟩ := Option.map_eq_some_iff.mp hc'
          exact ⟨(Children.apply_policy hctidy hop).trans hpolicy,
            (Children.apply_follows hctidy hop).tidy⟩
        · exact htidy n c' hc'
      · have hold := hlater.isSome n hn
        rw [children?_setChildren]
        split
        · rwa [Option.isSome_map]
        · exact hold

/-- Making an object keeps tidy arrays tidy. -/
theorem Tidy.make {t : Tree} (ht : t.Tidy) (parent : Node) (id : FileId) (name : String)
    (attributes : Attributes) : (t.make parent id name attributes).2.Tidy :=
  ((stable_tidy t).update _ _ (.make t parent id name attributes) ⟨ht, .refl t⟩).1

namespace Happens

variable {t t' : Tree}

/-- Tidy arrays stay tidy, whatever happens. -/
theorem tidy (h : Happens t t') (ht : t.Tidy) : t'.Tidy :=
  ((stable_tidy t).happens h ⟨ht, .refl t⟩).1

/-- Policy, settings and directories stay, whatever happens. -/
theorem later (h : Happens t t') (ht : t.Tidy) : Later t t' :=
  ((stable_tidy t).happens h ⟨ht, .refl t⟩).2

end Happens

/-- The tree that holds nothing but its root is tidy. -/
theorem tidy_ofRoot (policy : CasePolicy) (config : TreeConfig) (id : FileId) (name : String) :
    (ofRoot policy config id name).Tidy := by
  intro n c hc
  unfold children? cell? ofRoot freshCell at hc
  rcases hserial : n.serial with _ | serial
  · rw [hserial] at hc
    cases hc
    exact ⟨rfl, Children.tidy_empty policy⟩
  · rw [hserial] at hc
    cases hc

end LazyTree.Tree
