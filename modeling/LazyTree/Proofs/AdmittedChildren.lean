import LazyTree.Proofs.BondedTrees
import LazyTree.Proofs.Conduct

set_option autoImplicit false

/-!
# Children that are admitted

Operations make the nodes that they put into arrays, or find them there. Only the report of a child
brings in a node from outside. As long as that is an object of the tree, all nodes in arrays are
objects, and so is whatever is cached below an object. The child may be older than its directory,
may be in other arrays as well, and may have lost its entry in the registry.

## Main definitions

* `LazyTree.Tree.Peopled` — the nodes in arrays are objects of the tree.
* `LazyTree.Tree.Admits` — what may happen as long as only objects are reported.
* `LazyTree.Tree.stepped` — the tree after one operation.

## Main results

* `LazyTree.Tree.Admits.peopled` — whatever happens then, the nodes in arrays stay objects.
-/

namespace LazyTree.Tree

/-- The nodes in arrays are objects of the tree. -/
structure Peopled (t : Tree) : Prop where
  /-- All arrays are tidy. -/
  tidy : t.Tidy
  /-- The nodes in them are objects. -/
  objects : ∀ dir c n, t.children? dir = some c → n ∈ c.present → t.Owns n

variable {t t' : Tree} {dir top n : Node} {c : Children}

/-- What is cached below an object is an object. -/
theorem Peopled.owns (h : t.Peopled) (htop : t.Owns top) (hn : t.Beneath top n) : t.Owns n := by
  cases hn with
  | top => exact htop
  | child _ hc hn => exact h.objects _ _ _ hc hn

/-- To be an object binds a child to any directory, whatever name it has. -/
def membership (policy : CasePolicy) (config : TreeConfig) : Bond where
  policy := policy
  config := config
  stands _ _ := True
  binds t _ n := t.Owns n
  names _ _ _ := True
  stands_update _ h := h
  binds_update {t t' _ n} hupdate _ hn := ((stable_owns t.policy n).update t t' hupdate ⟨rfl, hn⟩).2
  stands_child h _ := h
  binds_make {t dir id name} _ _ _ attributes _ _ := owns_make t dir id name attributes

/-- The nodes in arrays are objects exactly if all children are bound so. -/
theorem bonded_membership_iff : t.Bonded (membership t.policy t.config) ↔ t.Peopled :=
  ⟨fun h => ⟨h.tidy, h.binds⟩, fun h => ⟨h.tidy, rfl, rfl, h.objects⟩⟩

/-- The nodes in arrays stay objects when an array is changed that is offered nothing else. -/
theorem Peopled.change (h : t.Peopled) (hc : t.children? dir = some c) (op : Children.Op)
    (hop : op.Admissible c.policy) (hoffered : ∀ n ∈ op.offered, t.Owns n) :
    (t.setChildren dir (c.apply op).2).Peopled := by
  have hbonded := (bonded_membership_iff.mpr h).change hc op hop fun n hn _ _ => hoffered n hn
  exact ⟨hbonded.tidy, hbonded.binds⟩

/-- They stay objects when others are made. -/
theorem Peopled.made (h : t.Peopled) (hmade : Made t t') : t'.Peopled where
  tidy := ((stable_tidy t).updates hmade.updates ⟨h.tidy, .refl t⟩).1
  objects d c n hc hn := hmade.owns (h.objects d c n (hmade.children?_of_mem hc hn) hn)

/-- Anything may happen after which the nodes in arrays are objects if they were so before. -/
def admitting : World :=
  fun _ t _ t' => Happens t t' ∧ (t.Peopled → t'.Peopled)

/-- No answer of a backend stands against that. -/
theorem trusts_admitting (policy : CasePolicy) (config : TreeConfig) :
    (membership policy config).Trusts admitting where
  happens ht := ht.1
  bonded {_ t _ t'} ht h := by
    have hlater := ht.1.later h.tidy
    have hpeopled := ht.2 ⟨h.tidy, h.binds⟩
    exact ⟨hpeopled.tidy, hlater.policy.trans h.policy, hlater.config.trans h.config,
      hpeopled.objects⟩
  list _ _ _ := trivial
  spelled _ _ := trivial

/-- After every operation the nodes in arrays are objects, whatever answers the backend gives, but
for the report of a child that is no object. -/
theorem Peopled.command (h : t.Peopled) (handles : Handles) {on : Operands} {command : Command}
    (hadded : command = .addChild → t.Owns on.child) :
    ((command.run handles on).run t).Always admitting fun _ t' => t'.Peopled := by
  have hbonded : ((command.run handles on).run t).Always admitting fun _ t' =>
      t'.Bonded (membership t.policy t.config) :=
    (bonded_membership_iff.mpr h).command (trusts_admitting t.policy t.config) handles trivial
      (fun hadd _ _ => hadded hadd) (fun _ _ _ _ _ _ _ _ => trivial)
      fun _ _ _ _ _ _ _ _ _ _ _ => trivial
  exact hbonded.mono fun _ t' h' => ⟨h'.tidy, h'.binds⟩

/-- What may happen to a tree as long as each child that is reported is an object of the tree. -/
inductive Admits : Tree → Tree → Prop where
  /-- Nothing. -/
  | refl (t : Tree) : Admits t t
  /-- An operation, with other things happening while it asks the backend, and then more. -/
  | command {t t' t'' : Tree} (handles : Handles) (on : Operands) (command : Command)
      {exchanges : List Exchange} {result : Except TreeError (StepReply Node)}
      (added : command = .addChild → t.Owns on.child)
      (took : ((command.run handles on).run t).Took exchanges result t')
      (meanwhile : ∀ x ∈ exchanges, Admits x.asked x.resumed)
      (rest : Admits t' t'') : Admits t t''
  /-- Other objects are held, and then more. -/
  | held {t t' : Tree} (held : List Nat) (rest : Admits { t with held := held } t') : Admits t t'

/-- All this may happen. -/
theorem Admits.happens (h : Admits t t') : Happens t t' := by
  induction h with
  | refl t => exact .refl t
  | command handles on command _ took _ _ hmeanwhile hrest =>
    exact .command handles on command took hmeanwhile hrest
  | held held _ hrest => exact .held held hrest

/-- Whatever happens then, the nodes in arrays stay objects. -/
theorem Admits.peopled (h : Admits t t') (ht : t.Peopled) : t'.Peopled := by
  induction h with
  | refl t => exact ht
  | command handles on command hadded took hmeanwhile _ hpeopled hrest =>
    exact hrest (took.always (ht.command handles hadded)
      fun x hx => ⟨(hmeanwhile x hx).happens, hpeopled x hx⟩)
  | held held _ hrest => exact hrest ⟨ht.tidy, ht.objects⟩

/-- The tree after an operation on a directory to which a backend gives its answers, in which some
objects are held from then on. -/
def stepped (t : Tree) (answers : Answers) (dir : Node) (command : Command) (held : List Nat) :
    Tree :=
  { ((command.run [] ⟨dir, dir, dir⟩).answered answers t).2 with held := held }

/-- Such an operation may happen, unless it reports a child. -/
theorem Admits.stepped (answers : Answers) (dir : Node) (command : Command) (held : List Nat)
    (hadded : command ≠ .addChild) (hrest : Admits (t.stepped answers dir command held) t') :
    Admits t t' := by
  refine .command [] ⟨dir, dir, dir⟩ command (fun h => absurd h hadded)
    (Run.took_serve _ _ ()) (fun x hx => ?_) (.held held hrest)
  obtain ⟨_, -, hresumed⟩ := Run.exists_of_mem_exchanges hx
  rw [hresumed]
  exact .refl _

/-- Nothing is in the array of a tree that holds nothing but its root. -/
theorem peopled_ofRoot (policy : CasePolicy) (config : TreeConfig) (root : FileId)
    (name : String) : (ofRoot policy config root name).Peopled :=
  bonded_membership_iff.mp (bonded_ofRoot (membership policy config) root name)

/-- What a new tree can become by operations that report only objects has its nodes in arrays among
its objects, and no two entries of one identity. -/
theorem Admits.peopled_and_proper {policy : CasePolicy} {config : TreeConfig} {root : FileId}
    {name : String} (h : Admits (ofRoot policy config root name) t) :
    t.Peopled ∧ t.registry.Proper :=
  ⟨h.peopled (peopled_ofRoot policy config root name),
    h.happens.proper (tidy_ofRoot policy config root name) (List.nodup_singleton _)⟩

end LazyTree.Tree
