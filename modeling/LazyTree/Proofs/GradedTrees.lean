import LazyTree.Proofs.BondedTrees

set_option autoImplicit false

/-!
# Trees whose children are younger than their directories

Objects are numbered in the order in which they were made, and a node for a child is made after the
one for its directory. So a walk over what is cached below a child has an end, as long as each child
that is reported is younger than the directory to which it is added; this holds for a backend that
answers anything, and for operations in any order. Only a report of an older child can make a
directory come to lie below itself, so that a walk over it would never end.

## Main definitions

* `LazyTree.Tree.Younger` — a node is an object that was made after a directory.
* `LazyTree.Tree.Graded` — the nodes in arrays are younger than the directories of the arrays.
* `LazyTree.Tree.gradation` — to be younger as a bond.
* `LazyTree.Tree.Grows` — what may happen as long as reported children are younger than their
  directories.

## Main results

* `LazyTree.Tree.Graded.exists_subtree?` — the walks of a graded tree have an end.
* `LazyTree.Tree.Graded.command` — every operation leaves the tree graded, but for reports of older
  children.
* `LazyTree.Tree.Grows.graded` — the tree is graded, whatever may happen then.
-/

namespace LazyTree.Tree

open TreeM

/-! ### Graded trees -/

/-- A node is an object of the tree that was made after a directory. -/
structure Younger (t : Tree) (dir n : Node) : Prop where
  /-- It is an object. -/
  owns : t.Owns n
  /-- It was made later. -/
  later : dir.serial < n.serial

/-- The nodes in arrays are younger than the directories of the arrays. -/
structure Graded (t : Tree) : Prop where
  /-- All arrays are tidy. -/
  tidy : t.Tidy
  /-- The nodes in them are younger. -/
  younger : ∀ dir c n, t.children? dir = some c → n ∈ c.present → t.Younger dir n

variable {t t' : Tree} {dir n : Node} {c : Children}

/-- What is below an object of a graded tree is a branch. -/
theorem Graded.branch (h : t.Graded) (hn : t.Owns n) : t.Branch n where
  owns m hm := by
    cases hm with
    | top => exact hn
    | child _ hc hm => exact (h.younger _ _ _ hc hm).owns
  later dir c m _ hc hm := (h.younger dir c m hc hm).later

/-- The walk over what is cached below a child has an end in a graded tree. -/
theorem Graded.exists_subtree? (h : t.Graded) (hc : t.children? dir = some c)
    (hn : n ∈ c.present) : ∃ met, t.subtree? n = some met := by
  obtain ⟨met, hmet, -⟩ := (h.branch (h.younger dir c n hc hn).owns).exists_subtree? h.tidy
  exact ⟨met, hmet⟩

/-- To be younger binds children to directories, whatever name they have: what is made for a
directory is numbered after it. -/
def gradation (policy : CasePolicy) (config : TreeConfig) : Bond where
  policy := policy
  config := config
  stands _ _ := True
  binds := Younger
  names _ _ _ := True
  stands_update _ h := h
  binds_update {t t' _ n} hupdate _ hn :=
    ⟨((stable_owns t.policy n).update t t' hupdate ⟨rfl, hn.owns⟩).2, hn.later⟩
  stands_child h _ := h
  binds_make {t dir id name} hdir _ _ attributes d hd := by
    obtain ⟨c, hc⟩ := Option.isSome_iff_exists.mp hdir
    exact ⟨owns_make t dir id name attributes, hd ▸ serial_lt_of_children? hc⟩

/-- A tree is graded exactly if its children are bound so. -/
theorem bonded_gradation_iff :
    t.Bonded (gradation t.policy t.config) ↔ t.Graded :=
  ⟨fun h => ⟨h.tidy, h.binds⟩, fun h => ⟨h.tidy, rfl, rfl, h.younger⟩⟩

/-! ### Histories -/

/-- Anything may happen that leaves a graded tree graded. -/
def growing : World :=
  fun _ t _ t' => Happens t t' ∧ (t.Graded → t'.Graded)

/-- No answer of a backend stands against the bond. -/
theorem trusts_growing (policy : CasePolicy) (config : TreeConfig) :
    (gradation policy config).Trusts growing where
  happens ht := ht.1
  bonded {_ t _ t'} ht h := by
    have hlater := ht.1.later h.tidy
    have hgraded := ht.2 ⟨h.tidy, h.binds⟩
    exact ⟨hgraded.tidy, hlater.policy.trans h.policy, hlater.config.trans h.config,
      hgraded.younger⟩
  list _ _ _ := trivial
  spelled _ _ := trivial

/-- Every operation leaves the tree graded, whatever answers the backend gives, but for the report
of a child that is not younger than its directory. -/
theorem Graded.command (h : t.Graded) (handles : Handles) {on : Operands} {command : Command}
    (hadded : command = .addChild → t.Younger on.dir on.child) :
    ((command.run handles on).run t).Always growing fun _ t' => t'.Graded := by
  have hbonded : ((command.run handles on).run t).Always growing fun _ t' =>
      t'.Bonded (gradation t.policy t.config) :=
    (bonded_gradation_iff.mpr h).command (trusts_growing t.policy t.config) handles trivial
      (fun hadd d hd => ⟨(hadded hadd).owns, hd ▸ (hadded hadd).later⟩)
      (fun _ _ _ _ _ _ _ _ => trivial) fun _ _ _ _ _ _ _ _ _ _ _ => trivial
  exact hbonded.mono fun _ t' h' => ⟨h'.tidy, h'.binds⟩

/-- What may happen to a tree as long as each child that is reported is younger than the directory
to which it is added. -/
inductive Grows : Tree → Tree → Prop where
  /-- Nothing. -/
  | refl (t : Tree) : Grows t t
  /-- An operation, with other things happening while it asks the backend, and then more. -/
  | command {t t' t'' : Tree} (handles : Handles) (on : Operands) (command : Command)
      {exchanges : List Exchange} {result : Except TreeError (StepReply Node)}
      (added : command = .addChild → t.Younger on.dir on.child)
      (took : ((command.run handles on).run t).Took exchanges result t')
      (meanwhile : ∀ x ∈ exchanges, Grows x.asked x.resumed)
      (rest : Grows t' t'') : Grows t t''
  /-- Other objects are held, and then more. -/
  | held {t t' : Tree} (held : List Nat) (rest : Grows { t with held := held } t') : Grows t t'

/-- All this may happen. -/
theorem Grows.happens (h : Grows t t') : Happens t t' := by
  induction h with
  | refl t => exact .refl t
  | command handles on command _ took _ _ hmeanwhile hrest =>
    exact .command handles on command took hmeanwhile hrest
  | held held _ hrest => exact .held held hrest

/-- Whatever happens then, a graded tree stays graded. -/
theorem Grows.graded (h : Grows t t') (ht : t.Graded) : t'.Graded := by
  induction h with
  | refl t => exact ht
  | command handles on command hadded took hmeanwhile _ hgraded hrest =>
    exact hrest (took.always (ht.command handles hadded)
      fun x hx => ⟨(hmeanwhile x hx).happens, hgraded x hx⟩)
  | @held t _ held _ hrest =>
    exact hrest (bonded_gradation_iff.mp ((bonded_gradation_iff.mpr ht).frame t.registry held))

/-- The tree that holds nothing but its root is graded. -/
theorem graded_ofRoot (policy : CasePolicy) (config : TreeConfig) (root : FileId) (name : String) :
    (ofRoot policy config root name).Graded :=
  bonded_gradation_iff.mp (bonded_ofRoot (gradation policy config) root name)

end LazyTree.Tree
