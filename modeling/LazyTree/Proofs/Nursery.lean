import LazyTree.Proofs.Coherence
import LazyTree.Proofs.KeptListings
import Mathlib.Data.Set.Card

set_option autoImplicit false

/-!
# Trees with children that wait to be added

A tree goes through any number of steps, one after the other: lookups, listings and checks of
attached directories, over a backend that may answer anything and may fail; and reports that a child
came or went. A child that comes is made for its directory first, waits for its report, and is added
at most once. As long as attached nodes differ in their identities, the registry has exactly one
entry for each of them after every step.

## Main definitions

* `LazyTree.TreeM.Calmly` — an operation during which nothing else happens.
* `LazyTree.Nursery` — a tree, and the children that wait to be added.
* `LazyTree.Nursery.Step`, `LazyTree.Nursery.Reached` — what may happen next, and what comes of it.
* `LazyTree.Nursery.InOrder` — the tree is in order, and the children that wait are new.

## Main results

* `LazyTree.Nursery.InOrder.step` — every step keeps the order.
* `LazyTree.Nursery.registry_exact` — the registry has exactly one entry for each attached node.
-/

namespace LazyTree

namespace TreeM

variable {α β : Type} {act : TreeM α} {t t' : Tree}

/-- An operation led from one tree to another. Nothing happened to the tree while the backend was
asked, and attached nodes differed in their identities then. -/
def Calmly (act : TreeM α) (t t' : Tree) : Prop :=
  ∃ exchanges result, (act.run t).Took exchanges result t' ∧
    ∀ x ∈ exchanges, calm x.query x.asked x.reply x.resumed

/-- What always holds of the tree at the end does hold of the tree that an operation led to. -/
theorem Calmly.of_always {P : Tree → Prop} (h : act.Calmly t t')
    (hact : (act.run t).Always calm fun _ t' => P t') : P t' := by
  obtain ⟨exchanges, result, htook, hcalm⟩ := h
  exact htook.always hact hcalm

/-- An operation that asks nothing leads to the tree that it leaves. -/
theorem Calmly.of_run {result : Except TreeError α} {t'' : Tree} (h : act.Calmly t t')
    (hrun : act.run t = .done result t'') : t' = t'' := by
  obtain ⟨exchanges, result', htook, -⟩ := h
  rw [hrun] at htook
  exact (Run.took_done_iff.mp htook).2.2

/-- Over a table, an operation that asks at the first tree only leads to the tree that it leaves. -/
theorem calmly_answeredBy (b : Table) (act : TreeM α) (h : t.Distinct)
    (hfirst : ∀ x ∈ (act.run t).exchanges (fun q t (_ : Unit) => (b.answer q, t, ())) (),
      x.asked = t) : act.Calmly t (act.answeredBy b t).2 := by
  refine ⟨_, _, Run.took_serve _ (act.run t) (), fun x hx => ?_⟩
  obtain ⟨_, -, hresumed⟩ := Run.exists_of_mem_exchanges hx
  exact ⟨hresumed, (hfirst x hx).symm ▸ h⟩

/-- What always holds of the tree at the end always holds of it when the answer is mapped. -/
theorem always_calm_map (f : α → β) {P : Tree → Prop}
    (h : (act.run t).Always calm fun _ t' => P t') :
    ((f <$> act).run t).Always calm fun _ t' => P t' := by
  rw [run_map, Run.always_bind_iff]
  refine h.mono fun result t' ht' => ?_
  cases result with
  | ok _ => exact ht'
  | error _ => exact ht'

end TreeM

namespace Tree

variable {t : Tree}

/-- Attached nodes differ in their identities if such nodes do. -/
theorem distinct_of_closed (nodes : List Node) (hroot : t.root ∈ nodes)
    (hclosed : ∀ d ∈ nodes, ∀ c ∈ t.children? d, ∀ m ∈ c.present, m ∈ nodes)
    (hids : (nodes.map Node.id).Nodup) : t.Distinct :=
  fun _ _ hn hm => List.inj_on_of_nodup_map hids (hn.mem_of_closed hroot hclosed)
    (hm.mem_of_closed hroot hclosed)

end Tree

/-- A step that looks, lists, checks or forgets, or declares a listing complete, leaves a tree in
order. -/
theorem Tree.Kept.command {t : Tree} (h : t.Kept) (hdistinct : t.Distinct) (handles : Handles)
    {on : Operands} (hdir : t.AttachedDirectory on.dir) {command : Command}
    (hcommand : command.isPlain = true ∨ command = .markAllLoaded) :
    ((command.run handles on).run t).Always calm fun _ t' => t.Tended t' [] := by
  obtain ⟨c, hc⟩ := h.toRooted.exists_children hdir
  cases command with
  | lookup name =>
    exact TreeM.always_calm_map _ ((h.findChild hdir name t.config.canonicalizeNames).mono
      fun _ _ hlooked => hlooked.tended)
  | lookupPath path => exact TreeM.always_calm_map _ (h.lookupNames hdir.attached _)
  | cached name =>
    refine TreeM.always_calm_map _ ?_
    rw [Tree.run_findCached hc]
    exact h.tended
  | children =>
    refine TreeM.always_calm_map _ ?_
    rw [Tree.run_children hc]
    exact h.tended
  | refreshChildren => exact TreeM.always_calm_map _ (h.refreshChildren hdir)
  | findChildById source cachedOnly =>
    simp only [Command.run]
    split
    · exact h.tended
    · exact TreeM.always_calm_map _ (h.findChildById hdir _ _)
  | refreshAndFindChild name => exact TreeM.always_calm_map _ (h.refreshAndFindChild hdir name)
  | clearChildren =>
    obtain ⟨t', hrun, htended⟩ := h.clearChildren hdistinct hdir.attached hc
    refine TreeM.always_calm_map _ ?_
    rw [hrun]
    exact htended
  | markAllLoaded =>
    obtain ⟨t', hrun, htended⟩ := h.markAllLoaded hdistinct hdir.attached hc
    refine TreeM.always_calm_map _ ?_
    rw [hrun]
    exact htended
  | _ => simp [Command.isPlain] at hcommand

/-- A tree, and the children that were made for directories and wait to be added. -/
structure Nursery where
  /-- The tree. -/
  tree : Tree
  /-- The children that wait, each behind the directory that it was made for. -/
  young : List (Node × Node)

namespace Nursery

/-- A tree with nothing but its root, and no child that waits. -/
def start (policy : CasePolicy) (config : TreeConfig) (root : FileId) (name : String) : Nursery :=
  ⟨.ofRoot policy config root name, []⟩

/-- What may happen next. -/
inductive Step (s : Nursery) : Nursery → Prop where
  /-- An attached directory is looked at, listed, checked or forgotten, or its listing is declared
  complete. -/
  | command {t' : Tree} (handles : Handles) (on : Operands) (command : Command)
    (hdir : s.tree.AttachedDirectory on.dir)
    (hcommand : command.isPlain = true ∨ command = .markAllLoaded)
    (hrun : (command.run handles on).Calmly s.tree t') : Step s ⟨t', s.young⟩
  /-- A child is made for a directory, and waits. -/
  | make (dir : Node) (id : FileId) (name : String) (attributes : Attributes)
    (hdir : s.tree.Owns dir) :
    Step s ⟨(s.tree.make dir id name attributes).2,
      (dir, (s.tree.make dir id name attributes).1) :: s.young⟩
  /-- A child that waits is added to its directory, which is attached by now. -/
  | add {t' : Tree} (dir n : Node) (hdir : s.tree.AttachedDirectory dir)
    (hn : (dir, n) ∈ s.young) (hrun : (Tree.addChild dir n).Calmly s.tree t') :
    Step s ⟨t', s.young.erase (dir, n)⟩
  /-- A child in the array of an attached directory is removed from it. -/
  | remove {t' : Tree} (dir n : Node) (c : Children) (hdir : s.tree.Attached dir)
    (hc : s.tree.children? dir = some c) (hn : n ∈ c.present)
    (hrun : (Tree.removeChild dir n).Calmly s.tree t') : Step s ⟨t', s.young⟩
  /-- Whoever holds objects holds others. The root is held for good. -/
  | hold (held : List Nat) (hroot : s.tree.root.serial ∈ held) :
    Step s ⟨{ s.tree with held := held }, s.young⟩

/-- What is reached by steps after each of which attached nodes differ in their identities. -/
inductive Reached (first : Nursery) : Nursery → Prop where
  /-- The first one is. -/
  | start : Reached first first
  /-- What comes of a step is. -/
  | step {s s' : Nursery} (before : Reached first s) (hstep : s.Step s')
    (hdistinct : s'.tree.Distinct) : Reached first s'

/-- The tree is in order, attached nodes differ in their identities, and the children that wait are
new and different. -/
structure InOrder (s : Nursery) : Prop where
  /-- The tree is in order. -/
  kept : s.tree.Kept
  /-- Attached nodes differ in their identities. -/
  distinct : s.tree.Distinct
  /-- The children that wait are new. -/
  spare : ∀ p ∈ s.young, s.tree.Spare p.1 p.2
  /-- No child waits twice. -/
  once : (s.young.map Prod.snd).Nodup

variable {s s' : Nursery}

/-! ### Steps -/

/-- What became of the tree keeps the order, if those that wait by now have waited before, and none
of them was used. -/
theorem InOrder.tended (h : s.InOrder) {t' : Tree} {used : List Node}
    (ht : s.tree.Tended t' used) (hdistinct : t'.Distinct) {young : List (Node × Node)}
    (hyoung : young.Sublist s.young) (hunused : ∀ p ∈ young, p.2 ∉ used) :
    InOrder ⟨t', young⟩ where
  kept := ht.kept
  distinct := hdistinct
  spare p hp := ht.spare p.1 p.2 (h.spare p (hyoung.subset hp)) (hunused p hp)
  once := h.once.sublist (hyoung.map Prod.snd)

/-- Every step keeps the order, if attached nodes differ in their identities after it. -/
theorem InOrder.step (h : s.InOrder) (hstep : s.Step s') (hdistinct : s'.tree.Distinct) :
    s'.InOrder := by
  cases hstep with
  | command handles on command hdir hcommand hrun =>
    exact h.tended (hrun.of_always (h.kept.command h.distinct handles hdir hcommand)) hdistinct
      (List.Sublist.refl _) fun _ _ => List.not_mem_nil
  | make dir id name attributes hdir =>
    have hmade : Tree.Made s.tree (s.tree.make dir id name attributes).2 := .make _ _ _ _ (.refl _)
    have hrooted := h.kept.toRooted
    refine ⟨(h.kept.made hmade rfl).kept, hdistinct, List.forall_mem_cons.mpr
      ⟨hrooted.spare_make hdir id name attributes,
        fun p hp => (h.spare p hp).made hrooted hmade⟩,
      List.nodup_cons.mpr ⟨fun hmem => ?_, h.once⟩⟩
    -- the child that was made is none of those that waited before
    obtain ⟨p, hp, hsame⟩ := List.mem_map.mp hmem
    have hlt := (h.spare p hp).loose.owns.serial_lt
    rw [hsame] at hlt
    exact Nat.lt_irrefl _ hlt
  | add dir n hdir hn hrun =>
    obtain ⟨c, hc⟩ := h.kept.toRooted.exists_children hdir
    obtain ⟨node, t', hdone, htended⟩ :=
      h.kept.addChild h.distinct hdir.attached hc (h.spare (dir, n) hn)
    obtain rfl := hrun.of_run hdone
    refine h.tended htended hdistinct List.erase_sublist fun p hp hused => ?_
    obtain ⟨hother, hmem⟩ := (h.once.of_map _).mem_erase_iff.mp hp
    exact hother (List.inj_on_of_nodup_map h.once hmem hn (List.mem_singleton.mp hused))
  | remove dir n c hdir hc hn hrun =>
    obtain ⟨t', hdone, htended, -⟩ := h.kept.removeChild h.distinct hdir hc hn
    obtain rfl := hrun.of_run hdone
    exact h.tended htended hdistinct (List.Sublist.refl _) fun _ _ => List.not_mem_nil
  | hold held hroot =>
    exact ⟨h.kept.frame hroot, hdistinct, fun p hp => (h.spare p hp).frame _ _, h.once⟩

/-- A tree with nothing but its root, for which no child waits, is in order. -/
theorem inOrder_start (policy : CasePolicy) (config : TreeConfig) (root : FileId) (name : String) :
    (start policy config root name).InOrder where
  kept := Tree.kept_ofRoot policy config root name
  distinct := Tree.distinct_ofRoot policy config root name
  spare _ hp := absurd hp List.not_mem_nil
  once := List.nodup_nil

/-- Whatever is reached from a tree with nothing but its root is in order. -/
theorem Reached.inOrder {policy : CasePolicy} {config : TreeConfig} {root : FileId} {name : String}
    (hs : Reached (Nursery.start policy config root name) s) : s.InOrder := by
  induction hs with
  | start => exact inOrder_start policy config root name
  | step _ hstep hdistinct ih => exact ih.step hstep hdistinct

/-! ### The registry -/

/-- After every step the registry has exactly one entry for the root and for each node that is
reached from it through arrays. The identity of such a node leads to it, and the node lives; no other
identity leads to a node, and the number of entries is that of the attached nodes. -/
theorem registry_exact {policy : CasePolicy} {config : TreeConfig} {root : FileId} {name : String}
    (hs : Reached (start policy config root name) s) :
    s.tree.registry.nodes.Nodup ∧
      (∀ n, n ∈ s.tree.registry.nodes ↔ s.tree.Attached n) ∧
      (∀ n, s.tree.Attached n → s.tree.registry.find n.id = some n ∧
        s.tree.isLive n = true ∧ s.tree.node? n.id = some n) ∧
      {n | s.tree.Attached n}.encard = s.tree.registry.size ∧
      ∀ id, (∀ n, s.tree.Attached n → n.id ≠ id) →
        s.tree.registry.find id = none ∧ s.tree.node? id = none := by
  obtain ⟨hkept, hdistinct, -, -⟩ := hs.inOrder
  obtain ⟨hproper, hentries⟩ := hkept.exact hdistinct
  have hnodup : s.tree.registry.nodes.Nodup := hproper.of_map _
  refine ⟨hnodup, hentries, fun n hn => ?_, ?_, fun id hid => ?_⟩
  · have hfind : s.tree.registry.find n.id = some n :=
      hproper.find_eq_some_iff.mpr ⟨(hentries n).mpr hn, rfl⟩
    have hlive := hkept.toArborescent.isLive hn
    refine ⟨hfind, hlive, ?_⟩
    rw [Tree.node?, hfind, Option.filter_some_pos hlive]
  · have hset : {n | s.tree.Attached n} = (s.tree.registry.nodes.toFinset : Set Node) := by
      ext n
      simp [hentries]
    rw [hset, Set.encard_coe_eq_coe_finsetCard, List.toFinset_card_of_nodup hnodup]
    rfl
  · have hfind : s.tree.registry.find id = none := by
      cases hfound : s.tree.registry.find id with
      | none => rfl
      | some n =>
        obtain ⟨hn, hsame⟩ := hproper.find_eq_some_iff.mp hfound
        exact absurd hsame (hid n ((hentries n).mp hn))
    refine ⟨hfind, ?_⟩
    rw [Tree.node?, hfind]
    rfl

/-! ### A directory that is added and searched -/

namespace Sapling

/-- The identity of the root. -/
def root : FileId := ⟨1, FileId.raw_one_ne_zero⟩

/-- The identity of a directory below it. -/
def directory : FileId := ⟨2, FileId.raw_two_ne_zero⟩

/-- A table that has a file in the directory. -/
def table : Table :=
  ⟨.sensitive, [(directory, [⟨"file", FileId.ofRaw? 3, some default⟩])], [], []⟩

/-- The tree before anything happened. -/
def first : Nursery := start .sensitive default root "/"

/-- The directory and the tree, after it was made as a child of the root. -/
def made : Node × Tree := first.tree.make first.tree.root directory "dir" { directory := true }

/-- The tree after the directory was added. -/
def added : Tree := ((Tree.addChild first.tree.root made.1).answeredBy table made.2).2

/-- The search for the file in the directory. -/
def search : TreeM (StepReply Node) := (Command.lookup "file").run [] ⟨made.1, made.1, made.1⟩

/-- The tree after the directory was searched. -/
def searched : Tree := (search.answeredBy table added).2

/-- The only attached node is the root, until the directory is added. -/
theorem distinct_made : made.2.Distinct :=
  Tree.distinct_of_closed made.2.registry.nodes (by decide +kernel) (by decide +kernel)
    (by decide +kernel)

/-- The root and the directory differ in their identities. -/
theorem distinct_added : added.Distinct :=
  Tree.distinct_of_closed added.registry.nodes (by decide +kernel) (by decide +kernel)
    (by decide +kernel)

/-- The root, the directory and the file differ in their identities. -/
theorem distinct_searched : searched.Distinct :=
  Tree.distinct_of_closed searched.registry.nodes (by decide +kernel) (by decide +kernel)
    (by decide +kernel)

/-- Making the directory is a step. -/
theorem step_make : first.Step ⟨made.2, [(first.tree.root, made.1)]⟩ :=
  .make _ _ _ _ rfl

/-- Adding the directory is a step. -/
theorem step_add : Step ⟨made.2, [(first.tree.root, made.1)]⟩ ⟨added, []⟩ :=
  .add first.tree.root made.1 ⟨.root, rfl⟩ (List.mem_singleton_self _)
    (TreeM.calmly_answeredBy table _ distinct_made (by decide +kernel))

/-- Searching the directory is a step, as the directory is attached by now. -/
theorem step_search : Step ⟨added, []⟩ ⟨searched, []⟩ := by
  have hdirectory : added.Attached made.1 := by
    have hpresent : (added.children? added.root).map Children.present = some [made.1] := by
      decide +kernel
    obtain ⟨c, hc, hpresent⟩ := Option.map_eq_some_iff.mp hpresent
    exact .child .root hc (hpresent ▸ List.mem_singleton_self _)
  exact .command [] ⟨made.1, made.1, made.1⟩ (.lookup "file") ⟨hdirectory, rfl⟩ (.inl rfl)
    (TreeM.calmly_answeredBy table _ distinct_added (by decide +kernel))

/-- The steps lead to that tree, in which the root, the directory and the file are attached. -/
theorem reached_searched : Reached first ⟨searched, []⟩ :=
  .step (.step (.step .start step_make distinct_made) step_add distinct_added) step_search
    distinct_searched

/-- What is said of all runs holds of this one: the registry has three entries, one for each of the
root, the directory and the file. -/
theorem registry_exact_searched :
    Reached first ⟨searched, []⟩ ∧ searched.registry.size = 3 ∧ searched.registry.nodes.Nodup ∧
      (∀ n, n ∈ searched.registry.nodes ↔ searched.Attached n) ∧
      (∀ n, searched.Attached n → searched.registry.find n.id = some n ∧
        searched.isLive n = true ∧ searched.node? n.id = some n) ∧
      {n | searched.Attached n}.encard = searched.registry.size ∧
      ∀ id, (∀ n, searched.Attached n → n.id ≠ id) →
        searched.registry.find id = none ∧ searched.node? id = none :=
  ⟨reached_searched, by decide +kernel, registry_exact reached_searched⟩

end Sapling

end Nursery

end LazyTree
