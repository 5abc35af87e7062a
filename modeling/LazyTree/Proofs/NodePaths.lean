import Mathlib
import LazyTree.Proofs.Nursery
import LazyTree.Tree.Path

set_option autoImplicit false

/-!
# Paths lead back to nodes

The path of a node is found by climbing from identity to identity through the registry, and a path
is followed by descending from name to name through the arrays. As long as attached nodes differ in
their identities, the registry leads from the identity of a directory to that very directory; and as
long as files can have the names in the arrays, each array finds its own children by their names. So
the path of an attached node leads back to it, without a question to the backend.

## Main definitions

* `LazyTree.Tree.Descent` — a way from a node down through arrays.
* `LazyTree.Nursery.Named` — what is reached by steps that attach only names that files can have.

## Main results

* `LazyTree.Tree.components_join` — a path consists of the names that it was made of.
* `LazyTree.Tree.Descent.climb_eq` — climbing goes up a way, and gives its names.
* `LazyTree.Tree.Descent.run_lookupNames` — looking its names up goes down a way.
* `LazyTree.Nursery.path_round_trip` — the path of an attached node leads back to the node.
-/

namespace LazyTree

namespace Tree

open TreeM

variable {t : Tree} {dir n m : Node} {c : Children} {way : List Node}

/-! ### The names of a path -/

/-- No name of a file has a separator in it. -/
theorem separator_not_mem {name : String} (h : isFileName name = true) : '/' ∉ name.toList := by
  intro hmem
  unfold isFileName at h
  simp only [Bool.and_eq_true, Bool.not_eq_true', List.any_eq_false] at h
  exact h.2 '/' hmem rfl

/-- The name of a file is a step of a path. -/
theorem isStep_of_isFileName {name : String} (h : isFileName name = true) :
    (!name.isEmpty && name != ".") = true := by
  unfold isFileName at h
  simp only [Bool.and_eq_true] at h ⊢
  exact h.1.1

/-- The characters of a path are those of its names, with separators between them and one in front.
-/
theorem toList_join_names (names : List String) : (String.join (names.map ("/" ++ ·))).toList =
    List.intercalate ['/'] ([] :: names.map String.toList) := by
  rw [String.toList_join]
  induction names with
  | nil => rfl
  | cons name rest ih =>
    rw [List.map_cons, List.flatMap_cons, ih, List.map_cons, List.intercalate_cons_cons]
    cases rest with
    | nil => simp
    | cons next rest => simp [List.intercalate_cons_cons]

/-- A path that was made of names of files consists of these names. -/
theorem components_join {names : List String} (h : ∀ name ∈ names, isFileName name = true) :
    components (String.join (names.map ("/" ++ ·))) = names := by
  have htexts : (String.join (names.map ("/" ++ ·))).toList.splitOn '/' =
      [] :: names.map String.toList := by
    rw [toList_join_names]
    refine List.splitOn_intercalate '/' (List.forall_mem_cons.mpr ⟨List.not_mem_nil, ?_⟩)
      (List.cons_ne_nil _ _)
    intro text htext
    obtain ⟨name, hname, rfl⟩ := List.mem_map.mp htext
    exact separator_not_mem (h name hname)
  have hback : (names.map String.toList).map String.ofList = names := by
    rw [List.map_map]
    exact (List.map_congr_left fun _ _ => String.ofList_toList).trans (List.map_id names)
  rw [components, htexts, List.map_cons, hback]
  exact List.filter_eq_self.mpr fun name hname => isStep_of_isFileName (h name hname)

/-- The path that was made of names of files, the last one first, consists of these names. -/
theorem components_joinNames {names : List String} (h : ∀ name ∈ names, isFileName name = true) :
    components (joinNames names) = names.reverse := by
  unfold joinNames
  split
  · next hempty =>
    rw [List.isEmpty_iff.mp hempty]
    decide
  · exact components_join fun name hname => h name (List.mem_reverse.mp hname)

/-! ### Names of children -/

/-- Letting go of a node that was taken hold of changes nothing. -/
theorem release_hold (t : Tree) (n : Node) : (t.hold [n]).release [n] = t := by
  simp [hold, release]

/-- Looking the name of a child up answers the child, without a question, if files can have the
name. -/
theorem run_lookup_child (ht : t.Tidy) (hc : t.children? dir = some c) (hm : m ∈ c.present)
    (hname : isFileName m.name = true) :
    (lookup dir m.name).run t = .done (.ok (.present m)) t :=
  run_findChild_of_fact? ht hc hname ((mem_present_iff (ht dir c hc).2).mp hm) _

/-- Looking names up, the first of which is that of a child, goes on from the child. -/
theorem run_lookupNames_cons (ht : t.Tidy) (hc : t.children? dir = some c) (hm : m ∈ c.present)
    (hname : isFileName m.name = true) (hdirectory : dir.isDirectory = true)
    (rest : List String) :
    (lookupNames dir (m.name :: rest)).run t = (lookupNames m rest).run t := by
  have hheld : (t.hold [dir]).Tidy := ht
  have hfound : (holding [dir] (lookup dir m.name)).run t = .done (.ok (.present m)) t := by
    rw [run_holding, run_lookup_child hheld hc hm hname, Run.settle, release_hold]
  rw [lookupNames, if_pos hdirectory, run_bind, hfound]
  rfl

/-! ### Ways -/

/-- A way leads from a node down to another one: through the array of each directory on the way to
the next node. -/
inductive Descent (t : Tree) : Node → List Node → Node → Prop where
  /-- The empty way leads nowhere else. -/
  | here (n : Node) : Descent t n [] n
  /-- A way may begin with a child. -/
  | down {dir m n : Node} {c : Children} {way : List Node} (known : t.children? dir = some c)
    (present : m ∈ c.present) (rest : Descent t m way n) : Descent t dir (m :: way) n

namespace Descent

/-- A way may go on to a child. -/
theorem snoc (h : t.Descent dir way n) (hc : t.children? n = some c) (hm : m ∈ c.present) :
    t.Descent dir (way ++ [m]) m := by
  induction h with
  | here => exact .down hc hm (.here m)
  | down hknown hpresent _ ih => exact .down hknown hpresent (ih hc)

/-- What lies on a way from an attached node is attached. -/
theorem attached (h : t.Descent dir way n) (hdir : t.Attached dir) :
    ∀ k ∈ way, t.Attached k := by
  induction h with
  | here => exact nofun
  | down hknown hpresent _ ih =>
    have hchild := hdir.child hknown hpresent
    exact List.forall_mem_cons.mpr ⟨hchild, ih hchild⟩

/-- On a way from an attached node each node was made after those before it. -/
theorem pairwise (ht : t.Arborescent) (h : t.Descent dir way n) (hdir : t.Attached dir) :
    (dir :: way).Pairwise (·.serial < ·.serial) := by
  induction h with
  | here => exact List.pairwise_singleton _ _
  | @down dir m n c way hknown hpresent _ ih =>
    have hrest := ih (hdir.child hknown hpresent)
    have hlater := ht.later dir c m hdir hknown hpresent
    refine List.pairwise_cons.mpr ⟨List.forall_mem_cons.mpr ⟨hlater, fun k hk => ?_⟩, hrest⟩
    exact Nat.lt_trans hlater ((List.pairwise_cons.mp hrest).1 k hk)

/-- A way from an attached node is no longer than there are entries in an exact registry. -/
theorem length_le (ht : t.Arborescent) (hexact : t.Exact) (h : t.Descent dir way n)
    (hdir : t.Attached dir) : way.length ≤ t.registry.size := by
  have hnodup : way.Nodup := (List.pairwise_cons.mp (h.pairwise ht hdir)).2.imp fun hlt hsame => by
    rw [hsame] at hlt
    exact Nat.lt_irrefl _ hlt
  exact (hnodup.subperm fun k hk => (hexact.entries k).mpr (h.attached hdir k hk)).length_le

/-- Climbing from the end of a way comes up to its beginning, and gives its names. -/
theorem climb_eq (ht : t.Arborescent) (hexact : t.Exact) (h : t.Descent dir way n)
    (hdir : t.Attached dir) (steps : Nat) :
    t.climb (steps + way.length) n =
      (t.climb steps dir).map ((way.map Node.name).reverse ++ ·) := by
  induction h generalizing steps with
  | here => cases climb t steps _ <;> rfl
  | @down dir m n c way hknown hpresent _ ih =>
    have hparent := ht.parent dir c m hdir hknown hpresent
    have hnode : t.node? dir.id = some dir := by
      rw [node?, hexact.proper.find_eq_some_iff.mpr ⟨(hexact.entries dir).mpr hdir, rfl⟩,
        Option.filter_some_pos (ht.isLive hdir)]
    have hup : t.climb (steps + 1) m = (t.climb steps dir).map (m.name :: ·) := by
      rw [climb, hparent]
      dsimp only
      rw [hnode]
    rw [List.length_cons, Nat.add_comm way.length 1, ← Nat.add_assoc,
      ih (hdir.child hknown hpresent), hup]
    cases t.climb steps dir with
    | error e => rfl
    | ok names => simp [Except.map]

/-- The path of the end of a way from the root consists of the names on the way. -/
theorem run_pathOf (ht : t.Arborescent) (hexact : t.Exact) (hroot : t.root.parent = none)
    (h : t.Descent t.root way n) :
    (pathOf n).run t = .done (.ok (joinNames (way.map Node.name).reverse)) t := by
  have htop : ∀ steps, t.climb steps t.root = .ok [] := by
    intro steps
    rw [climb, hroot]
  have hclimb : t.climb t.registry.size n = .ok (way.map Node.name).reverse := by
    obtain ⟨steps, hsteps⟩ := Nat.exists_eq_add_of_le' (h.length_le ht hexact .root)
    rw [hsteps, h.climb_eq ht hexact .root, htop]
    simp [Except.map]
  rw [pathOf, run_bind, run_get, Run.bind_done_ok, hclimb]
  rfl

/-- Looking the names of a way up goes down the way, without a question. -/
theorem run_lookupNames (ht : t.Arborescent) (h : t.Descent dir way n) (hdir : t.Attached dir)
    (hnames : ∀ k ∈ way, isFileName k.name = true) :
    (lookupNames dir (way.map Node.name)).run t = .done (.ok (.present n)) t := by
  induction h with
  | here => rfl
  | @down dir m n c way hknown hpresent _ ih =>
    obtain ⟨hname, hnames⟩ := List.forall_mem_cons.mp hnames
    have hdirectory := ht.toRooted.isDirectory (ht.owns dir hdir) hknown
    rw [List.map_cons, run_lookupNames_cons ht.tidy hknown hpresent hname hdirectory]
    exact ih (hdir.child hknown hpresent) hnames

end Descent

/-- A way leads from the root to each attached node. -/
theorem Attached.exists_descent (h : t.Attached n) : ∃ way, t.Descent t.root way n := by
  induction h with
  | root => exact ⟨[], .here _⟩
  | child _ hc hn ih =>
    obtain ⟨way, hway⟩ := ih
    exact ⟨_, hway.snoc hc hn⟩

/-- If the registry is exact, the root has no directory, and files can have the names of all other
attached nodes, then an attached node has a path, and that path leads back to the node. -/
theorem Arborescent.exists_path (ht : t.Arborescent) (hexact : t.Exact)
    (hroot : t.root.parent = none)
    (hnames : ∀ k, t.Attached k → k = t.root ∨ isFileName k.name = true) (hn : t.Attached n) :
    ∃ path, (pathOf n).run t = .done (.ok path) t ∧
      (lookupPath t.root path).run t = .done (.ok (.present n)) t := by
  obtain ⟨way, hway⟩ := hn.exists_descent
  have hfiles : ∀ k ∈ way, isFileName k.name = true := by
    intro k hk
    refine (hnames k (hway.attached .root k hk)).resolve_left fun hsame => ?_
    have hlater := (List.pairwise_cons.mp (hway.pairwise ht .root)).1 k hk
    rw [hsame] at hlater
    exact Nat.lt_irrefl _ hlater
  refine ⟨joinNames (way.map Node.name).reverse, hway.run_pathOf ht hexact hroot, ?_⟩
  rw [lookupPath, components_joinNames, List.reverse_reverse]
  · exact hway.run_lookupNames ht .root hfiles
  · intro name hname
    obtain ⟨k, hk, rfl⟩ := List.mem_map.mp (List.mem_reverse.mp hname)
    exact hfiles k hk

/-- No update changes which node is the root. -/
theorem stable_root (policy : CasePolicy) (root : Node) :
    Stable policy fun t => t.policy = policy ∧ t.root = root where
  policy _ h := h.1
  update := by
    rintro t t' hupdate h
    cases hupdate <;> exact h

end Tree

namespace Nursery

variable {s s' : Nursery}

/-- What is reached by steps after each of which attached nodes differ in their identities, if files
can have the name of each node that becomes attached. -/
inductive Named (first : Nursery) : Nursery → Prop where
  /-- The first one is. -/
  | start : Named first first
  /-- What comes of a step is. -/
  | step {s s' : Nursery} (before : Named first s) (hstep : s.Step s')
    (hdistinct : s'.tree.Distinct)
    (hnames : ∀ n, s'.tree.Attached n → s.tree.Attached n ∨ isFileName n.name = true) :
    Named first s'

/-- What is reached so is reached. -/
theorem Named.reached {first : Nursery} (hs : Named first s) : Reached first s := by
  induction hs with
  | start => exact .start
  | step _ hstep hdistinct _ ih => exact .step ih hstep hdistinct

/-- An operation during which nothing else happens leaves the root the same node. -/
theorem root_of_calmly {α : Type} {act : TreeM α} {t t' : Tree} (h : act.Calmly t t')
    (hact : TreeM.Keeps (fun u : Tree => u.policy = t.policy ∧ u.root = t.root) act) :
    t'.root = t.root := by
  refine h.of_always (P := fun u => u.root = t.root) ?_
  refine ((hact t ⟨rfl, rfl⟩).of_world fun _ _ _ _ hcalm hroot => ?_).mono fun _ _ hroot => hroot.2
  rw [hcalm.1]
  exact hroot

/-- No step changes which node is the root. -/
theorem Step.root (h : s.Step s') : s'.tree.root = s.tree.root := by
  have hstable := Tree.stable_root s.tree.policy s.tree.root
  cases h with
  | command handles on command _ _ hrun =>
    exact root_of_calmly hrun (hstable.command handles on command)
  | make => rfl
  | add dir n _ _ hrun => exact root_of_calmly hrun (hstable.addChild dir n)
  | remove dir n c _ _ _ hrun => exact root_of_calmly hrun (hstable.firm.removeChild dir n)
  | hold => rfl

/-- Files can have the names of all attached nodes but the root, which is the first one. -/
theorem Named.names {policy : CasePolicy} {config : TreeConfig} {root : FileId} {name : String}
    (hs : Named (Nursery.start policy config root name) s) :
    s.tree.root = (Nursery.start policy config root name).tree.root ∧
      ∀ n, s.tree.Attached n → n = s.tree.root ∨ isFileName n.name = true := by
  induction hs with
  | start => exact ⟨rfl, fun n hn => .inl (Tree.attached_ofRoot hn)⟩
  | step _ hstep _ hnames ih =>
    refine ⟨hstep.root.trans ih.1, fun n hn => ?_⟩
    rw [hstep.root]
    exact (hnames n hn).elim (ih.2 n) .inr

/-- Paths lead back. In whatever is reached by steps after which attached nodes differ in their
identities, if only names that files can have are attached, each attached node has a path, looking
that path up from the root answers the very node and asks nothing, and two attached nodes that have
the same path are the same. -/
theorem path_round_trip {policy : CasePolicy} {config : TreeConfig} {root : FileId} {name : String}
    (hs : Named (start policy config root name) s) :
    (∀ n, s.tree.Attached n → ∃ path,
      (Tree.pathOf n).run s.tree = .done (.ok path) s.tree ∧
        (Tree.lookupPath s.tree.root path).run s.tree = .done (.ok (.present n)) s.tree) ∧
      ∀ n m path, s.tree.Attached n → s.tree.Attached m →
        (Tree.pathOf n).run s.tree = .done (.ok path) s.tree →
        (Tree.pathOf m).run s.tree = .done (.ok path) s.tree → n = m := by
  obtain ⟨hkept, hdistinct, -, -⟩ := hs.reached.inOrder
  obtain ⟨hroot, hnames⟩ := hs.names
  have hparent : s.tree.root.parent = none := by
    rw [hroot]
    rfl
  have hpath : ∀ n, s.tree.Attached n → _ := fun n hn =>
    hkept.toArborescent.exists_path (hkept.exact hdistinct) hparent hnames hn
  refine ⟨hpath, fun n m path hn hm hpathn hpathm => ?_⟩
  obtain ⟨path₁, hrun₁, hback₁⟩ := hpath n hn
  obtain ⟨path₂, hrun₂, hback₂⟩ := hpath m hm
  obtain rfl : path₁ = path := by
    injection hrun₁.symm.trans hpathn with h
    exact Except.ok.inj h
  obtain rfl : path₂ = path₁ := by
    injection hrun₂.symm.trans hpathm with h
    exact Except.ok.inj h
  injection hback₁.symm.trans hback₂ with h
  injection h with h
  injection h

/-! ### The path of a file in a directory -/

namespace Sapling

/-- Files can have the names of the nodes that become attached in a step, if they can have those of
nodes that all attached ones are among then. -/
theorem names_of_closed {t t' : Tree} (nodes : List Node) (hroot : t'.root ∈ nodes)
    (hclosed : ∀ d ∈ nodes, ∀ c ∈ t'.children? d, ∀ m ∈ c.present, m ∈ nodes)
    (hnames : ∀ n ∈ nodes, n = t.root ∨ isFileName n.name = true) (n : Node)
    (hn : t'.Attached n) : t.Attached n ∨ isFileName n.name = true := by
  rcases hnames n (hn.mem_of_closed hroot hclosed) with rfl | hname
  · exact .inl .root
  · exact .inr hname

/-- Files can have the names of the directory and of the file in it. -/
theorem named_searched : Named first ⟨searched, []⟩ := by
  have hmade : Named first ⟨made.2, [(first.tree.root, made.1)]⟩ :=
    .step .start step_make distinct_made (names_of_closed made.2.registry.nodes (by decide +kernel)
      (by decide +kernel) (by decide +kernel))
  have hadded : Named first ⟨added, []⟩ :=
    .step hmade step_add distinct_added (names_of_closed added.registry.nodes (by decide +kernel)
      (by decide +kernel) (by decide +kernel))
  exact .step hadded step_search distinct_searched (names_of_closed searched.registry.nodes
    (by decide +kernel) (by decide +kernel) (by decide +kernel))

/-- The file, the third object that was made. -/
def file : Node := ⟨2, ⟨3, FileId.raw_three_ne_zero⟩, "file", some directory, default⟩

/-- What is said of all runs holds of this one, in which the path of the file names the directory
first. -/
theorem path_round_trip_searched :
    Named first ⟨searched, []⟩ ∧ searched.Attached file ∧
      (Tree.pathOf file).run searched = .done (.ok "/dir/file") searched ∧
      (∀ n, searched.Attached n → ∃ path,
        (Tree.pathOf n).run searched = .done (.ok path) searched ∧
          (Tree.lookupPath searched.root path).run searched = .done (.ok (.present n)) searched) ∧
      ∀ n m path, searched.Attached n → searched.Attached m →
        (Tree.pathOf n).run searched = .done (.ok path) searched →
        (Tree.pathOf m).run searched = .done (.ok path) searched → n = m := by
  have hexact := reached_searched.inOrder.kept.exact distinct_searched
  exact ⟨named_searched, (hexact.entries file).mp (by decide +kernel), by cbv,
    path_round_trip named_searched⟩

end Sapling

end Nursery

end LazyTree
