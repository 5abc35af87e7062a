import Mathlib
import LazyTree.Proofs.ChartedTrees
import LazyTree.Proofs.NodePaths

set_option autoImplicit false

/-!
# Paths in the tree and paths on the host

The backend finds the path of a file by its identity, and the tree finds the path of a node by climbing
to the root. Neither knows of the other. As long as the host stays as it is, they agree: over any
operations the path of the file of a node is that of the root, with the path of the node behind it. So
whoever opens the file at the path of a node opens the file that the node stands for.

## Main definitions

* `LazyTree.Mount` — a tree over a backend.
* `LazyTree.Mount.Step` — what may happen to it.
* `LazyTree.Mount.InOrder` — the tree is in order, and agrees with the backend.

## Main results

* `LazyTree.Tree.Charted.pathOf?_of_descent` — the place at the end of a way.
* `LazyTree.Mount.InOrder.step` — each step keeps the order.
* `LazyTree.Mount.paths_agree` — the paths of nodes and of their files.
-/

namespace LazyTree

/-! ### Ways and places -/

namespace HostPath

/-- The path through names that a backend has for a place is the path of its root, and behind it the path
that is spelled with the names and separators between them. -/
theorem path_eq_under (d : Disk) {names : List String} (hnone : names ≠ [])
    (hnames : ∀ name ∈ names, isFileName name = true) :
    d.path names =
      (ofText (String.ofList (List.intercalate ['/'] (names.map String.toList)))).under
        (d.path []) := by
  rw [ofText_intercalate hnone fun name hname => Disk.isComponent_of_isFileName (hnames name hname)]
  cases names with
  | nil => exact absurd rfl hnone
  | cons first rest =>
    simp [under, isAbsolute, Disk.path, Disk.location, ofNames, Function.comp_def]

end HostPath

namespace Tree

variable {t : Tree} {p : Places} {dir n : Node} {way : List Node} {place : Below}

/-- The path of a node other than the root begins with a separator, and goes on with the names on the way
to the node, with separators between them. -/
theorem joinNames_reverse {names : List String} (hnone : names ≠ []) :
    joinNames names.reverse =
      "/" ++ String.ofList (List.intercalate ['/'] (names.map String.toList)) := by
  have hsome : names.reverse.isEmpty = false := by simpa using hnone
  rw [joinNames, hsome, List.reverse_reverse]
  apply String.toList_inj.mp
  rw [if_neg Bool.false_ne_true, toList_join_names, String.toList_append, String.toList_ofList]
  cases names with
  | nil => exact absurd rfl hnone
  | cons first rest => simp [List.intercalate_cons_cons]

namespace Charted

/-- The place at the end of a way has the names on the way behind the place at its beginning. -/
theorem pathOf?_of_descent (ht : t.Charted p) (hway : t.Descent dir way n) (hdir : t.Attached dir)
    (hplace : p.pathOf? dir.id = some place) :
    p.pathOf? n.id = some (place ++ way.map Node.name) ∧
      ∀ k ∈ way, isFileName k.name = true := by
  induction hway generalizing place with
  | here => exact ⟨by simpa using hplace, nofun⟩
  | @down dir m n c way hknown hpresent _ ih =>
    obtain ⟨hname, place', hdirPlace, hchild⟩ := ht.joins dir c hdir hknown m hpresent
    obtain rfl := Option.some.inj (hplace.symm.trans hdirPlace)
    obtain ⟨hend, hnames⟩ := ih (hdir.child hknown hpresent) hchild
    refine ⟨?_, List.forall_mem_cons.mpr ⟨hname, hnames⟩⟩
    rw [hend, List.map_cons, List.append_assoc, List.singleton_append]

/-- If more identities are handed out, the agreement stays. -/
theorem grows {d d' : Disk} (ht : t.Charted d.places) (hd : d.places.Numbered)
    (hgrows : d.Grows d') : t.Charted d'.places where
  toRooted := ht.toRooted
  top := ht.top
  root := hgrows.pathOf? hd ht.root
  spelled := ht.spelled
  joins dir c hdir hc n hn := by
    obtain ⟨hname, place, hplace, hid⟩ := ht.joins dir c hdir hc n hn
    exact ⟨hname, place, hgrows.pathOf? hd hplace, hgrows.pathOf? hd hid⟩

end Charted

end Tree

/-! ### Trees over a backend -/

/-- A tree over a backend. -/
structure Mount where
  /-- The tree. -/
  tree : Tree
  /-- The backend. -/
  disk : Disk

namespace Mount

/-- A tree with nothing but its root, over a backend. -/
def start (policy : CasePolicy) (config : TreeConfig) (d : Disk) : Mount :=
  ⟨.ofRoot policy config Disk.rootId d.rootName, d⟩

/-- What comes of an operation, over a host. -/
def after {α : Type} (s : Mount) (h : Host) (act : TreeM α) : Mount :=
  ⟨((act.run s.tree).serve (DiskSession.serve h) s.disk).2.1,
    ((act.run s.tree).serve (DiskSession.serve h) s.disk).2.2⟩

/-- What may happen. -/
inductive Step (h : Host) (s : Mount) : Mount → Prop where
  /-- An attached directory is looked at, listed, checked or forgotten; identities are looked for only
  where case distinguishes names. -/
  | command (handles : Handles) (on : Operands) (command : Command)
    (hdir : s.tree.AttachedDirectory on.dir) (hplain : command.isPlain = true)
    (hpolicy : ∀ source cachedOnly, command = .findChildById source cachedOnly →
      s.tree.policy = .sensitive) : Step h s (s.after h (command.run handles on))
  /-- Whoever holds objects holds others. The root is held for good. -/
  | hold (held : List Nat) (hroot : s.tree.root.serial ∈ held) :
    Step h s ⟨{ s.tree with held := held }, s.disk⟩

/-- The tree is in order, and agrees with the backend; and the backend has only handed out identities
since it was opened. -/
structure InOrder (d : Disk) (s : Mount) : Prop where
  /-- The backend has handed out identities. -/
  grows : d.Grows s.disk
  /-- The tree is in order. -/
  kept : s.tree.Kept
  /-- The tree agrees with the backend. -/
  charted : s.tree.Charted s.disk.places

variable {h : Host} {d : Disk} {s s' : Mount}

/-- Each step keeps the order. -/
theorem InOrder.step (hs : s.InOrder d) (hnames : h.WellNamed) (hstep : s.Step h s') :
    s'.InOrder d := by
  have hnumbered := hs.grows.numbered
  cases hstep with
  | command handles on command hdir hplain hpolicy =>
    have hend := Disk.of_always_told hnumbered fun d' hgrows =>
      ((hs.charted.grows hnumbered hgrows).command hgrows.numbered hnames hs.kept handles hdir hplain
        hpolicy).always
    exact ⟨hs.grows.trans (.serve hnumbered h _), hend.2.kept, hend.1⟩
  | hold held hroot => exact ⟨hs.grows, hs.kept.frame hroot, hs.charted.frame _ _⟩

/-- A tree with nothing but its root is in order over a backend that was just opened. -/
theorem inOrder_start (root : Location) (policy : CasePolicy) (allowed : List HostPath)
    {config : TreeConfig} (hspelled : policy = .sensitive ∨ config.canonicalizeNames = true) :
    (start policy config (.ofRoot root policy allowed)).InOrder (.ofRoot root policy allowed) where
  grows := .refl (Disk.numbered_ofRoot root policy allowed)
  kept := Tree.kept_ofRoot _ _ _ _
  charted :=
    { toRooted := Tree.rooted_ofRoot _ _ _ _
      top := rfl
      root := rfl
      spelled := hspelled
      joins := by
        intro dir c hdir hc n hn
        obtain rfl := Tree.attached_ofRoot hdir
        obtain rfl : Children.empty policy = c := Option.some.inj hc
        rw [Children.present_empty] at hn
        cases hn }

/-- Whatever happens, the order is kept. -/
theorem InOrder.steps (hs : s.InOrder d) (hnames : h.WellNamed)
    (hsteps : Relation.ReflTransGen (Step h) s s') : s'.InOrder d := by
  induction hsteps with
  | refl => exact hs
  | tail _ hstep ih => exact ih.step hnames hstep

/-- Paths agree. A directory of a host was opened, and case distinguishes names or spellings are asked
for. Then, while the host stays as it is, whatever operations were carried out: the root of the backend
is where the path of the directory leads; each attached node but the root has a path, which begins with
a separator; the path that the backend has for the identity of the node is that of its root, with what
stands behind the separator joined to it; both paths end with the name of the node; and no two attached
nodes have the same identity.

**Proof sketch.** A way leads from the root to the node. The names on it are the place of the node,
because each child has the place of its directory with its own name behind; and they are what climbing
gives, as the registry is exact. -/
theorem paths_agree (hnames : h.WellNamed) {path : HostPath} {policy : CasePolicy}
    {config : TreeConfig} {allowed : List HostPath}
    (hopen : Disk.openAt h path policy allowed = .ok d)
    (hspelled : policy = .sensitive ∨ config.canonicalizeNames = true)
    (hsteps : Relation.ReflTransGen (Step h) (start policy config d) s) :
    h.locate path = .ok s.disk.root ∧
      (∀ n, s.tree.Attached n → n ≠ s.tree.root → ∃ text,
        (Tree.pathOf n).run s.tree = .done (.ok ("/" ++ text)) s.tree ∧
          (s.disk.places.pathOf? n.id).map s.disk.path =
            some ((HostPath.ofText text).under (s.disk.path [])) ∧
          (Tree.components ("/" ++ text)).getLast? = some n.name ∧
          ((HostPath.ofText text).under (s.disk.path [])).getLast? = some (.name (.text n.name))) ∧
      ∀ n m, s.tree.Attached n → s.tree.Attached m → n.id = m.id → n = m := by
  obtain ⟨hroot, hnew⟩ := Disk.eq_ofRoot_of_openAt hopen
  have hstart : (start policy config d).InOrder d := by
    rw [hnew]
    exact inOrder_start _ policy _ hspelled
  obtain ⟨hgrows, hkept, hcharted⟩ := hstart.steps hnames hsteps
  have hdistinct := hcharted.distinct hgrows.numbered
  refine ⟨?_, fun n hn hother => ?_, hdistinct⟩
  · rw [hgrows.same]
    exact hroot
  -- a way that leads to another node ends with that node
  obtain ⟨way, hway⟩ : ∃ way, s.tree.Descent s.tree.root (way ++ [n]) n := by
    cases hn with
    | root => exact absurd rfl hother
    | child hdir hc hmem =>
      obtain ⟨way, hway⟩ := hdir.exists_descent
      exact ⟨way, hway.snoc hc hmem⟩
  obtain ⟨hplace, hfiles⟩ := hcharted.pathOf?_of_descent hway .root hcharted.root
  have hrun := hway.run_pathOf hkept.toArborescent (hkept.exact hdistinct) hcharted.top
  have hlast : ((way ++ [n]).map Node.name).getLast? = some n.name := by simp
  have hvalid : ∀ name ∈ (way ++ [n]).map Node.name, isFileName name = true := by
    intro name hname
    obtain ⟨k, hk, rfl⟩ := List.mem_map.mp hname
    exact hfiles k hk
  generalize (way ++ [n]).map Node.name = names at *
  have hnone : names ≠ [] := by
    rintro rfl
    cases hlast
  rw [Tree.joinNames_reverse hnone] at hrun
  have hpath := HostPath.path_eq_under s.disk hnone hvalid
  refine ⟨_, hrun, ?_, ?_, ?_⟩
  · rw [hplace, List.nil_append, Option.map_some, hpath]
  · rw [← Tree.joinNames_reverse hnone, Tree.components_joinNames, List.reverse_reverse, hlast]
    exact fun name hname => hvalid name (List.mem_reverse.mp hname)
  · obtain ⟨front, rfl⟩ := List.getLast?_eq_some_iff.mp hlast
    rw [← hpath, Disk.path_concat, List.getLast?_concat]

/-! ### A name in another case

A file is looked up under names that differ from those on the host by case. -/

namespace Parcel

/-- The host. -/
def host : Host where
  top := .directory false [(.text "r", .directory false [
    (.text "A", .directory false [(.text "f", .file false .empty)])])]

/-- The path of the directory. -/
def path : HostPath :=
  [.top, .name (.text "r")]

/-- The backend, as it is opened. -/
def disk : Disk :=
  .ofRoot [.text "r"] .insensitive []

/-- The tree over the backend, as it is opened. -/
def first : Mount :=
  start .insensitive {} disk

/-- The file is looked up. -/
def search : TreeM (StepReply Node) :=
  (Command.lookupPath "a/F").run [] ⟨first.tree.root, first.tree.root, first.tree.root⟩

/-- The directory. -/
def directory : Node :=
  ⟨1, ⟨2, FileId.raw_two_ne_zero⟩, "A", some Disk.rootId, { directory := true }⟩

/-- The file. -/
def file : Node :=
  ⟨2, ⟨3, FileId.raw_three_ne_zero⟩, "f", some directory.id, {}⟩

/-- Files can have all the names. -/
theorem wellNamed_host : host.WellNamed := by
  have hnamed {name : String} (hname : isFileName name = true) :
      ∀ m, FileName.text name = .text m → isFileName m = true := by
    rintro m ⟨⟩
    exact hname
  have hfile : (Entry.file false .empty).WellNamed := Entry.wellNamed_of_entries_eq_nil rfl
  refine Entry.wellNamed_directory (List.forall_mem_singleton.mpr ⟨hnamed (by decide), ?_⟩)
  refine Entry.wellNamed_directory (List.forall_mem_singleton.mpr ⟨hnamed (by decide), ?_⟩)
  exact Entry.wellNamed_directory (List.forall_mem_singleton.mpr ⟨hnamed (by decide), hfile⟩)

/-- Looking the file up is a step. -/
theorem steps_search : Relation.ReflTransGen (Step host) first (first.after host search) :=
  .single (.command [] ⟨first.tree.root, first.tree.root, first.tree.root⟩ (.lookupPath "a/F")
    ⟨.root, rfl⟩ rfl nofun)

/-- The directory is in the root, and the file is in the directory. -/
theorem attached_file : (first.after host search).tree.Attached file := by
  have hroot : ((first.after host search).tree.children?
      (first.after host search).tree.root).map Children.present = some [directory] := by cbv
  have hdirectory : ((first.after host search).tree.children? directory).map Children.present =
      some [file] := by cbv
  obtain ⟨c, hc, hpresent⟩ := Option.map_eq_some_iff.mp hroot
  obtain ⟨c', hc', hpresent'⟩ := Option.map_eq_some_iff.mp hdirectory
  exact .child (.child .root hc (hpresent ▸ List.mem_singleton_self _)) hc'
    (hpresent' ▸ List.mem_singleton_self _)

/-- What is said of all trees over backends holds of this one, in which the file has the path of its
spelling. -/
theorem paths_agree_search :
    host.WellNamed ∧ Disk.openAt host path .insensitive [] = .ok disk ∧
      Relation.ReflTransGen (Step host) first (first.after host search) ∧
      (Tree.pathOf file).run (first.after host search).tree =
        .done (.ok "/A/f") (first.after host search).tree ∧
      (∃ text, (Tree.pathOf file).run (first.after host search).tree =
          .done (.ok ("/" ++ text)) (first.after host search).tree ∧
        ((first.after host search).disk.places.pathOf? file.id).map
            (first.after host search).disk.path =
          some ((HostPath.ofText text).under ((first.after host search).disk.path []))) ∧
      ∀ n m, (first.after host search).tree.Attached n → (first.after host search).tree.Attached m →
        n.id = m.id → n = m := by
  have hopen : Disk.openAt host path .insensitive [] = .ok disk := by cbv
  have hspelled : ({} : TreeConfig).canonicalizeNames = true := rfl
  obtain ⟨-, hpaths, hdistinct⟩ := paths_agree wellNamed_host hopen (.inr hspelled) steps_search
  obtain ⟨text, hrun, hplace, -⟩ := hpaths file attached_file fun heq =>
    absurd (congrArg Node.name heq) (by cbv)
  exact ⟨wellNamed_host, hopen, steps_search, by cbv, ⟨text, hrun, hplace⟩, hdistinct⟩

end Parcel

end Mount

end LazyTree
