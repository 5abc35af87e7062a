import LazyTree.Proofs.RegisteredObjects
import LazyTree.Proofs.WaysUp

set_option autoImplicit false

/-!
# Endless paths

A backend may report for a child the identity of the directory that it is in, or of one above. The
child then stands for that identity, and the way up from it comes back to it. Whether the path of a
node is found depends on nothing but that: it is found if the way up does not circle, and if it does
circle, then no number of steps leads to its end. A way circles only where some identity was given
to an object below that identity. So with a backend that does not do this all paths end, whatever
happens.

## Main definitions

* `LazyTree.Tree.PathEnds` — the path of a node is found, or an identity on the way to which no node
  stands.
* `LazyTree.Tree.Begets` — an object was made for an identity below another one.

## Main results

* `LazyTree.Tree.path_ends_iff` — paths end exactly if the ways up do not circle.
-/

namespace LazyTree.Tree

open TreeM Relation

/-- Climbing from a node comes to an end, and the operation that asks for the path of the node
answers what it comes to: the path, or that the node is detached. -/
def PathEnds (t : Tree) (n : Node) : Prop :=
  ∃ outcome, t.Climbs n outcome ∧
    (pathOf n).run t = .done ((outcome.map joinNames).mapError .detached) t

/-- An object of the tree stands for an identity, and was made for a child of a directory with some
other identity, or the same. -/
def Begets (t : Tree) (d id : FileId) : Prop :=
  ∃ n, t.Owns n ∧ n.parent = some d ∧ n.id = id

variable {t : Tree} {n p : Node}

/-- The way up from an object is a way up from its identity. -/
theorem Enrolled.transGen_begets (h : t.Enrolled) (hn : t.Owns n) (hway : TransGen t.Above n p) :
    TransGen t.Begets p.id n.id := by
  have hbegets : ∀ {m q}, t.Owns m → t.Above m q → t.Begets q.id m.id := by
    intro m q hm hq
    obtain ⟨id, hparent, hnode⟩ := above_iff.mp hq
    obtain ⟨hfind, -⟩ := Option.filter_eq_some_iff.mp hnode
    have hid : q.id = id := by simpa using List.find?_some hfind
    exact ⟨m, hm, hid ▸ hparent, rfl⟩
  induction hway using TransGen.head_induction_on with
  | single hstep => exact .single (hbegets hn hstep)
  | head hstep _ ih => exact (ih (h.entries _ hstep.mem)).tail (hbegets hn hstep)

/-- A way that circles leads through an identity that was given to an object below it. -/
theorem Enrolled.exists_begets_of_circles (h : t.Enrolled) (hcircles : t.Circles n) :
    ∃ id, TransGen t.Begets id id := by
  obtain ⟨m, -, hcircle⟩ := hcircles
  obtain ⟨q, -, hlast⟩ := TransGen.tail'_iff.mp hcircle
  exact ⟨m.id, h.transGen_begets (h.entries m hlast.mem) hcircle⟩

/-- When paths are found. In whatever a new tree has become, with any backend, by operations that
report only objects, the path of a node is found exactly if the way up from the node does not
circle; the way circles exactly if no number of steps leads to its end; and it circles only where,
along the objects of the tree, some identity was given to an object below itself. -/
theorem path_ends_iff {policy : CasePolicy} {config : TreeConfig} {root : FileId} {name : String}
    (h : Admits (ofRoot policy config root name) t) (n : Node) :
    (t.PathEnds n ↔ ¬ t.Circles n) ∧
      (t.Circles n ↔ ∀ steps, ∃ id, t.climb steps n = .error (.endless id)) ∧
      (t.Circles n → ∃ id, TransGen t.Begets id id) := by
  refine ⟨⟨?_, fun hends => ?_⟩, circles_iff_endless, ?_⟩
  · rintro ⟨outcome, hclimbs, -⟩
    exact hclimbs.not_circles
  · obtain ⟨outcome, hclimbs⟩ := exists_climbs_iff.mpr hends
    exact ⟨outcome, hclimbs, hclimbs.run_pathOf⟩
  · exact (h.enrolled (enrolled_ofRoot policy config root name)).exists_begets_of_circles

/-! ### A file with the identity of its directory -/

namespace Coiled

/-- The root of the tree. -/
def root : Node :=
  ⟨0, ⟨1, FileId.raw_one_ne_zero⟩, "root", none, { directory := true }⟩

/-- A file in the root, with the identity of the root. -/
def file : Node :=
  ⟨1, root.id, "a", some root.id, {}⟩

/-- A backend that tells of the file. -/
def table : Table :=
  (Table.ofRoot .sensitive root.id).add root.id ⟨"a", some file.id, some file.attributes⟩

/-- The tree after the file was looked up. -/
def found : Tree :=
  (ofRoot .sensitive {} root.id "root").stepped table.answer root (.lookup "a") [0, 1]

/-- The lookup may happen. -/
theorem admits_found : Admits (ofRoot .sensitive {} root.id "root") found :=
  .stepped table.answer root (.lookup "a") [0, 1] nofun (.refl _)

/-- The file is an object of the tree. -/
theorem owns_file : found.Owns file := by
  unfold Owns
  decide +kernel

/-- The file stands for the identity of the root, and so for that of its directory. -/
theorem above_file : found.Above file file := by
  have hnode : found.node? root.id = some file := by decide +kernel
  exact above_iff.mpr ⟨root.id, rfl, hnode⟩

/-- The way up from the file circles. -/
theorem circles_file : found.Circles file :=
  ⟨file, .refl, .single above_file⟩

/-- The path of the file is not found, as the way up from it has no end, and some identity, that of
the root, was given to an object below itself. -/
theorem path_ends_iff_found : ¬ found.PathEnds file ∧
    (∀ steps, ∃ id, found.climb steps file = .error (.endless id)) ∧
    ∃ id, TransGen found.Begets id id := by
  obtain ⟨hends, hendless, hbegets⟩ := path_ends_iff admits_found file
  exact ⟨fun h => hends.mp h circles_file, hendless.mp circles_file, hbegets circles_file⟩

/-- Not all paths are found. -/
theorem not_path_ends : ¬ ∀ {policy : CasePolicy} {config : TreeConfig} {root : FileId}
    {name : String} {t : Tree}, Admits (ofRoot policy config root name) t →
    ∀ n, t.Owns n → t.PathEnds n := by
  intro h
  obtain ⟨outcome, hclimbs, -⟩ := h admits_found file owns_file
  exact hclimbs.not_circles circles_file

end Coiled

end LazyTree.Tree
