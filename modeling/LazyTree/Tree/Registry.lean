import LazyTree.Node

set_option autoImplicit false

/-!
# The registry of identities

The registry leads from an identity to the node that stands for it. It does not keep nodes
alive: an entry may outlast its node.

## Main definitions

* `LazyTree.Registry` — the entries, at most one for each identity.
* `LazyTree.Registry.find`, `LazyTree.Registry.put`, `LazyTree.Registry.erase` — its operations.

## Main results

* `LazyTree.Registry.find_put`, `LazyTree.Registry.find_erase` — what is found after a change.
-/

namespace LazyTree

/-- The nodes that stand for identities, the latest entry first. -/
structure Registry where
  /-- The entries. -/
  nodes : List Node
deriving DecidableEq

namespace Registry

/-- The registry without entries. -/
def empty : Registry := ⟨[]⟩

/-- The number of identities that have an entry. -/
def size (r : Registry) : Nat :=
  r.nodes.length

/-- The node that stands for an identity. -/
def find (r : Registry) (id : FileId) : Option Node :=
  r.nodes.find? (·.id = id)

/-- Drops the entry for an identity. -/
def erase (r : Registry) (id : FileId) : Registry :=
  ⟨r.nodes.filter (·.id ≠ id)⟩

/-- Makes a node stand for its identity, in place of any other. -/
def put (r : Registry) (node : Node) : Registry :=
  ⟨node :: (r.erase node.id).nodes⟩

/-- Dropping an entry changes nothing for other identities. -/
theorem find_erase (r : Registry) (id id' : FileId) :
    (r.erase id).find id' = if id = id' then none else r.find id' := by
  obtain ⟨nodes⟩ := r
  simp only [erase, find]
  induction nodes with
  | nil => simp
  | cons n ns ih => grind

/-- After an entry is put, its identity leads to its node and every other one where it led. -/
theorem find_put (r : Registry) (node : Node) (id : FileId) :
    (r.put node).find id = if node.id = id then some node else r.find id := by
  by_cases h : node.id = id
  · simp [put, find, h]
  · simpa [put, find, h] using find_erase r node.id id

end Registry

end LazyTree
