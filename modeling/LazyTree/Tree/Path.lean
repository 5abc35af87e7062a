import LazyTree.Tree.Run

set_option autoImplicit false

/-!
# Paths of nodes

A node knows the identity of its directory, and the registry leads from there to the node of the
directory, so the path of a node is found by climbing to the root.

## Main definitions

* `LazyTree.Tree.climb` — the names on the way from a node to the root.
* `LazyTree.Tree.pathOf` — the path of a node.
-/

namespace LazyTree.Tree

open TreeM

/-- The names from a node up to the root, which itself contributes none. Each step up leads to
another identity of the registry unless the way has no end, so as many steps as there are
identities suffice. -/
def climb (t : Tree) : Nat → Node → Except TreeError (List String)
  | steps, node =>
    match node.parent with
    | none => .ok []
    | some id =>
      match t.node? id with
      | none => .error (.detached id)
      | some parent =>
        match steps with
        | 0 => .error (.endless id)
        | steps + 1 => (climb t steps parent).map (node.name :: ·)

/-- The path that consists of some names, the last one first. -/
def joinNames (names : List String) : String :=
  if names.isEmpty then "/" else String.join (names.reverse.map ("/" ++ ·))

/-- The path of a node from the root. -/
def pathOf (node : Node) : TreeM String := do
  let t ← get
  match t.climb t.registry.size node with
  | .ok names => return joinNames names
  | .error e => fail e

end LazyTree.Tree
