import LazyTree.Tree.Listing

set_option autoImplicit false

/-!
# Reported changes

What the tree does when it is told that files came or went, and how it checks a child again that
it believes to know.

## Main definitions

* `LazyTree.Tree.addChild`, `LazyTree.Tree.removeChild` — a child came or went.
* `LazyTree.Tree.clearChildren` — forget everything about a directory.
* `LazyTree.Tree.markAllLoaded` — the cached children are all there are.
* `LazyTree.Tree.refreshAndFindChild` — look a name up and check the answer with the backend.
* `LazyTree.Tree.markDirtyRecursively` — a node and all below it need a refresh.
-/

namespace LazyTree.Tree

open TreeM

/-- Adds a child to a directory, in place of a recorded absence. The answer is the child, or one
that was cached under its name before. -/
def addChild (dir child : Node) : TreeM Node := do
  let node ← change dir (·.insert child)
  modify (·.register node)
  return node

/-- Removes a child from a directory, and tells whether it was cached. -/
def removeChild (dir child : Node) : TreeM Bool := do
  let remember := (← get).config.cacheRemovedNames
  let removed ← change dir (·.remove child remember)
  if removed then unregisterSubtrees [child]
  return removed

/-- Forgets everything about the children of a directory. -/
def clearChildren (dir : Node) : TreeM Unit := do
  let dropped := (← childrenOf dir).present
  holding dropped do
    change dir Children.clear
    unregisterSubtrees dropped

/-- Declares the cached children of a directory to be all there are. -/
def markAllLoaded (dir : Node) : TreeM Unit :=
  change dir Children.markAllLoaded

/-- The names recorded as absent in a directory. -/
def absentNames (dir : Node) : TreeM (List String) := do
  return (← childrenOf dir).absentNames

/-- Adds a child that the backend has by now, under the backend's spelling of its name. -/
def materializeCreated (dir : Node) (name : String) : TreeM (Option Node) := do
  if !isFileName name then return none
  match ← ask (.attributes dir.id name) with
  | none => return none
  | some attributes =>
    let spelling ← ask (.canonical dir.id name)
    match ← ask (.resolve dir.id spelling (← get).policy) with
    | none => return none
    | some id =>
      let child ← newChild dir id spelling attributes
      return some (← addChild dir child)

/-- Checks a cached child with the backend. It is dropped if it has vanished, and made anew if it
has changed between file and directory. -/
def recheck (dir node : Node) : TreeM (Option Node) := do
  match ← ask (.attributes dir.id node.name) with
  | none =>
    let _ ← removeChild dir node
    return none
  | some attributes =>
    if attributes.directory = node.isDirectory then return some node
    let _ ← removeChild dir node
    materializeCreated dir node.name

/-- The child of a directory that has a name, checked with the backend whatever the array says. -/
def refreshAndFindChild (dir : Node) (name : String) : TreeM (Option Node) := do
  match ← findChild dir name true with
  | .absent => materializeCreated dir name
  | .present node => holding [node] (recheck dir node)

/-- Marks a node and all cached nodes below it as needing a refresh. -/
def markDirtyRecursively (node : Node) : TreeM Unit := do
  let serials ← require (.endless node.id) ((← get).subtree? node)
  modify fun t => serials.foldl (setDirty · true) t

end LazyTree.Tree
