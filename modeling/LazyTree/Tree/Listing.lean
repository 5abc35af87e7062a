import LazyTree.Tree.Lookup

set_option autoImplicit false

/-!
# Listing a directory

A directory whose listing is complete answers from its array. Any other is listed by the backend;
the listing is sorted, freed from names that are the same, and merged with the cached children,
whose nodes are used again where name and identity agree. It then becomes the array, unless the
directory has changed since it was fetched.

## Main definitions

* `LazyTree.Tree.children` — the cached children.
* `LazyTree.Tree.sortedListing` — a listing as it is merged.
* `LazyTree.Tree.mergeListing` — the nodes for a listing.
* `LazyTree.Tree.refreshChildren` — all children of a directory.
-/

namespace LazyTree.Tree

open TreeM

/-- The cached children of a directory, in the order of their names. -/
def children (dir : Node) : TreeM (List Node) := do
  return (← childrenOf dir).present

/-- Drops every entry that has the same name as the one before it. -/
def dropRepeats (policy : CasePolicy) : List Listed → List Listed
  | a :: b :: rest =>
    if policy.same b.name a.name then dropRepeats policy (a :: rest)
    else a :: dropRepeats policy (b :: rest)
  | short => short
termination_by entries => entries.length

/-- A listing in the order of the names, without repetitions. Of several entries with the same
name the first one stays. -/
def sortedListing (policy : CasePolicy) (listing : List Listed) : List Listed :=
  dropRepeats policy (listing.mergeSort fun a b => policy.compare a.name b.name != .gt)

/-- The nodes for a sorted listing: a cached node of the same name and identity where there is
one, a new node otherwise, and nothing for a child that has vanished since it was listed. -/
def mergeListing (dir : Node) (cached : List Node) : List Listed → TreeM (List Node)
  | [] => return []
  | entry :: rest => do
    let policy := (← get).policy
    let cached := cached.dropWhile fun n => policy.compare n.name entry.name == .lt
    let (candidate, later) := match cached with
      | n :: later => if policy.same n.name entry.name then (some n, later) else (none, cached)
      | [] => (none, [])
    match candidate.filter (·.id = entry.id) with
    | some node => return node :: (← mergeListing dir later rest)
    | none =>
      match ← ask (.attributes dir.id entry.name) with
      | none => mergeListing dir later rest
      | some attributes =>
        let node ← newChild dir entry.id entry.name attributes
        return node :: (← holding [node] (mergeListing dir later rest))

/-- Drops the registry entries of some nodes and of everything cached below them. -/
def unregisterSubtrees : List Node → TreeM Unit
  | [] => return
  | node :: rest => do
    let serials ← require (.endless node.id) ((← get).subtree? node)
    modify (·.unregisterAll serials)
    unregisterSubtrees rest

/-- Installs the nodes for a listing as the array of a directory, unless the directory changed
since the given generation. The cached nodes that are not used again lose their entries. -/
def installListing (dir : Node) (cached merged : List Node) (generation : Nat) : TreeM Unit := do
  if ← change dir (·.install merged generation) then
    modify fun t => merged.foldl register t
    unregisterSubtrees (cached.filter fun n => !merged.any (·.serial = n.serial))

/-- All children of a directory, in the order of their names. -/
def refreshChildren (dir : Node) : TreeM (List Node) := do
  let c ← childrenOf dir
  if c.allLoaded then return c.present
  let listing ← ask (.list dir.id)
  let listing := sortedListing (← get).policy listing
  let cached := (← childrenOf dir).present
  holding cached do
    let merged ← mergeListing dir cached listing
    holding merged (installListing dir cached merged c.generation)
    return merged

end LazyTree.Tree
