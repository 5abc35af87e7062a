import LazyTree.Children
import LazyTree.Tree.Registry

set_option autoImplicit false

/-!
# The objects of a tree

A tree holds every object that was ever made for it, the registry of identities, and the
references to objects that are held from outside. An object lives for as long as something
refers to it: a holder outside, or the array of a directory that lives itself. Dead objects stay
in the store but are never given out again.

## Main definitions

* `LazyTree.TreeConfig` — what can be chosen about a tree.
* `LazyTree.Cell` — what changes about one object.
* `LazyTree.Tree` — the store.
* `LazyTree.Tree.liveSerials`, `LazyTree.Tree.isLive` — which objects live.
* `LazyTree.Tree.below?` — an object and all cached objects below it.
* `LazyTree.Tree.node?` — the living node that stands for an identity.
-/

namespace LazyTree

/-- What can be chosen about a tree. -/
structure TreeConfig where
  /-- Ask for the backend's spelling of a name before caching it. Only where case does not
  distinguish names. -/
  canonicalizeNames : Bool := true
  /-- Record the name of a removed child as absent. -/
  cacheRemovedNames : Bool := true
  /-- Mark new children as needing a refresh. -/
  markNewFilesDirty : Bool := false
deriving DecidableEq, Inhabited

/-- What belongs to one object. -/
structure Cell where
  /-- Its fixed part. -/
  node : Node
  /-- Whether it needs a refresh. -/
  dirty : Bool
  /-- What is known about its children; only directories have any. -/
  children : Option Children
deriving DecidableEq

/-- A tree and all objects that were made for it. -/
structure Tree where
  /-- The order of names. -/
  policy : CasePolicy
  /-- What was chosen about it. -/
  config : TreeConfig
  /-- The root directory. -/
  root : Node
  /-- All objects, by serial number. -/
  cells : Array Cell
  /-- The identities in use. -/
  registry : Registry
  /-- The serial numbers of the objects held from outside, once for each holder. -/
  held : List Nat
deriving DecidableEq

namespace Tree

/-- The cell of a new object. -/
def freshCell (policy : CasePolicy) (node : Node) (dirty : Bool) : Cell :=
  ⟨node, dirty, if node.isDirectory then some (Children.empty policy) else none⟩

/-- The tree that holds nothing but its root. The root is held for good. -/
def ofRoot (policy : CasePolicy) (config : TreeConfig) (id : FileId) (name : String) : Tree :=
  let root : Node := ⟨0, id, name, none, { directory := true }⟩
  ⟨policy, config, root, #[freshCell policy root false], Registry.empty.put root, [0]⟩

/-! ### Objects -/

/-- The cell of an object. -/
def cell? (t : Tree) (n : Node) : Option Cell :=
  t.cells[n.serial]?

/-- Changes the cell of an object. -/
def modifyCell (t : Tree) (serial : Nat) (f : Cell → Cell) : Tree :=
  { t with cells := t.cells.modify serial f }

/-- What is known about the children of an object, if it is a directory. -/
def children? (t : Tree) (n : Node) : Option Children :=
  (t.cell? n).bind Cell.children

/-- Replaces what is known about the children of a directory. -/
def setChildren (t : Tree) (dir : Node) (c : Children) : Tree :=
  t.modifyCell dir.serial fun cell => { cell with children := cell.children.map fun _ => c }

/-- Whether an object needs a refresh. -/
def isDirty (t : Tree) (n : Node) : Bool :=
  (t.cell? n).any Cell.dirty

/-- Says whether an object needs a refresh. -/
def setDirty (t : Tree) (dirty : Bool) (serial : Nat) : Tree :=
  t.modifyCell serial fun cell => { cell with dirty := dirty }

/-- Makes an object for a child of a directory. It is in no array yet. -/
def make (t : Tree) (dir : Node) (id : FileId) (name : String) (attributes : Attributes) :
    Node × Tree :=
  let node : Node := ⟨t.cells.size, id, name, some dir.id, attributes⟩
  (node, { t with cells := t.cells.push (freshCell t.policy node t.config.markNewFilesDirty) })

/-! ### Life -/

/-- Adds one outside reference to each of the objects. -/
def hold (t : Tree) (nodes : List Node) : Tree :=
  { t with held := nodes.map Node.serial ++ t.held }

/-- Drops one outside reference to each of the objects. -/
def release (t : Tree) (nodes : List Node) : Tree :=
  { t with held := nodes.foldl (fun held n => held.erase n.serial) t.held }

/-- The serial numbers of the children in the array of a directory. -/
def childSerials (t : Tree) (serial : Nat) : List Nat :=
  match (t.cells[serial]?).bind Cell.children with
  | some c => c.slots.toList.filterMap fun slot => slot.child?.map Node.serial
  | none => []

/-- Drops from a list of objects those that nothing refers to, neither from outside nor from the
list itself, until none is left to drop or the rounds are used up. -/
def survivors (t : Tree) : Nat → List Nat → List Nat
  | 0, alive => alive
  | rounds + 1, alive =>
    let referred := t.held ++ alive.flatMap t.childSerials
    let next := alive.filter referred.contains
    if next.length = alive.length then alive else survivors t rounds next

/-- The objects that live. Each round but the last drops an object, so there are rounds enough. -/
def liveSerials (t : Tree) : List Nat :=
  t.survivors t.cells.size (List.range t.cells.size)

/-- Whether an object lives. -/
def isLive (t : Tree) (n : Node) : Bool :=
  t.liveSerials.contains n.serial

/-- The objects on and below one, each in front of those below it, from the arrays as they are.
There is no such list if the object is below itself: no path without repetition is longer than
the number of objects. -/
def below? (t : Tree) : Nat → Nat → Option (List Nat)
  | 0, _ => none
  | depth + 1, serial => do
    let lists ← (t.childSerials serial).mapM (below? t depth)
    return serial :: lists.flatten

/-- The object and all cached objects below it. -/
def subtree? (t : Tree) (n : Node) : Option (List Nat) :=
  t.below? t.cells.size n.serial

/-! ### Identities -/

/-- The living node that stands for an identity. -/
def node? (t : Tree) (id : FileId) : Option Node :=
  (t.registry.find id).filter t.isLive

/-- Makes a node stand for its identity. -/
def register (t : Tree) (n : Node) : Tree :=
  { t with registry := t.registry.put n }

/-- Drops the entry for the identity of a node, unless another node lives there. -/
def unregister (t : Tree) (n : Node) : Tree :=
  match t.registry.find n.id with
  | none => t
  | some entry =>
    if t.isLive entry && entry.serial ≠ n.serial then t
    else { t with registry := t.registry.erase n.id }

/-- Drops the entries of a list of objects. -/
def unregisterAll (t : Tree) (serials : List Nat) : Tree :=
  serials.foldl (fun t serial => match t.cells[serial]? with
    | some cell => t.unregister cell.node
    | none => t) t

end Tree

end LazyTree
