import LazyTree.Tree.Change
import LazyTree.Tree.Path

set_option autoImplicit false

/-!
# Steps on a tree

A session works on one tree through named handles. Each step may name a directory, a node and a
child by handles, runs one operation of the tree on them, and may store the node that comes back
under a handle.

## Main definitions

* `LazyTree.Command` — the operations, with what they need besides nodes.
* `LazyTree.Targets` — the handles that a step names.
* `LazyTree.StepReply` — what a step answers.
* `LazyTree.NodeView` — a node as an answer shows it.
* `LazyTree.Handles` — the handles of a session.
* `LazyTree.Command.run` — the operation of a step.
-/

namespace LazyTree

/-- An identity as a step gives it. -/
inductive IdSource where
  /-- By its number. -/
  | raw (number : UInt32)
  /-- As that of the node under a handle. -/
  | handle (name : String)
deriving Inhabited

/-- The operations of a session on its tree. -/
inductive Command where
  /-- Looks up a name. -/
  | lookup (name : String)
  /-- Looks up a path. -/
  | lookupPath (path : String)
  /-- Looks up a name in the array alone. -/
  | cached (name : String)
  /-- Lists the cached children. -/
  | children
  /-- Lists all children. -/
  | refreshChildren
  /-- Makes a child that is in no array yet. -/
  | newChild (id : UInt32) (name : String) (attributes : Attributes)
  /-- Reports that a child came. -/
  | addChild
  /-- Reports that a child went. -/
  | removeChild
  /-- Forgets the children. -/
  | clearChildren
  /-- Declares the cached children complete. -/
  | markAllLoaded
  /-- Lists the absent names. -/
  | absentNames
  /-- Looks for the child with an identity. -/
  | findChildById (id : IdSource) (cachedOnly : Bool)
  /-- Looks up a name and checks the answer. -/
  | refreshAndFindChild (name : String)
  /-- Asks for the path of a node. -/
  | pathOf
  /-- Asks the registry for a node. -/
  | node (id : UInt32)
  /-- Marks a node as needing a refresh, or not. -/
  | mark (dirty : Bool)
  /-- Marks a node and all below it as needing a refresh. -/
  | markRecursively
  /-- Asks about a node. -/
  | info
  /-- Asks about the tree. -/
  | treeInfo
  /-- Releases a handle. -/
  | drop (handle : String)
deriving Inhabited

/-- The handles that a step names. One that is not named is the root. -/
structure Targets where
  /-- The directory. -/
  dir : Option String := none
  /-- The node. -/
  node : Option String := none
  /-- The child. -/
  child : Option String := none
  /-- Where to store the node that comes back. -/
  store : Option String := none
deriving Inhabited

/-- A node as an answer shows it. -/
structure NodeView where
  /-- The node. -/
  node : Node
  /-- Whether it needs a refresh. -/
  dirty : Bool
  /-- The first handle that holds it. -/
  handle : Option String

/-- What the operation of a step gives, `ν` being how nodes are shown. -/
inductive StepReply (ν : Type) where
  /-- Nothing. -/
  | nothing
  /-- One of the handles does not exist. -/
  | noHandle
  /-- The number zero was given for an identity. -/
  | zeroId
  /-- The operation failed. -/
  | failure (e : TreeError)
  /-- A node. -/
  | node (n : ν)
  /-- No child has the name. -/
  | absent
  /-- Only the backend can tell. -/
  | unknown
  /-- Nodes. -/
  | nodes (ns : List ν)
  /-- Yes or no. -/
  | flag (b : Bool)
  /-- A text. -/
  | text (s : String)
  /-- Names. -/
  | names (ns : List String)
  /-- A node, in full. -/
  | info (n : ν) (parent : Option FileId) (isDirectory : Bool) (kind : String)
  /-- The tree. -/
  | treeInfo (config : TreeConfig) (policy : CasePolicy) (root : ν)

namespace StepReply

variable {ν μ : Type}

/-- Shows the nodes of a reply in another way. -/
def map (f : ν → μ) : StepReply ν → StepReply μ
  | nothing => .nothing
  | noHandle => .noHandle
  | zeroId => .zeroId
  | failure e => .failure e
  | node n => .node (f n)
  | absent => .absent
  | unknown => .unknown
  | nodes ns => .nodes (ns.map f)
  | flag b => .flag b
  | text s => .text s
  | names ns => .names ns
  | info n parent isDirectory kind => .info (f n) parent isDirectory kind
  | treeInfo config policy root => .treeInfo config policy (f root)

/-- The node that a step may store under a handle. -/
def node? : StepReply ν → Option ν
  | node n => some n
  | _ => none

end StepReply

/-! ### Handles -/

/-- The handles of a session and the nodes they hold, by ascending name. -/
abbrev Handles := List (String × Node)

namespace Handles

/-- Stores a node under a handle. -/
def put (handles : Handles) (name : String) (node : Node) : Handles :=
  match handles with
  | [] => [(name, node)]
  | (other, n) :: rest =>
    if name = other then (name, node) :: rest
    else if name < other then (name, node) :: (other, n) :: rest
    else (other, n) :: put rest name node

/-- Removes a handle. -/
def remove (handles : Handles) (name : String) : Handles :=
  handles.filter (·.1 ≠ name)

/-- The first handle that holds a node. -/
def first? (handles : Handles) (node : Node) : Option String :=
  (handles.find? (·.2.serial = node.serial)).map (·.1)

end Handles

/-! ### Operations -/

/-- The nodes that a step works on. -/
structure Operands where
  /-- The directory. -/
  dir : Node
  /-- The node. -/
  node : Node
  /-- The child. -/
  child : Node

namespace Targets

/-- The node under a handle that a step names, or the root where it names none. -/
def resolve (handles : Handles) (root : Node) : Option String → Option Node
  | none => some root
  | some handle => handles.lookup handle

/-- The nodes that a step works on, if all its handles exist. -/
def operands? (targets : Targets) (handles : Handles) (root : Node) : Option Operands := do
  return ⟨← resolve handles root targets.dir, ← resolve handles root targets.node,
    ← resolve handles root targets.child⟩

end Targets

namespace IdSource

/-- The identity that a step gives, or why there is none. -/
def resolve (handles : Handles) : IdSource → Except (StepReply Node) FileId
  | raw number => match FileId.ofRaw? number with
    | some id => .ok id
    | none => .error .zeroId
  | handle name => match handles.lookup name with
    | some node => .ok node.id
    | none => .error .noHandle

end IdSource

namespace Command

open StepReply

/-- The reply for a looked-up name. -/
def ofLookup : Lookup → StepReply Node
  | .present child => .node child
  | .absent => .absent

/-- The reply for a name that was looked up in the array. -/
def ofKnowledge : Knowledge → StepReply Node
  | .present child => .node child
  | .absent => .absent
  | .unknown => .unknown

/-- The reply for a node that may be missing. -/
def ofNode? : Option Node → StepReply Node
  | some n => .node n
  | none => .nothing

/-- The operation of a step on its nodes. Releasing a handle does nothing to the tree here. -/
def run (handles : Handles) (on : Operands) : Command → TreeM (StepReply Node)
  | .lookup name => ofLookup <$> Tree.lookup on.dir name
  | .lookupPath path => ofLookup <$> Tree.lookupPath on.dir path
  | .cached name => ofKnowledge <$> Tree.findCached on.dir name
  | .children => .nodes <$> Tree.children on.dir
  | .refreshChildren => .nodes <$> Tree.refreshChildren on.dir
  | .newChild raw name attributes =>
    match FileId.ofRaw? raw with
    | none => pure .zeroId
    | some id => .node <$> Tree.newChild on.dir id name attributes
  | .addChild => .node <$> Tree.addChild on.dir on.child
  | .removeChild => .flag <$> Tree.removeChild on.dir on.child
  | .clearChildren => (fun _ => .nothing) <$> Tree.clearChildren on.dir
  | .markAllLoaded => (fun _ => .nothing) <$> Tree.markAllLoaded on.dir
  | .absentNames => .names <$> Tree.absentNames on.dir
  | .findChildById source cachedOnly =>
    match source.resolve handles with
    | .error reply => pure reply
    | .ok id => ofNode? <$> Tree.findChildById on.dir id cachedOnly
  | .refreshAndFindChild name => ofNode? <$> Tree.refreshAndFindChild on.dir name
  | .pathOf => .text <$> Tree.pathOf on.node
  | .node raw =>
    match FileId.ofRaw? raw with
    | none => pure .zeroId
    | some id => do return ofNode? ((← get).node? id)
  | .mark dirty => (fun _ => .nothing) <$> (modify (·.setDirty dirty on.node.serial) : TreeM Unit)
  | .markRecursively => (fun _ => .nothing) <$> Tree.markDirtyRecursively on.node
  | .info => pure (.info on.node on.node.parent on.node.isDirectory on.node.kind)
  | .treeInfo => do
    let t ← get
    return .treeInfo t.config t.policy t.root
  | .drop _ => pure .nothing

end Command

end LazyTree
