import LazyTree.Session.Step

set_option autoImplicit false

/-!
# What steps do to a session

The part of a step that does not depend on what answers the questions of the tree: holding the
nodes that the step works on, showing the nodes that come back, and storing one of them under a
handle.

## Main definitions

* `LazyTree.TreeSession` — a tree and the handles on its nodes.
* `LazyTree.StepAnswer` — what a step answers.
* `LazyTree.TreeSession.view` — a node as an answer shows it.
* `LazyTree.TreeSession.store`, `LazyTree.TreeSession.drop` — changing handles.
* `LazyTree.TreeSession.finish` — the end of a step.
-/

namespace LazyTree

/-- A tree and the handles on its nodes. -/
structure TreeSession where
  /-- The tree. Each handle holds its node. -/
  tree : Tree
  /-- The handles. -/
  handles : Handles

/-- What a step answers. -/
structure StepAnswer where
  /-- What its operation gave. -/
  reply : StepReply NodeView
  /-- The number of identities in the registry. -/
  registered : Nat
  /-- The questions that the step asked itself. -/
  calls : List Query
  /-- The answers of the steps that ran while its questions were open. -/
  during : List StepAnswer
  /-- What is known about the directory that the step names. -/
  shown : Option Children

namespace TreeSession

/-- The session on a new tree, with one handle on the root. -/
def start (tree : Tree) : TreeSession :=
  ⟨tree.hold [tree.root], [("root", tree.root)]⟩

/-- A node as an answer shows it. -/
def view (s : TreeSession) (n : Node) : NodeView :=
  ⟨n, s.tree.isDirty n, s.handles.first? n⟩

/-- Releases a handle. -/
def drop (s : TreeSession) (handle : String) : TreeSession :=
  match s.handles.lookup handle with
  | some node => ⟨s.tree.release [node], s.handles.remove handle⟩
  | none => s

/-- Stores a node under a handle, which releases what it held before. -/
def store (s : TreeSession) (handle : String) (node : Node) : TreeSession :=
  let s := s.drop handle
  ⟨s.tree.hold [node], s.handles.put handle node⟩

/-- What is known about the directory that a step names, if it names one. -/
def shown (s : TreeSession) (targets : Targets) : Option Children := do
  s.tree.children? (← s.handles.lookup (← targets.dir))

/-- The objects that a step works on. -/
def Operands.nodes (on : Operands) : List Node :=
  [on.dir, on.node, on.child]

/-- The end of a step: the reply with its nodes as answers show them, and the session with the
node that came back under the handle that the step names. -/
def finish (s : TreeSession) (targets : Targets) (command : Command)
    (result : Except TreeError (StepReply Node)) : StepReply NodeView × TreeSession :=
  let reply := match result with
    | .ok reply => reply
    | .error e => .failure e
  let s' := match targets.store, reply.node?, command with
    | some handle, some node, _ => s.store handle node
    | _, _, .drop handle => s.drop handle
    | _, _, _ => s
  (reply.map s.view, s')

end TreeSession

end LazyTree
