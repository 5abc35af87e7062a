import LazyTree.Backend.Table
import LazyTree.Session.Answer

set_option autoImplicit false

/-!
# Sessions on a tree over a table

The table behind the tree can be changed by steps of the session, and steps can be laid up to run
while a question of the tree to the table is open, once its answer is decided. So every order in
which things can happen to a tree from several sides is also the order of some session.

## Main definitions

* `LazyTree.TableStep` — the steps.
* `LazyTree.TableSession` — the state between two steps.
* `LazyTree.TableSession.serve` — how a question is answered, with the steps laid up for it.
* `LazyTree.TableSession.run` — the answers of a list of steps.
-/

namespace LazyTree

/-- A change of the table. -/
inductive TableEdit where
  /-- Adds an entry to a directory. -/
  | add (parent : UInt32) (name : String) (id : Option UInt32) (attributes : Option Attributes)
  /-- Removes the entries with a name. -/
  | remove (parent : UInt32) (name : String)
  /-- Makes a directory unknown. -/
  | removeDirectory (id : UInt32)
  /-- Fixes the spelling of a name. -/
  | spelling (name spelling : String)
  /-- Makes a kind of question fail, or work again. -/
  | failure (kind : Query.Kind) (failure : Option BackendError)

/-- A step of a session over a table. -/
inductive TableStep where
  /-- An operation of the tree. -/
  | tree (targets : Targets) (command : Command)
  /-- A change of the table. -/
  | edit (targets : Targets) (edit : TableEdit)
  /-- Lays up steps for the next question of a kind. -/
  | layUp (targets : Targets) (kind : Query.Kind) (steps : List TableStep)
deriving Inhabited

namespace TableStep

mutual

/-- The number of steps in a step, those laid up included. -/
def size : TableStep → Nat
  | tree _ _ => 1
  | edit _ _ => 1
  | layUp _ _ steps => 1 + sizes steps

/-- The number of steps in a list of steps, those laid up included. -/
def sizes : List TableStep → Nat
  | [] => 0
  | step :: rest => step.size + sizes rest

end

/-- The handles that a step names. -/
def targets : TableStep → Targets
  | tree targets _ => targets
  | edit targets _ => targets
  | layUp targets _ _ => targets

end TableStep

/-- Makes the change of the table that a step describes, unless it gives zero for an identity. -/
def TableEdit.apply? (t : Table) : TableEdit → Option Table
  | add parent name id attributes => do
    let parent ← FileId.ofRaw? parent
    match id with
    | none => return t.add parent ⟨name, none, attributes⟩
    | some id => return t.add parent ⟨name, some (← FileId.ofRaw? id), attributes⟩
  | remove parent name => return t.remove (← FileId.ofRaw? parent) name
  | removeDirectory id => return t.removeDirectory (← FileId.ofRaw? id)
  | spelling name shown => some (t.setSpelling name shown)
  | .failure kind error => some (t.setFailure kind error)

/-- The state of a session over a table. -/
structure TableSession where
  /-- The tree and the handles. -/
  base : TreeSession
  /-- The table. -/
  table : Table
  /-- The steps that are laid up, in the order in which they were. -/
  laidUp : List (Query.Kind × List TableStep)
  /-- The questions of the step that is running. -/
  calls : List Query
  /-- The answers of the steps that ran inside of the step that is running. -/
  during : List StepAnswer

namespace TableSession

/-- How a list of steps is run while a question is open. -/
abbrev Runner := TableSession → List TableStep → List StepAnswer × TableSession

/-- The session on a new tree over a table. -/
def start (tree : Tree) (table : Table) : TableSession :=
  ⟨TreeSession.start tree, table, [], [], []⟩

/-- Answers a question of the tree. The answer is decided first; then the steps that were laid up
first for this kind of question run, and only then is the answer given. -/
def serve (runner : Runner) (q : Query) (t : Tree) (s : TableSession) :
    Except BackendError q.Reply × Tree × TableSession :=
  let s := { s with base := { s.base with tree := t }, calls := s.calls ++ [q] }
  match s.table.answer q with
  | .error e => (.error e, t, s)
  | .ok reply =>
    match s.laidUp.find? (·.1 = q.kind) with
    | none => (.ok reply, t, s)
    | some (_, steps) =>
      let inner := { s with
        laidUp := s.laidUp.eraseP (·.1 = q.kind)
        calls := []
        during := [] }
      let (answers, inner) := runner inner steps
      let s := { inner with calls := s.calls, during := s.during ++ answers }
      (.ok reply, s.base.tree, s)

/-- Takes a step whose handles all exist. -/
def act (runner : Runner) (s : TableSession) (on : Operands) :
    TableStep → StepReply NodeView × TableSession
  | .tree targets command =>
    let tree := s.base.tree.hold [on.dir, on.node, on.child]
    let (result, tree, s) := (command.run s.base.handles on tree).serve (serve runner) s
    let base := { s.base with tree := tree.release [on.dir, on.node, on.child] }
    let (reply, base) := base.finish targets command result
    (reply, { s with base := base })
  | .edit _ edit =>
    match edit.apply? s.table with
    | some table => (.nothing, { s with table := table })
    | none => (.zeroId, s)
  | .layUp _ kind steps => (.nothing, { s with laidUp := s.laidUp ++ [(kind, steps)] })

/-- Takes a step. -/
def step (runner : Runner) (s : TableSession) (step : TableStep) : StepAnswer × TableSession :=
  let start := { s with calls := [], during := [] }
  let (reply, s') := match step.targets.operands? s.base.handles s.base.tree.root with
    | some on => act runner start on step
    | none => (.noHandle, start)
  (⟨reply, s'.base.tree.registry.size, s'.calls, s'.during, s'.base.shown step.targets⟩, s')

/-- Takes a list of steps, one after the other. -/
def steps (runner : Runner) (s : TableSession) : List TableStep → List StepAnswer × TableSession
  | [] => ([], s)
  | first :: rest =>
    let (answer, s) := step runner s first
    let (answers, s) := steps runner s rest
    (answer :: answers, s)

/-- Takes a list of steps, `depth` bounding how far steps may run inside of others. -/
def runWithin : Nat → Runner
  | 0 => fun s _ => ([], s)
  | depth + 1 => steps (runWithin depth)

/-- The answers of a list of steps. No step runs twice, so none runs deeper inside of others than
there are steps. -/
def run (s : TableSession) (list : List TableStep) : List StepAnswer :=
  (runWithin (TableStep.sizes list + 1) s list).1

end TableSession

end LazyTree
