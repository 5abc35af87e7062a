import LazyTree.Backend.Disk
import LazyTree.Host.Fixture
import LazyTree.Session.Answer

set_option autoImplicit false

/-!
# Sessions on a tree over a directory of a host

Steps of such a session work on the tree, ask the backend itself, or change the host below the
directory that was laid out for the session.

## Main definitions

* `LazyTree.DiskStep` — the steps.
* `LazyTree.DiskReply` — what they give.
* `LazyTree.DiskSession` — the state between two steps.
* `LazyTree.DiskSession.openAt` — the start of a session.
* `LazyTree.DiskSession.run` — the answers of a list of steps.
-/

namespace LazyTree

/-- A change of the host. -/
inductive HostEdit where
  /-- Makes an item of a fixture. -/
  | make (item : FixtureItem)
  /-- Removes what is at a path. -/
  | remove (path : HostPath)
  /-- Moves what is at a path. -/
  | rename (path goal : HostPath)
  /-- Gives or takes the right to write. -/
  | readOnly (path : HostPath) (on : Bool)

/-- An identity as a question to the backend gives it. -/
inductive Noted where
  /-- By its number. -/
  | raw (number : UInt32)
  /-- As one that was noted under a name. -/
  | note (name : String)

/-- A question to the backend itself. -/
inductive Question where
  /-- About the root. -/
  | root
  /-- For the identity of a child, which may be noted under a name. -/
  | resolve (parent : Noted) (name : String) (policy : Option CasePolicy) (note : Option String)
  /-- For the attributes of a child. -/
  | attributes (parent : Noted) (name : String)
  /-- For the spelling of a name. -/
  | canonical (parent : Noted) (name : String)
  /-- For all children. -/
  | list (parent : Noted)
  /-- For the name of a file. -/
  | nameOf (id : Noted)
  /-- For the place of a file. -/
  | placeOf (id : Noted)

/-- A step of a session over a directory of a host. -/
inductive DiskStep where
  /-- An operation of the tree. -/
  | tree (targets : Targets) (command : Command)
  /-- A change of the host. -/
  | edit (change : HostEdit)
  /-- A question to the backend. -/
  | ask (question : Question)

/-- What a step gives. -/
inductive DiskReply where
  /-- What an operation of the tree gives. -/
  | tree (reply : StepReply NodeView)
  /-- Nothing. -/
  | nothing
  /-- No identity was noted under the name. -/
  | noNote
  /-- The number zero was given for an identity. -/
  | zeroId
  /-- The host could not be changed. -/
  | hostFailure (failure : FixtureFailure)
  /-- The backend failed. -/
  | failure (e : BackendError)
  /-- The root and its name. -/
  | root (id : FileId) (name : String)
  /-- The identity of a child. -/
  | resolved (id : Option FileId)
  /-- Attributes. -/
  | attributes (a : Option Attributes)
  /-- A name. -/
  | name (name : Option String)
  /-- The children, by ascending name. -/
  | listing (lines : List Listed)
  /-- A place. -/
  | place (place : Option Below)

/-- What a step answers. -/
structure DiskAnswer where
  /-- What it gave. -/
  reply : DiskReply
  /-- The number of identities in the registry. -/
  registered : Nat
  /-- What is known about the directory that the step names. -/
  shown : Option Children
  /-- The identities that have been handed out, by which those in the answer are shown. -/
  places : Places

/-- The state of a session over a directory of a host. -/
structure DiskSession where
  /-- The tree and the handles. -/
  base : TreeSession
  /-- The backend. -/
  disk : Disk
  /-- The host. -/
  host : Host
  /-- The directory that was laid out for the session. -/
  ground : HostPath
  /-- The identities that were noted under names, the latest first. -/
  notes : List (String × FileId)

namespace DiskSession

/-- The session on a new tree over a directory of a host. -/
def openAt (host : Host) (ground path : HostPath) (policy : CasePolicy) (config : TreeConfig)
    (allowed : List HostPath) : Except IoError DiskSession := do
  let disk ← Disk.openAt host path policy allowed
  let tree := Tree.ofRoot policy config Disk.rootId disk.rootName
  return ⟨TreeSession.start tree, disk, host, ground, [("root", Disk.rootId)]⟩

/-- Answers a question of the tree. -/
def serve (host : Host) (q : Query) (t : Tree) (disk : Disk) :
    Except BackendError q.Reply × Tree × Disk :=
  let (reply, disk) := disk.answer host q
  (reply, t, disk)

/-- Asks the backend a question. -/
def ask (s : DiskSession) (q : Query) (reply : q.Reply → DiskReply) : DiskReply × DiskSession :=
  let (result, disk) := s.disk.answer s.host q
  let s := { s with disk := disk }
  match result with
  | .ok a => (reply a, s)
  | .error e => (.failure e, s)

/-- Goes on with an identity that a question gives. -/
def withId (s : DiskSession) (id : Noted) (next : FileId → DiskReply × DiskSession) :
    DiskReply × DiskSession :=
  match id with
  | .raw number => match FileId.ofRaw? number with
    | some id => next id
    | none => (.zeroId, s)
  | .note name => match s.notes.lookup name with
    | some id => next id
    | none => (.noNote, s)

/-- Notes an identity that was found under a name, if the question asks for it. -/
def keep (note : Option String) : DiskReply × DiskSession → DiskReply × DiskSession
  | (.resolved (some id), s) => match note with
    | some name => (.resolved (some id), { s with notes := (name, id) :: s.notes })
    | none => (.resolved (some id), s)
  | other => other

/-- Asks a question. -/
def question (s : DiskSession) : Question → DiskReply × DiskSession
  | .root =>
    match s.disk.require [] with
    | (.ok id, disk) => (.root id disk.rootName, { s with disk := disk })
    | (.error e, disk) => (.failure e, { s with disk := disk })
  | .resolve parent name policy note =>
    s.withId parent fun dir =>
      keep note (s.ask (.resolve dir name (policy.getD s.disk.policy)) .resolved)
  | .attributes parent name => s.withId parent fun dir => s.ask (.attributes dir name) .attributes
  | .canonical parent name =>
    s.withId parent fun dir => s.ask (.canonical dir name) fun name => .name (some name)
  | .list parent =>
    s.withId parent fun dir =>
      s.ask (.list dir) fun lines => .listing (lines.mergeSort fun a b => a.name ≤ b.name)
  | .nameOf id => s.withId id fun id => s.ask (.nameOf id) .name
  | .placeOf id => s.withId id fun id => (.place (s.disk.places.pathOf? id), s)

/-- Changes the host. -/
def edit (s : DiskSession) (change : HostEdit) : DiskReply × DiskSession :=
  let result := match change with
    | .make item => s.host.make s.ground item
    | .remove path => IoError.during "remove" (s.host.remove (s.ground ++ path))
    | .rename path goal =>
      IoError.during "rename" (s.host.rename (s.ground ++ path) (s.ground ++ goal))
    | .readOnly path on =>
      IoError.during "permissions" (s.host.setReadOnly (s.ground ++ path) on)
  match result with
  | .ok host => (.nothing, { s with host := host })
  | .error failure => (.hostFailure failure, s)

/-- Runs an operation of the tree. -/
def operate (s : DiskSession) (targets : Targets) (command : Command) :
    DiskReply × DiskSession :=
  match targets.operands? s.base.handles s.base.tree.root with
  | none => (.tree .noHandle, s)
  | some on =>
    let nodes := [on.dir, on.node, on.child]
    let (result, tree, disk) :=
      (command.run s.base.handles on (s.base.tree.hold nodes)).serve (serve s.host) s.disk
    let base := { s.base with tree := tree.release nodes }
    let (reply, base) := base.finish targets command result
    (.tree reply, { s with base := base, disk := disk })

/-- Takes a step. -/
def step (s : DiskSession) (step : DiskStep) : DiskAnswer × DiskSession :=
  let (reply, s') := match step with
    | .tree targets command => s.operate targets command
    | .edit change => s.edit change
    | .ask question => s.question question
  let shown := match step with
    | .tree targets _ => s'.base.shown targets
    | _ => none
  (⟨reply, s'.base.tree.registry.size, shown, s'.disk.places⟩, s')

/-- The answers of a list of steps. -/
def run (s : DiskSession) : List DiskStep → List DiskAnswer
  | [] => []
  | first :: rest =>
    let (answer, s) := s.step first
    answer :: s.run rest

end DiskSession

end LazyTree
