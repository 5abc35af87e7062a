import LazyTree.Host.Change

set_option autoImplicit false

/-!
# Fixtures

A fixture lays out files below a directory of a host before a session begins.

## Main definitions

* `LazyTree.FixtureKind`, `LazyTree.FixtureItem` — what a fixture asks for.
* `LazyTree.FixtureFailure` — why it cannot be laid.
* `LazyTree.Host.make` — laying one item.
* `LazyTree.Host.makeAll`, `LazyTree.Host.lay` — laying a whole fixture.
-/

namespace LazyTree

/-- What an item of a fixture is. -/
inductive FixtureKind where
  /-- A file. -/
  | file
  /-- A directory. -/
  | directory
  /-- A link to a path. -/
  | link (target : HostPath)
  /-- A socket. -/
  | socket

/-- An item of a fixture. -/
structure FixtureItem where
  /-- Where it goes. -/
  path : HostPath
  /-- What it is. -/
  kind : FixtureKind
  /-- Whether it cannot be written. -/
  readOnly : Bool

/-- Why an item could not be made. -/
structure FixtureFailure where
  /-- What was to be done. -/
  task : String
  /-- How it failed. -/
  error : IoError

namespace FixtureFailure

/-- The wording of a failure. -/
def message (f : FixtureFailure) : String :=
  f.task ++ ": " ++ f.error.description

end FixtureFailure

/-- Names the task behind a failure. -/
def IoError.during {α : Type} (task : String) (result : Except IoError α) :
    Except FixtureFailure α :=
  match result with
  | .ok a => .ok a
  | .error e => .error ⟨task, e⟩

namespace Host

/-- Makes an item below a directory, and the directories above it that are missing. Sockets
cannot be made. -/
def make (h : Host) (base : HostPath) (item : FixtureItem) : Except FixtureFailure Host := do
  let path := base ++ item.path
  let h ← IoError.during "dir" (h.makeDirectories (base ++ item.path.dropLast))
  let h ← match item.kind with
    | .file => IoError.during "file" (h.write path ByteArray.empty)
    | .directory => IoError.during "dir" (h.makeDirectories path)
    | .link target => IoError.during "symlink" (h.makeLink path target)
    | .socket => IoError.during "socket" (.error .notPermitted)
  if item.readOnly then IoError.during "permissions" (h.setReadOnly path true) else return h

/-- Makes items one after the other, up to the first that cannot be made. -/
def makeAll (h : Host) (base : HostPath) : List FixtureItem → Host × Option FixtureFailure
  | [] => (h, none)
  | item :: rest =>
    match h.make base item with
    | .ok h => makeAll h base rest
    | .error failure => (h, some failure)

/-- Lays a fixture below a directory as far as that can be done, and tells what went wrong. A fixture
that cannot be laid at once is laid once more over what is there then, and what goes wrong the
second time is what is told. -/
def lay (h : Host) (base : HostPath) (items : List FixtureItem) : Host × Option FixtureFailure :=
  match IoError.during "root" (h.makeDirectories base) with
  | .error failure => (h, some failure)
  | .ok h =>
    match h.makeAll base items with
    | (h, none) => (h, none)
    | (h, some _) => h.makeAll base items

end Host

end LazyTree
