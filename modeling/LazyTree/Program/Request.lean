import LazyTree.Backend.Disk
import LazyTree.Program.Arguments
import LazyTree.Program.LogFilter
import LazyTree.Settings.Document
import LazyTree.Tree.Listing
import LazyTree.Tree.Path

set_option autoImplicit false

/-!
# What the program does

A request is a list of operations on one tree, each of which gives some lines. The first that fails
ends the request; the lines before it have been written by then.

## Main definitions

* `LazyTree.OutputLine` — a line of the output.
* `LazyTree.Request.operations` — the operations of a request.
* `LazyTree.Request.perform` — the lines of operations, and how they end.
* `LazyTree.Outcome`, `LazyTree.Outcome.of` — what the program does with arguments on a host.
-/

namespace LazyTree

/-- A line of the output. -/
inductive OutputLine where
  /-- A file or directory. -/
  | found (isDirectory : Bool) (id : FileId) (path : String)
  /-- A path that leads nowhere. -/
  | missing (path : String)
deriving DecidableEq

namespace OutputLine

/-- A text with blanks in front that bring it to a width. -/
def padLeft (width : Nat) (s : String) : String :=
  String.ofList (List.replicate (width - s.length) ' ') ++ s

/-- The text of a line, given how identities are shown. -/
def text (label : FileId → String) : OutputLine → String
  | found isDirectory id path =>
    (if isDirectory then "dir " else "file") ++ " " ++ padLeft 8 (label id) ++ " " ++ path
  | missing path => "missing  " ++ path

end OutputLine

/-- Why a request fails. -/
inductive RequestError where
  /-- The tree failed. -/
  | tree (e : TreeError)
  /-- There is no directory of that path. -/
  | noDirectory (path : String)
deriving DecidableEq

namespace RequestError

/-- The wording of a failure. -/
def message : RequestError → String
  | tree e => e.messageWith FileId.label
  | noDirectory path => "No such directory: " ++ path

end RequestError

/-- An operation of a request. -/
abbrev Operation := TreeM (Except RequestError (List OutputLine))

namespace Request

/-- The line for a node. -/
def describe (node : Node) : TreeM OutputLine := do
  return .found node.isDirectory node.id (← Tree.pathOf node)

/-- Looks up a path from the root. -/
def lookUp (path : String) : Operation := do
  match ← Tree.lookupPath (← get).root path with
  | .present node => return .ok [← describe node]
  | .absent => return .ok [.missing path]

/-- Lists the directory at the end of a path from the root. -/
def listChildren (path : String) (refresh : Bool) : Operation := do
  match ← Tree.lookupPath (← get).root path with
  | .present node =>
    if node.isDirectory then
      TreeM.holding [node] do
        let children ← if refresh then Tree.refreshChildren node else Tree.children node
        return .ok (← children.mapM describe)
    else return .error (.noDirectory path)
  | .absent => return .error (.noDirectory path)

/-- The operations of a request. -/
def operations : Request → List Operation
  | lookup _ paths => paths.map lookUp
  | list _ dir refresh => [listChildren dir refresh]

/-- The directory that a request is about. -/
def root : Request → String
  | lookup root _ => root
  | list root _ _ => root

/-- Answers a question of a tree from a host. -/
def serve (h : Host) (q : Query) (t : Tree) (d : Disk) :
    Except BackendError q.Reply × Tree × Disk :=
  let (reply, d) := d.answer h q
  (reply, t, d)

/-- The lines of operations on a tree over a host, up to the first that fails, and why it does. -/
def perform (h : Host) : List Operation → Tree → Disk → List OutputLine × Option RequestError
  | [], _, _ => ([], none)
  | operation :: rest, t, d =>
    match (operation t).serve (serve h) d with
    | (.error e, _, _) => ([], some (.tree e))
    | (.ok (.error e), _, _) => ([], some e)
    | (.ok (.ok lines), t, d) =>
      let (more, failure) := perform h rest t d
      (lines ++ more, failure)

/-- The lines of a request under some settings, and why it fails. -/
def run (h : Host) (settings : Settings) (r : Request) : List OutputLine × Option RequestError :=
  match Disk.openAt h (HostPath.ofText r.root) settings.backend.policy
      (settings.backend.allowedRoots.map HostPath.ofText) with
  | .error e => ([], some (.tree (.backend (.io e))))
  | .ok disk =>
    perform h r.operations
      (Tree.ofRoot disk.policy settings.tree Disk.rootId disk.rootName) disk

end Request

/-- What the program does. -/
structure Outcome where
  /-- The number that it ends with. -/
  exit : Nat
  /-- The lines that it writes. -/
  lines : List OutputLine
  /-- The errors that it reports. -/
  errors : List String
  /-- Why it could not use the settings. -/
  settingsError : Option SettingsError

namespace Outcome

/-- The end of a request. -/
def ofLines (shows : Bool) : List OutputLine × Option RequestError → Outcome
  | (lines, none) => ⟨0, lines, [], none⟩
  | (lines, some e) => ⟨1, lines, if shows then [e.message] else [], none⟩

/-- The name that filters know a program by: they write no dashes. -/
def filterName (program : String) : String :=
  program.map fun c => if c = '-' then '_' else c

/-- What the program does with arguments on a host. Arguments that mean nothing end it with two;
settings that cannot be used, and requests that fail, with one. -/
def of (h : Host) (s : Surroundings) (filter : Option String) (arguments : List String) :
    Outcome :=
  match Reading.ofArguments arguments with
  | .misuse => ⟨2, [], [], none⟩
  | .information => ⟨0, [], [], none⟩
  | .invocation i =>
    match Settings.loadOrDefault h s (i.config.map HostPath.ofText) with
    | .error e => ⟨1, [], [], some e⟩
    | .ok settings => ofLines (showsErrors (filterName s.program) filter) (i.request.run h settings)

end Outcome

end LazyTree
