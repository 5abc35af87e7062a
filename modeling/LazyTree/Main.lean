import LazyTree.Program.Request

set_option autoImplicit false

/-!
# The program on the host that it runs on

The questions of a tree are answered from small pictures of the host: before each answer, the part
of the host that it depends on is read, and the answer is taken from that.

## Main definitions

* `LazyTree.HostAccess.view` — the part of the host that the answer to a question depends on.
* `LazyTree.HostAccess.perform` — carrying out the operations of a request.
* `main` — the program.
-/

namespace LazyTree.HostAccess

/-- The number by which the host knows a failure. -/
def codeOf : IO.Error → Nat
  | .alreadyExists _ code _ | .otherError code _ | .resourceBusy code _
  | .resourceVanished code _ | .unsupportedOperation code _ | .hardwareFault code _
  | .unsatisfiedConstraints code _ | .illegalOperation code _ | .protocolError code _
  | .timeExpired code _ | .interrupted _ code _ | .noFileOrDirectory _ code _
  | .invalidArgument _ code _ | .permissionDenied _ code _ | .resourceExhausted _ code _
  | .inappropriateType _ code _ | .noSuchThing _ code _ => code.toNat
  | .unexpectedEof | .userError _ => 0

/-- The failures that the host knows by number. -/
def numbered : List IoError :=
  [.notFound, .alreadyExists, .notADirectory, .isADirectory, .nameTooLong, .notEmpty,
    .tooManyLinks, .invalidMove, .noSuchDevice, .notPermitted]

/-- A failure of the host. -/
def failure (e : IO.Error) : IoError :=
  (numbered.find? fun known => known.hostCode?.any (·.1 = codeOf e)).getD (.other (toString e))

/-- The result of an action, or its failure. -/
def attempt {α : Type} (action : IO α) : IO (Except IoError α) := do
  match ← action.toBaseIO with
  | .ok a => return .ok a
  | .error e => return .error (failure e)

/-- What a picture shows of a file. -/
def outline (m : IO.FS.Metadata) : Entry :=
  match m.type with
  | .dir => .directory false []
  | .file => .file false ByteArray.empty
  | .symlink => .link []
  | .other => .socket false

/-- The picture of a host with a single entry, whatever it takes above it. -/
def picture (place : Location) (e : Entry) : Host :=
  match Host.empty.makeDirectories (.ofNames place) with
  | .ok h => h.put place e
  | .error _ => Host.empty

/-- The picture of a host on which a place cannot be reached. -/
def unreachable (place : Location) : IoError → Host
  | .notADirectory => picture (place.take 1) (.file false ByteArray.empty)
  | .tooManyLinks => picture (place.take 1) (.link (.ofNames (place.take 1)))
  | _ => Host.empty

/-- The directory that a question is about, and the one name in it that matters, if only one
does. -/
def subject (d : Disk) : Query → Option (FileId × Option String)
  | .resolve dir name .sensitive => some (dir, some name)
  | .resolve dir _ .insensitive => some (dir, none)
  | .attributes dir name => some (dir, if d.policy.isSensitive then some name else none)
  | .canonical dir _ => some (dir, none)
  | .list dir => some (dir, none)
  | .nameOf _ => none

/-- The part of the host that the answer to a question depends on. -/
def view (d : Disk) (q : Query) : IO Host := do
  let some (dir, name?) := subject d q | return Host.empty
  let some below := d.places.pathOf? dir | return Host.empty
  let place := d.location below
  match ← attempt (IO.FS.realPath (HostPath.shownNames place)) with
  | .error e => return unreachable place e
  | .ok real =>
    let found ← attempt (do
      match name? with
      | some name =>
        match ← attempt (real / name).symlinkMetadata with
        | .ok m => return [(FileName.text name, outline m)]
        | .error .notADirectory => do
          let _ ← real.readDir
          return []
        | .error _ => return []
      | none =>
        (← real.readDir).toList.mapM fun entry => do
          return (FileName.text entry.fileName, outline (← entry.path.symlinkMetadata)))
    match found with
    | .ok entries => return picture place (.directory false entries)
    | .error e => return unreachable place e

/-- The end of a run whose questions the host answers. -/
def serve {α : Type} : Run α → Disk → IO (Except TreeError α × Tree × Disk)
  | .done result t, d => return (result, t, d)
  | .ask q t resume, d => do
    let (reply, d) := d.answer (← view d q) q
    serve (resume reply t) d

/-- Carries out operations up to the first that fails, and writes their lines. -/
def perform : List Operation → Tree → Disk → IO (Option RequestError)
  | [], _, _ => return none
  | operation :: rest, t, d => do
    match ← serve (operation t) d with
    | (.error e, _, _) => return some (.tree e)
    | (.ok (.error e), _, _) => return some e
    | (.ok (.ok lines), t, d) =>
      for line in lines do IO.println (line.text FileId.label)
      perform rest t d

/-- The place that a path leads to. -/
def locate (path : String) : IO (Except IoError Location) := do
  match ← attempt (IO.FS.realPath path) with
  | .error e => return .error e
  | .ok real =>
    return .ok ((HostPath.ofText real.toString).filterMap fun
      | .name n => some n
      | _ => none)

/-- The path of the place that a path leads to, or the path itself if it leads nowhere. -/
def resolved (path : String) : IO HostPath := do
  match ← locate path with
  | .ok place => return .ofNames place
  | .error _ => return .ofText path

/-- The backend over a directory of the host. -/
def openAt (path : String) (s : BackendSettings) : IO (Except IoError Disk) := do
  match ← locate path with
  | .error e => return .error e
  | .ok root =>
    let allowed ← s.allowedRoots.mapM resolved
    match ← attempt ((← IO.FS.realPath path).readDir) with
    | .ok _ => return .ok (Disk.ofRoot root s.policy allowed)
    | .error .notADirectory => return .error (.rootNotADirectory (HostPath.shownNames root))
    | .error e => return .error e

/-- The picture of a host with a file of settings. A path that does not begin at the top was found
to lead nowhere. -/
def withFile (h : Host) (path : HostPath) : IO Host := do
  if !path.isAbsolute then return h
  let place := path.filterMap fun
    | .name n => some n
    | _ => none
  let entry : Option Entry ← (do
    match ← attempt (IO.FS.readBinFile (HostPath.shownNames place)) with
    | .ok contents => return some (.file false contents)
    | .error .isADirectory => return some (.directory false [])
    | .error _ => return none)
  match entry, h.makeDirectories (.ofNames place.dropLast) with
  | some e, .ok h => return h.put place e
  | _, _ => return h

/-- What stands for the settings that are in force. -/
def settings (s : Surroundings) (given : Option String) :
    IO (Except SettingsError Settings) := do
  let given ← given.mapM resolved
  let candidates := match given with
    | some path => [path]
    | none => Settings.searchPaths s
  let h ← candidates.foldlM withFile Host.empty
  return Settings.loadOrDefault h s given

/-- The name of the program. -/
def program : String := "lazy-tree"

/-- How the program is called. -/
def usage : String :=
  "Usage: " ++ program ++ " [-c <CONFIG_PATH>] lookup <ROOT> <PATHS>...\n" ++
  "       " ++ program ++ " [-c <CONFIG_PATH>] ls [-r] <ROOT> [DIR]"

/-- Carries out a request. -/
def run (i : Invocation) : IO UInt32 := do
  let surroundings : Surroundings :=
    ⟨(← IO.getEnv "XDG_CONFIG_HOME").map HostPath.ofText,
      (← IO.getEnv "HOME").map HostPath.ofText, program⟩
  match ← settings surroundings i.config with
  | .error e =>
    IO.eprintln ("Failed to load configuration: " ++ e.message)
    return 1
  | .ok s =>
    let failure ← (do
      match ← openAt i.request.root s.backend with
      | .error e => return some (.tree (.backend (.io e)))
      | .ok disk =>
        perform i.request.operations
          (Tree.ofRoot disk.policy s.tree Disk.rootId disk.rootName) disk)
    match failure with
    | none => return 0
    | some e =>
      if showsErrors (Outcome.filterName program) (← IO.getEnv "LAZY_TREE_LOG") then
        IO.eprintln ("ERROR " ++ e.message)
      return 1

end LazyTree.HostAccess

/-- The program. -/
def main (arguments : List String) : IO UInt32 := do
  match LazyTree.Reading.ofArguments arguments with
  | .misuse =>
    IO.eprintln LazyTree.HostAccess.usage
    return 2
  | .information =>
    IO.println LazyTree.HostAccess.usage
    return 0
  | .invocation i => LazyTree.HostAccess.run i
