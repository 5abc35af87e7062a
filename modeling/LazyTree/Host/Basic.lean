import LazyTree.Backend.Error
import LazyTree.Host.Path

set_option autoImplicit false

/-!
# Hosts

What stores the files: a tree of directories, files, links and sockets, and the rules by which
paths lead through it, from the top or from the current directory. Nobody is ever refused for lack of
rights.

## Main definitions

* `LazyTree.Entry` — what a host holds under a name.
* `LazyTree.Host` — a host.
* `LazyTree.Host.start?` — where a path begins.
* `LazyTree.Host.walk` — where a path leads.
* `LazyTree.Host.lookAt`, `LazyTree.Host.follow` — what a path leads to.
* `LazyTree.Host.locate` — the location that a path leads to.
* `LazyTree.Host.list` — the names in a directory.
* `LazyTree.Host.read` — the contents of a file.
-/

namespace LazyTree

/-- What a host holds under a name. -/
inductive Entry where
  /-- A file. -/
  | file (readOnly : Bool) (contents : ByteArray)
  /-- A directory, its entries in the order in which a listing gives them. -/
  | directory (readOnly : Bool) (entries : List (FileName × Entry))
  /-- A link, with the path that stands in its place. -/
  | link (target : HostPath)
  /-- A socket. -/
  | socket (readOnly : Bool)

namespace Entry

instance : Inhabited Entry := ⟨directory false []⟩

/-- Whether an entry is a directory. -/
def isDirectory : Entry → Bool
  | directory _ _ => true
  | _ => false

/-- Whether an entry is a link. -/
def isLink : Entry → Bool
  | link _ => true
  | _ => false

/-- Whether an entry is a file. -/
def isFile : Entry → Bool
  | file _ _ => true
  | _ => false

/-- Whether an entry cannot be written. A link itself always can. -/
def isReadOnly : Entry → Bool
  | file readOnly _ => readOnly
  | directory readOnly _ => readOnly
  | socket readOnly => readOnly
  | link _ => false

/-- The entries of a directory. -/
def entries : Entry → List (FileName × Entry)
  | directory _ entries => entries
  | _ => []

/-- The entry of a directory under a name. -/
def child? (e : Entry) (name : FileName) : Option Entry :=
  e.entries.lookup name

/-- The entry below another one at the end of some names. -/
def at? (e : Entry) : List FileName → Option Entry
  | [] => some e
  | name :: rest =>
    match e.child? name with
    | some child => child.at? rest
    | none => none

end Entry

/-- A place on a host: the names that lead to it from the top. -/
abbrev Location := List FileName

/-- A host. -/
structure Host where
  /-- The directory at the top. -/
  top : Entry
  /-- The place of the current directory. There is none once that directory has been removed. -/
  current : Option Location := some []

namespace Host

instance : Inhabited Host := ⟨{ top := default }⟩

/-- The host that holds nothing. -/
def empty : Host where
  top := .directory false []

/-- What is at a place. -/
def at? (h : Host) (place : Location) : Option Entry :=
  h.top.at? place

/-- The number of bytes that a name can have. -/
def nameLimit : Nat := 255

/-- The number of links that a path can lead through. -/
def linkLimit : Nat := 40

/-- Where a path leads. -/
inductive Reached where
  /-- To a place that is taken. -/
  | taken (place : Location)
  /-- To a name that is free in a directory. -/
  | free (dir : Location) (name : FileName)
deriving DecidableEq

/-- Follows the parts of a path from a place, through `links` links at most. Behind each part but
the last one there must be a directory. A link in the last part is itself what the path leads to,
unless `through` asks to follow it. -/
def walkFrom (h : Host) (through : Bool) (links : Nat) (place : Location) :
    HostPath → Except IoError Reached
  | [] => .ok (.taken place)
  | .top :: rest => walkFrom h through links [] rest
  | part :: rest =>
    match h.at? place with
    | none => .error .notFound
    | some entry =>
      if !entry.isDirectory then .error .notADirectory
      else match part with
        | .top | .here => walkFrom h through links place rest
        | .up => walkFrom h through links place.dropLast rest
        | .name n =>
          if nameLimit < n.size then .error .nameTooLong
          else match entry.child? n with
            | none => if rest.isEmpty then .ok (.free place n) else .error .notFound
            | some (.link target) =>
              if rest.isEmpty && !through then .ok (.taken (place ++ [n]))
              else match links with
                | 0 => .error .tooManyLinks
                | links + 1 => walkFrom h through links place (target ++ rest)
            | some _ => walkFrom h through links (place ++ [n]) rest
termination_by path => (links, path.length)

/-- Where a path begins: at the top, or else in the current directory. The path without parts begins
nowhere. -/
def start? (h : Host) : HostPath → Option Location
  | [] => none
  | .top :: _ => some []
  | _ => h.current

/-- Where a path leads. -/
def walk (h : Host) (through : Bool) (path : HostPath) : Except IoError Reached :=
  if path.hasNul then .error .nulInPath
  else match h.start? path with
    | none => .error .notFound
    | some place => walkFrom h through linkLimit place path

/-- What is at the place that a path leads to. -/
def reach (h : Host) (through : Bool) (path : HostPath) : Except IoError (Location × Entry) :=
  match walk h through path with
  | .error e => .error e
  | .ok (.free _ _) => .error .notFound
  | .ok (.taken place) =>
    match h.at? place with
    | some entry => .ok (place, entry)
    | none => .error .notFound

/-- What a path leads to, a link in its last part not followed. -/
def lookAt (h : Host) (path : HostPath) : Except IoError Entry :=
  (h.reach false path).map (·.2)

/-- What a path leads to, all links followed. -/
def follow (h : Host) (path : HostPath) : Except IoError Entry :=
  (h.reach true path).map (·.2)

/-- The place that a path leads to, all links followed. -/
def locate (h : Host) (path : HostPath) : Except IoError Location :=
  (h.reach true path).map (·.1)

/-- Whether a path leads to a directory. -/
def hasDirectory (h : Host) (path : HostPath) : Bool :=
  match h.follow path with
  | .ok entry => entry.isDirectory
  | .error _ => false

/-- The names in a directory. -/
def list (h : Host) (path : HostPath) : Except IoError (List FileName) :=
  match h.follow path with
  | .error e => .error e
  | .ok (.directory _ entries) => .ok (entries.map (·.1))
  | .ok _ => .error .notADirectory

/-- The contents of a file. -/
def read (h : Host) (path : HostPath) : Except IoError ByteArray :=
  match h.follow path with
  | .error e => .error e
  | .ok (.file _ contents) => .ok contents
  | .ok (.directory _ _) => .error .isADirectory
  | .ok _ => .error .noSuchDevice

/-- The contents of a file, as a text. -/
def readText (h : Host) (path : HostPath) : Except IoError String :=
  match h.read path with
  | .error e => .error e
  | .ok contents =>
    match String.fromUTF8? contents with
    | some text => .ok text
    | none => .error .invalidText

end Host

end LazyTree
