import LazyTree.Host.Basic

set_option autoImplicit false

/-!
# Changes of a host

What can be made, moved and removed on a host.

## Main definitions

* `LazyTree.Entry.edit` — a change at one place below an entry.
* `LazyTree.Host.put`, `LazyTree.Host.delete`, `LazyTree.Host.move` — what becomes of places.
* `LazyTree.Host.makeDirectory`, `LazyTree.Host.makeDirectories` — new directories.
* `LazyTree.Host.write`, `LazyTree.Host.makeLink` — new files and links.
* `LazyTree.Host.remove`, `LazyTree.Host.rename`, `LazyTree.Host.setReadOnly`.
-/

namespace LazyTree

namespace Entry

/-- The entries of a directory with another entry, or none, under a name. A new one comes
last. -/
def replace (entries : List (FileName × Entry)) (name : FileName) :
    Option Entry → List (FileName × Entry)
  | none => entries.filter (·.1 ≠ name)
  | some e =>
    if (entries.lookup name).isSome then
      entries.map fun other => if other.1 = name then (name, e) else other
    else entries ++ [(name, e)]

/-- The entry with a change of what is, or is not, at the end of some names below it. -/
def edit (f : Option Entry → Option Entry) : Location → Entry → Entry
  | [], e => (f (some e)).getD e
  | [name], directory readOnly entries =>
    directory readOnly (replace entries name (f (entries.lookup name)))
  | name :: rest, directory readOnly entries =>
    directory readOnly (replace entries name ((entries.lookup name).map (edit f rest)))
  | _ :: _, e => e

/-- The entry with or without the right to write it. -/
def withReadOnly (readOnly : Bool) : Entry → Entry
  | file _ contents => file readOnly contents
  | directory _ entries => directory readOnly entries
  | socket _ => socket readOnly
  | link target => link target

end Entry

namespace Host

/-- Fills a place. -/
def put (h : Host) (place : Location) (e : Entry) : Host :=
  { h with top := h.top.edit (fun _ => some e) place }

/-- Clears a place. The current directory is no more if it was there or below. -/
def delete (h : Host) (place : Location) : Host where
  top := h.top.edit (fun _ => none) place
  current := h.current.filter fun c => !place.isPrefixOf c

/-- Moves an entry from one place to another. The current directory goes along if it is there or
below. -/
def move (h : Host) (source goal : Location) (e : Entry) : Host where
  top := (h.top.edit (fun _ => none) source).edit (fun _ => some e) goal
  current :=
    match h.current with
    | none => none
    | some c =>
      if source.isPrefixOf c then some (goal ++ c.drop source.length)
      else if goal.isPrefixOf c then none
      else some c

/-- Fills a place that must be free. -/
def putNew (h : Host) (path : HostPath) (e : Entry) : Except IoError Host :=
  match h.walk false path with
  | .error e => .error e
  | .ok (.taken _) => .error .alreadyExists
  | .ok (.free dir name) => .ok (h.put (dir ++ [name]) e)

/-- Makes an empty directory. -/
def makeDirectory (h : Host) (path : HostPath) : Except IoError Host :=
  h.putNew path (.directory false [])

/-- Makes a directory and those above it that are missing. The path is given from its last part
on. -/
def makeDirectoriesUp (h : Host) : List PathPart → Except IoError Host
  | [] => .ok h
  | last :: above =>
    let path := (last :: above).reverse
    let orPresent (h : Host) (e : IoError) : Except IoError Host :=
      if h.hasDirectory path then .ok h else .error e
    match h.makeDirectory path with
    | .ok h => .ok h
    | .error .notFound =>
      match makeDirectoriesUp h above with
      | .error e => .error e
      | .ok h =>
        match h.makeDirectory path with
        | .ok h => .ok h
        | .error e => orPresent h e
    | .error e => orPresent h e

/-- Makes a directory and those above it that are missing. -/
def makeDirectories (h : Host) (path : HostPath) : Except IoError Host :=
  makeDirectoriesUp h path.reverse

/-- Writes a file. One that is there gets new contents. -/
def write (h : Host) (path : HostPath) (contents : ByteArray) : Except IoError Host :=
  match h.walk true path with
  | .error e => .error e
  | .ok (.free dir name) => .ok (h.put (dir ++ [name]) (.file false contents))
  | .ok (.taken place) =>
    match h.at? place with
    | some (.file readOnly _) => .ok (h.put place (.file readOnly contents))
    | some (.directory _ _) => .error .isADirectory
    | _ => .error .noSuchDevice

/-- Makes a link. -/
def makeLink (h : Host) (path target : HostPath) : Except IoError Host :=
  if target.isEmpty then .error .notFound else h.putNew path (.link target)

/-- Gives or takes the right to write what a path leads to. -/
def setReadOnly (h : Host) (path : HostPath) (readOnly : Bool) : Except IoError Host :=
  match h.reach true path with
  | .error e => .error e
  | .ok (place, entry) => .ok (h.put place (entry.withReadOnly readOnly))

/-- Removes what a path leads to, with everything below it. It may be missing. -/
def remove (h : Host) (path : HostPath) : Except IoError Host :=
  match h.walk false path with
  | .ok (.taken place) => .ok (h.delete place)
  | .ok (.free _ _) => .ok h
  | .error .notFound => .ok h
  | .error e => .error e

/-- Whether one entry may take the place of another, and why not. -/
def checkReplace (source target : Entry) : Except IoError Unit :=
  if source.isDirectory then
    if !target.isDirectory then .error .notADirectory
    else if !target.entries.isEmpty then .error .notEmpty
    else .ok ()
  else if target.isDirectory then .error .isADirectory
  else .ok ()

/-- Moves what one path leads to to the place that another one leads to. -/
def rename (h : Host) (path goal : HostPath) : Except IoError Host := do
  let (source, entry) ← h.reach false path
  match ← h.walk false goal with
  | .free dir name =>
    if source.isPrefixOf dir then .error .invalidMove
    else return h.move source (dir ++ [name]) entry
  | .taken target =>
    if source = target then return h
    else if source.isPrefixOf target then .error .invalidMove
    else if target.isPrefixOf source then .error .notEmpty
    else
      match h.at? target with
      | none => .error .notFound
      | some old =>
        checkReplace entry old
        return h.move source target entry

end Host

end LazyTree
