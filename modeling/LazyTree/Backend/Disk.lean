import LazyTree.Backend.Places
import LazyTree.Backend.Query
import LazyTree.Host.Basic

set_option autoImplicit false

/-!
# A backend over a directory of a host

The backend answers all questions from what the host holds at that moment, and keeps nothing but
the identities that it has handed out. It can be told to show only what lies inside of some
directories or on the way to them.

## Main definitions

* `LazyTree.Disk` — the backend.
* `LazyTree.Disk.openAt` — opening a directory of a host.
* `LazyTree.Disk.allows` — whether a place may be shown.
* `LazyTree.Disk.spelling?` — the host's spelling of a name.
* `LazyTree.Disk.locate` — the entry of a directory that a name stands for.
* `LazyTree.Disk.answer` — the answer to a question.
-/

namespace LazyTree

/-- A backend over a directory of a host. -/
structure Disk where
  /-- Where the directory is. -/
  root : Location
  /-- How names are matched. -/
  policy : CasePolicy
  /-- The directories inside of which, and on the way to which, places may be shown. If there are
  none, all places may. -/
  allowed : List HostPath
  /-- The identities that have been handed out. -/
  places : Places

/-- The attributes of an entry under a name. A name that begins with a dot hides it. -/
def Attributes.ofEntry (name : String) (e : Entry) : Attributes where
  directory := e.isDirectory
  symlink := e.isLink
  special := !e.isDirectory && !e.isLink && !e.isFile
  readOnly := e.isReadOnly
  hidden := name.toList.head? = some '.'

namespace Disk

/-- Whether a text can be the last part of a path: it is not empty, has no separator, and is not
one of the two parts that only lead elsewhere. -/
def isComponent (name : String) : Bool :=
  !name.isEmpty && name != "." && name != ".." && !name.toList.contains '/'

/-- What stands for a directory inside of which places may be shown: where it is, or its path if it
is nowhere. -/
def resolveAllowed (h : Host) (path : HostPath) : HostPath :=
  match h.locate path with
  | .ok place => .ofNames place
  | .error _ => path

/-- The identity of the root, which is the first to be handed out. -/
def rootId : FileId :=
  ⟨1, FileId.raw_one_ne_zero⟩

/-- The backend over the directory at a place. The root gets the first identity. -/
def ofRoot (root : Location) (policy : CasePolicy) (allowed : List HostPath) : Disk :=
  ⟨root, policy, allowed, (Places.empty.require []).2⟩

/-- Opens a directory of a host. -/
def openAt (h : Host) (path : HostPath) (policy : CasePolicy) (allowed : List HostPath) :
    Except IoError Disk :=
  match h.locate path with
  | .error e => .error e
  | .ok root =>
    if (h.at? root).any Entry.isDirectory then
      .ok (ofRoot root policy (allowed.map (resolveAllowed h)))
    else .error (.rootNotADirectory (HostPath.shownNames root))

/-- The names that lead to a place from the top of the host. -/
def location (d : Disk) (place : Below) : Location :=
  d.root ++ place.map FileName.text

/-- The path of a place. -/
def path (d : Disk) (place : Below) : HostPath :=
  .ofNames (d.location place)

/-- Whether a place may be shown. -/
def allows (d : Disk) (place : Below) : Bool :=
  d.allowed.isEmpty ||
    d.allowed.any fun a => (d.path place).startsWith a || HostPath.startsWith a (d.path place)

/-- The place of a directory that a question is about. -/
def parent (d : Disk) (id : FileId) : Except BackendError Below :=
  match d.places.pathOf? id with
  | some place => .ok place
  | none => .error (.unknownParent id)

/-- The names in a directory that are texts. -/
def names (d : Disk) (h : Host) (dir : Below) : Except BackendError (List String) :=
  match h.list (d.path dir) with
  | .ok names => .ok (names.filterMap FileName.text?)
  | .error e => .error (.io e)

/-- The spelling of a name in a directory: the name itself if it is there, or else the first name
that is the same but for case. -/
def spelling? (d : Disk) (h : Host) (dir : Below) (name : String) :
    Except BackendError (Option String) :=
  match d.names h dir with
  | .error e => .error e
  | .ok names =>
    .ok (if names.contains name then some name
      else names.find? (CasePolicy.insensitive.same · name))

/-- The place and the entry that a name stands for in a directory, if there is one. -/
def locate (d : Disk) (h : Host) (dir : FileId) (name : String) (policy : CasePolicy) :
    Except BackendError (Option (Below × Entry)) :=
  if !isComponent name then .ok none
  else
    match d.parent dir with
    | .error e => .error e
    | .ok dir =>
      let spelled : Except BackendError (Option String) := match policy with
        | .sensitive => .ok (some name)
        | .insensitive => d.spelling? h dir name
      match spelled with
      | .error e => .error e
      | .ok none => .ok none
      | .ok (some name) =>
        let place := dir ++ [name]
        match h.lookAt (d.path place) with
        | .error .notFound => .ok none
        | .error e => .error (.io e)
        | .ok entry =>
          if d.allows place then .ok (some (place, entry))
          else .error (.accessDenied (HostPath.shownNames (d.location place)))

/-- The identity of a place, and the backend that has handed it out. -/
def require (d : Disk) (place : Below) : Except BackendError FileId × Disk :=
  let (result, places) := d.places.require place
  (result, { d with places := places })

/-- The lines of a listing for names in a directory, and the backend that has handed out their
identities. What may not be shown is left out. -/
def listed (d : Disk) (dir : Below) : List String → Except BackendError (List Listed) × Disk
  | [] => (.ok [], d)
  | name :: rest =>
    if d.allows (dir ++ [name]) then
      match d.require (dir ++ [name]) with
      | (.error e, d) => (.error e, d)
      | (.ok id, d) =>
        match d.listed dir rest with
        | (.error e, d) => (.error e, d)
        | (.ok lines, d) => (.ok (⟨name, id⟩ :: lines), d)
    else d.listed dir rest

/-- The name of the root, if it is a text. -/
def rootName? (d : Disk) : Option String :=
  d.root.getLast?.bind FileName.text?

/-- The name that stands for the root of a tree. -/
def rootName (d : Disk) : String :=
  d.rootName?.getD "/"

/-- The name of the file with an identity. -/
def nameOf (d : Disk) (id : FileId) : Option String :=
  match d.places.pathOf? id with
  | none => none
  | some [] => d.rootName?
  | some place => place.getLast?

/-- The answer to a question, and the backend that has handed out the identities in it. -/
def answer (d : Disk) (h : Host) : (q : Query) → Except BackendError q.Reply × Disk
  | .resolve dir name policy =>
    match d.locate h dir name policy with
    | .error e => (.error e, d)
    | .ok none => (.ok none, d)
    | .ok (some (place, _)) =>
      match d.require place with
      | (.error e, d) => (.error e, d)
      | (.ok id, d) => (.ok (some id), d)
  | .attributes dir name =>
    ((d.locate h dir name d.policy).map fun found =>
      found.map fun (place, entry) => .ofEntry (place.getLast?.getD "") entry, d)
  | .canonical dir name =>
    if !isComponent name then (.ok name, d)
    else
      match d.parent dir with
      | .error e => (.error e, d)
      | .ok dir => ((d.spelling? h dir name).map (·.getD name), d)
  | .list dir =>
    match d.parent dir with
    | .error e => (.error e, d)
    | .ok dir =>
      match d.names h dir with
      | .error e => (.error e, d)
      | .ok names => d.listed dir names
  | .nameOf id => (.ok (d.nameOf id), d)

end Disk

end LazyTree
