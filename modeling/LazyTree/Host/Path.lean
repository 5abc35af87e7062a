import LazyTree.Host.FileName

set_option autoImplicit false

/-!
# Paths on a host

A path is a list of parts. The host follows the parts one after the other; whether one path is
spelled as the beginning of another can be told without the host.

## Main definitions

* `LazyTree.PathPart`, `LazyTree.HostPath` — parts and paths.
* `LazyTree.HostPath.ofText`, `LazyTree.HostPath.ofBytes` — the path with some spelling.
* `LazyTree.HostPath.ofNames` — the path from the top down through some names.
* `LazyTree.HostPath.components` — the parts that count in comparisons.
* `LazyTree.HostPath.startsWith` — whether a path begins with another.
-/

namespace LazyTree

/-- A part of a path. -/
inductive PathPart where
  /-- The top of the host. -/
  | top
  /-- The directory that has been reached. -/
  | here
  /-- The directory above. -/
  | up
  /-- The child with a name. -/
  | name (n : FileName)
deriving DecidableEq

/-- A path, as a list of parts. -/
abbrev HostPath := List PathPart

namespace HostPath

/-- The part with a spelling; nothing between two separators is no part. -/
def part? (n : FileName) : Option PathPart :=
  if n = .text "" then none
  else if n = .text "." then some .here
  else if n = .text ".." then some .up
  else some (.name n)

/-- The path whose spelling consists of some pieces between separators. An empty piece in front
stands for the top. One at the end asks for a directory. -/
def ofPieces (pieces : List FileName) : HostPath :=
  let start := match pieces with
    | first :: _ :: _ => if first = .text "" then [PathPart.top] else []
    | _ => []
  let close := match pieces with
    | _ :: rest => if rest.getLast? = some (.text "") then [PathPart.here] else []
    | [] => []
  start ++ pieces.filterMap part? ++ close

/-- The path with a text as its spelling. -/
def ofText (s : String) : HostPath :=
  ofPieces ((s.toList.splitOn '/').map fun piece => .text (String.ofList piece))

/-- The path with some bytes as its spelling. -/
def ofBytes (bytes : List UInt8) : HostPath :=
  ofPieces ((bytes.splitOn 0x2F).map FileName.ofBytes)

/-- The path from the top down through some names. -/
def ofNames (names : List FileName) : HostPath :=
  .top :: names.map .name

/-- The parts that count when paths are compared. A part that stays where it is counts only as
the first one. -/
def components : HostPath → List PathPart
  | [] => []
  | first :: rest => first :: rest.filter (· ≠ .here)

/-- Whether a path begins with another, part by part. -/
def startsWith (path front : HostPath) : Bool :=
  front.components.isPrefixOf path.components

/-- Whether a path begins at the top. -/
def isAbsolute (path : HostPath) : Bool :=
  path.head? = some .top

/-- Whether some part of a path holds the byte zero. -/
def hasNul (path : HostPath) : Bool :=
  path.any fun
    | .name n => n.hasNul
    | _ => false

/-- The path to something, given from a directory. A path from the top leads away from it. -/
def under (path dir : HostPath) : HostPath :=
  if path.isAbsolute then path else dir ++ path

/-- A path through names as messages show it. -/
def shownNames (names : List FileName) : String :=
  if names.isEmpty then "/" else String.join (names.map fun n => "/" ++ n.shown)

/-- Each part counts in the path from the top through names. -/
theorem components_ofNames (names : List FileName) :
    components (ofNames names) = .top :: names.map .name := by
  have : (names.map PathPart.name).filter (· ≠ .here) = names.map .name :=
    List.filter_eq_self.2 (by simp)
  simp only [ofNames, components, this]

end HostPath

end LazyTree
