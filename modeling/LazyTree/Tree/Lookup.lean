import LazyTree.Tree.Run

set_option autoImplicit false

/-!
# Looking up names

The array of a directory is searched first. If it cannot tell, the backend is asked, and its
answer is checked against the array once more before it is recorded: what became known while the
backend was asked goes before its answer. A name that was found and a name that is missing are
both recorded; a failure never is.

## Main definitions

* `LazyTree.Lookup` — the answer for a name.
* `LazyTree.Tree.childrenOf`, `LazyTree.Tree.change` — reading and changing the array of a
  directory.
* `LazyTree.Tree.findCached` — the answer for a name from the array alone.
* `LazyTree.Tree.findChild`, `LazyTree.Tree.lookup` — the answer, from the backend if need be.
* `LazyTree.Tree.components` — the names that a path consists of.
* `LazyTree.Tree.lookupPath` — the answer for a path.
* `LazyTree.Tree.findChildById` — the child with an identity.
-/

namespace LazyTree

/-- The answer for a name. -/
inductive Lookup where
  /-- The child exists. -/
  | present (child : Node)
  /-- There is no such child. -/
  | absent
deriving DecidableEq

/-- The node that was found, if any. -/
def Lookup.node? : Lookup → Option Node
  | present child => some child
  | absent => none

namespace Tree

open TreeM

/-! ### Arrays -/

/-- What is known about the children of a directory. -/
def childrenOf (dir : Node) : TreeM Children := do
  require (.notADirectory dir.id) ((← get).children? dir)

/-- Changes what is known about the children of a directory. -/
def change {α : Type} (dir : Node) (f : Children → Children.Change α) : TreeM α := do
  let (answer, c) := f (← childrenOf dir)
  modify (·.setChildren dir c)
  match answer with
  | .ok a => return a
  | .error broken => fail (.inconsistent broken)

/-- Makes an object for a child of a directory. -/
def newChild (dir : Node) (id : FileId) (name : String) (attributes : Attributes) : TreeM Node :=
  modifyGet (·.make dir id name attributes)

/-! ### Single names -/

/-- The answer for a name from the array of a directory alone. -/
def findCached (dir : Node) (name : String) : TreeM Knowledge := do
  let c ← childrenOf dir
  return if isFileName name then c.find name else .absent

/-- Records what the backend said about a name of a directory, unless the array knows better by
now. -/
def recordAnswer (dir : Node) (name query : String) (id : Option FileId)
    (attributes : Option Attributes) : TreeM Lookup := do
  match id, attributes with
  | some id, some attributes =>
    let child ← newChild dir id query attributes
    match ← change dir (·.insertIfUnknown child) with
    | .present node =>
      modify (·.register node)
      return .present node
    | _ => return .absent
  | _, _ =>
    match ← change dir (·.insertAbsent name) with
    | .present node => return .present node
    | _ => return .absent

/-- The answer for a name in a directory. If the array cannot tell, the backend is asked: for its
spelling of the name, if that is wanted and names do not differ by case; for the identity; and,
if there is one, for the attributes. -/
def findChild (dir : Node) (name : String) (canonicalize : Bool) : TreeM Lookup := do
  match ← findCached dir name with
  | .present node => return .present node
  | .absent => return .absent
  | .unknown =>
    let policy := (← get).policy
    let query ←
      if canonicalize && !policy.isSensitive then ask (.canonical dir.id name) else pure name
    let id ← ask (.resolve dir.id query policy)
    let attributes ← match id with
      | some _ => ask (.attributes dir.id query)
      | none => pure none
    recordAnswer dir name query id attributes

/-- The answer for a name in a directory, under the spelling that the tree is set to cache. -/
def lookup (dir : Node) (name : String) : TreeM Lookup := do
  findChild dir name (← get).config.canonicalizeNames

/-! ### Paths -/

/-- The names that a path consists of. Empty names and `.` stand for no step. -/
def components (path : String) : List String :=
  ((path.toList.splitOn '/').map String.ofList).filter fun c => !c.isEmpty && c != "."

/-- The answer for a list of names, each looked up in the child before it. The search stops at
the first name that is missing and at a node that is no directory. -/
def lookupNames (dir : Node) : List String → TreeM Lookup
  | [] => return .present dir
  | name :: rest => do
    if dir.isDirectory then
      match ← holding [dir] (lookup dir name) with
      | .present next => lookupNames next rest
      | .absent => return .absent
    else return .absent

/-- The answer for a path from a node on. -/
def lookupPath (dir : Node) (path : String) : TreeM Lookup :=
  lookupNames dir (components path)

/-! ### Identities -/

/-- The child of a directory that has an identity. If none is cached, and that is not the end of
it, the backend is asked for a name, which is then looked up. -/
def findChildById (dir : Node) (id : FileId) (cachedOnly : Bool) : TreeM (Option Node) := do
  let c ← childrenOf dir
  match c.findById id with
  | some node => return some node
  | none =>
    if cachedOnly then return none
    match ← ask (.nameOf id) with
    | none => return none
    | some name =>
      let answer ← findChild dir name false
      return answer.node?.filter (·.id = id)

end Tree

end LazyTree
