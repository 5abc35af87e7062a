import LazyTree.Children

set_option autoImplicit false

/-!
# Sessions on the children of one directory

A session carries what is known about one directory through a list of steps and answers each of
them. Arrays that were published can be kept under a name and shown again later.

## Main definitions

* `LazyTree.ChildrenStep` — the steps.
* `LazyTree.ChildrenReply` — what a step answers.
* `LazyTree.ChildrenSession` — the state between two steps.
* `LazyTree.ChildrenSession.run` — the answers of a list of steps, each with the state after it.
-/

namespace LazyTree

/-- Why a step has no regular answer. -/
inductive Fault where
  /-- The number zero was given for an identity. -/
  | zeroId
  /-- The new array of a directory would break a rule. -/
  | inconsistent (broken : Inconsistency)
deriving DecidableEq

namespace Fault

/-- The wording of a fault. -/
def message : Fault → String
  | zeroId => "FileId must be non-zero"
  | inconsistent broken => "children array is inconsistent: " ++ broken.message

end Fault

/-- A child as a step describes it. -/
structure ChildSpec where
  /-- Its name. -/
  name : String
  /-- The number of its identity. -/
  id : UInt32
  /-- Its attributes. -/
  attributes : Attributes := {}

/-- A step of a session on one directory. -/
inductive ChildrenStep where
  /-- Adds a new child. -/
  | insert (child : ChildSpec)
  /-- Adds a new child unless its name is known. -/
  | insertIfUnknown (child : ChildSpec)
  /-- Records an absence. -/
  | insertAbsent (name : String)
  /-- Asks the array about a name. -/
  | find (name : String)
  /-- Removes a child. -/
  | remove (child : ChildSpec) (remember : Bool)
  /-- Declares the listing complete. -/
  | markAllLoaded
  /-- Installs a listing, for the given generation or the current one. -/
  | install (listing : List ChildSpec) (generation : Option Nat)
  /-- Forgets everything. -/
  | clear
  /-- Asks for the child with an identity. -/
  | findById (id : UInt32)
  /-- Asks for the present children. -/
  | present
  /-- Asks for the absent names. -/
  | absentNames
  /-- Asks for the places of a name. -/
  | search (name : String)
  /-- Keeps the current array under a name. -/
  | keep (as : String)
  /-- Shows the array kept under a name. -/
  | showKept (as : String)
  /-- Asks for a description of the directory. -/
  | describe
  /-- Checks the rules on the current array and flag. -/
  | check

/-- What a step answers. -/
inductive ChildrenReply where
  /-- Nothing. -/
  | nothing
  /-- Yes or no. -/
  | flag (b : Bool)
  /-- The node in the array, and whether it is the one that the step made. -/
  | node (node : Node) (isNew : Bool)
  /-- What is known about a name, and whether a present node is the one that the step made. -/
  | knowledge (k : Knowledge) (isNew : Option Bool)
  /-- A child or none. -/
  | child (node : Option Node)
  /-- Several children. -/
  | nodes (nodes : List Node)
  /-- Several names. -/
  | names (names : List String)
  /-- The places of a name. -/
  | places (p : ZonePlaces)
  /-- A kept array. -/
  | slots (slots : Option (Zones Node))
  /-- A text. -/
  | text (s : String)
  /-- A broken rule, if there is one. -/
  | check (broken : Option Inconsistency)
  /-- The step ended in a fault. -/
  | fault (f : Fault)

/-- The state of a session on one directory. -/
structure ChildrenSession where
  /-- What is known about the directory. -/
  children : Children
  /-- The arrays kept under a name, the latest first. -/
  kept : List (String × Zones Node)
  /-- The number of nodes made so far. -/
  made : Nat

namespace ChildrenSession

/-- The state at the start of a session. -/
def start (policy : CasePolicy) : ChildrenSession :=
  ⟨Children.empty policy, [], 0⟩

/-- The directory that all nodes of a session belong to. -/
def parent : FileId := default

/-- Makes the node that a step describes. -/
def makeNode (s : ChildrenSession) (spec : ChildSpec) : Except Fault Node × ChildrenSession :=
  match FileId.ofRaw? spec.id with
  | none => (.error .zeroId, s)
  | some id => (.ok ⟨s.made, id, spec.name, some parent, spec.attributes⟩,
      { s with made := s.made + 1 })

/-- Makes the nodes of a listing, up to the first that cannot be made. -/
def makeNodes (s : ChildrenSession) :
    List ChildSpec → Except Fault (List Node) × ChildrenSession
  | [] => (.ok [], s)
  | spec :: rest =>
    match s.makeNode spec with
    | (.error f, s) => (.error f, s)
    | (.ok n, s) =>
      match makeNodes s rest with
      | (.error f, s) => (.error f, s)
      | (.ok ns, s) => (.ok (n :: ns), s)

/-- Takes over the outcome of a change. -/
def settle {α : Type} (s : ChildrenSession) (change : Children.Change α)
    (reply : α → ChildrenReply) : ChildrenReply × ChildrenSession :=
  (match change.1 with
    | .ok answer => reply answer
    | .error broken => .fault (.inconsistent broken),
  { s with children := change.2 })

/-- Makes a node and goes on with it. -/
def withNode (s : ChildrenSession) (spec : ChildSpec)
    (next : Node → ChildrenSession → ChildrenReply × ChildrenSession) :
    ChildrenReply × ChildrenSession :=
  match s.makeNode spec with
  | (.error f, s) => (.fault f, s)
  | (.ok n, s) => next n s

/-- Whether what is known about a name is a certain node. -/
def isNode (n : Node) : Knowledge → Option Bool
  | .present child => some (child.serial = n.serial)
  | _ => none

/-- Takes one step. -/
def step (s : ChildrenSession) : ChildrenStep → ChildrenReply × ChildrenSession
  | .insert spec => s.withNode spec fun n s =>
    s.settle (s.children.insert n) fun kept => .node kept (kept.serial = n.serial)
  | .insertIfUnknown spec => s.withNode spec fun n s =>
    s.settle (s.children.insertIfUnknown n) fun k => .knowledge k (isNode n k)
  | .insertAbsent name => s.settle (s.children.insertAbsent name) fun k => .knowledge k none
  | .find name => (.knowledge (s.children.find name) none, s)
  | .remove spec remember => s.withNode spec fun n s =>
    s.settle (s.children.remove n remember) .flag
  | .markAllLoaded => s.settle s.children.markAllLoaded fun _ => .nothing
  | .install listing generation =>
    match s.makeNodes listing with
    | (.error f, s) => (.fault f, s)
    | (.ok nodes, s) =>
      s.settle (s.children.install nodes (generation.getD s.children.generation)) .flag
  | .clear => s.settle s.children.clear fun _ => .nothing
  | .findById raw =>
    match FileId.ofRaw? raw with
    | none => (.fault .zeroId, s)
    | some id => (.child (s.children.findById id), s)
  | .present => (.nodes s.children.present, s)
  | .absentNames => (.names s.children.absentNames, s)
  | .search name => (.places (s.children.search name), s)
  | .keep as => (.nothing, { s with kept := (as, s.children.slots) :: s.kept })
  | .showKept as => (.slots (s.kept.lookup as), s)
  | .describe => (.text s.children.description, s)
  | .check => (.check s.children.inconsistency?, s)

/-- The answers of a list of steps, each with what is known about the directory after it. -/
def run (s : ChildrenSession) : List ChildrenStep → List (ChildrenReply × Children)
  | [] => []
  | step :: rest =>
    let (reply, s) := s.step step
    (reply, s.children) :: run s rest

end ChildrenSession

end LazyTree
