import LazyTree.Node
import LazyTree.Zone.Consistency

set_option autoImplicit false

/-!
# The children of a directory

What is known about the children of one directory: a two-zone array, a flag that says whether
the array is a complete listing, and a count of the changes. Every change builds a new array and
publishes it; whoever still holds the old array is not disturbed. No array is published that
breaks a rule of two-zone arrays. A change that would do so is refused, and leaves behind what it
had done before the refusal.

## Main definitions

* `LazyTree.Children` — what is known about the children of a directory.
* `LazyTree.Knowledge` — what the array says about a name.
* `LazyTree.Children.find` — the answer for a name from the array alone.
* `LazyTree.Children.insert`, `LazyTree.Children.insertIfUnknown`,
  `LazyTree.Children.insertAbsent`, `LazyTree.Children.remove`,
  `LazyTree.Children.markAllLoaded`, `LazyTree.Children.install`, `LazyTree.Children.clear` — the
  changes.
-/

namespace LazyTree

/-- What is known about the children of a directory. -/
structure Children where
  /-- The order of the names. -/
  policy : CasePolicy
  /-- The published array. -/
  slots : Zones Node
  /-- Whether the present children are all there are. -/
  allLoaded : Bool
  /-- The number of published changes. A counter of 64 bits keeps it, which tells two states apart as
  long as fewer than `2 ^ 64` changes were published between them. -/
  generation : Nat
deriving DecidableEq

/-- What is known about a name in a directory. -/
inductive Knowledge where
  /-- A child of that name exists. -/
  | present (child : Node)
  /-- No child of that name exists. -/
  | absent
  /-- Only the backend can tell. -/
  | unknown
deriving DecidableEq

/-- The outcome of a change: its answer, or the rule that the new array would break, and what
the directory is known to hold afterwards. -/
abbrev Children.Change (α : Type) := Except Inconsistency α × Children

namespace Children

/-- Nothing is known yet. -/
def empty (policy : CasePolicy) : Children :=
  ⟨policy, #[], false, 0⟩

/-- How the children of a directory are shown as a text. -/
def description (c : Children) : String :=
  "DirChildren \x7b cmp: " ++ c.policy.label ++ ", len: " ++ toString c.slots.size ++
    ", all_loaded: " ++ toString c.allLoaded ++ " \x7d"

/-- The places of a name in the two zones. -/
def search (c : Children) (name : String) : ZonePlaces :=
  Zones.search c.policy c.slots name

/-- What the places of a name say about it. A recorded absence goes before a present child, and
a complete listing leaves nothing unknown. -/
def knowledgeAt (c : Children) (places : ZonePlaces) : Knowledge :=
  if places.absent.index?.isSome then .absent
  else match places.present.index?.bind fun i => c.slots[i]?.bind Slot.child? with
    | some child => .present child
    | none => if c.allLoaded then .absent else .unknown

/-- The answer for a name from the array alone. The empty name is never present. -/
def find (c : Children) (name : String) : Knowledge :=
  if name.isEmpty then .absent else c.knowledgeAt (c.search name)

/-- The counter that keeps the number of published changes. -/
def counter (c : Children) : UInt64 :=
  .ofNat c.generation

/-- The present children, in the order of their names. -/
def present (c : Children) : List Node :=
  Zones.children c.slots

/-- The names recorded as absent, in order. -/
def absentNames (c : Children) : List String :=
  Zones.absentNames c.slots

/-- The present child with a given identity. -/
def findById (c : Children) (id : FileId) : Option Node :=
  (c.slots.toList.filterMap Slot.child?).find? (·.id = id)

/-- The first rule that the array breaks, given the flag. -/
def inconsistency? (c : Children) : Option Inconsistency :=
  Zones.inconsistency? c.policy c.allLoaded c.slots

/-- Publishes an array, unless it breaks a rule, and answers. -/
def publish {α : Type} (c : Children) (slots : Zones Node) (answer : α) : Change α :=
  match Zones.inconsistency? c.policy c.allLoaded slots with
  | some broken => (.error broken, c)
  | none => (.ok answer, { c with slots := slots, generation := c.generation + 1 })

/-- The child that a search found in the present zone. -/
def foundChild? (c : Children) (places : ZonePlaces) : Option Node :=
  places.present.index?.bind fun i => c.slots[i]?.bind Slot.child?

/-- Adds a child in place of a recorded absence of its name. A child that is already present
under that name is kept and answered instead. -/
def insert (c : Children) (child : Node) : Change Node :=
  let places := c.search child.name
  match c.foundChild? places with
  | some kept => (.ok kept, c)
  | none =>
    let slots := match places.absent with
      | .found i => Zones.eraseAt c.slots i
      | .gap _ => c.slots
    c.publish (Zones.insertAt slots places.present.index (.present child)) child

/-- Adds the child that a backend has reported, unless its name became known in the meantime. A
child that is present by now wins, and so does a recorded absence. A complete listing that
misses the child is older than the report. -/
def insertIfUnknown (c : Children) (child : Node) : Change Knowledge :=
  let places := c.search child.name
  let add := c.publish (Zones.insertAt c.slots places.present.index (.present child))
    (Knowledge.present child)
  match c.knowledgeAt places with
  | .present kept => (.ok (.present kept), c)
  | .absent => if c.allLoaded then add else (.ok .absent, c)
  | .unknown => add

/-- Records that no child of a name exists, unless the name became known in the meantime. A
complete listing records nothing: it answers every absence anyhow. -/
def insertAbsent (c : Children) (name : String) : Change Knowledge :=
  if name.isEmpty then (.ok .absent, c)
  else
    let places := c.search name
    match c.knowledgeAt places with
    | .present kept => (.ok (.present kept), c)
    | .absent => (.ok .absent, c)
    | .unknown =>
      match places.absent with
      | .found _ => (.ok .absent, c)
      | .gap i => c.publish (Zones.insertAt c.slots i (.absent name)) .absent

/-- Removes the child with the name and identity of `child`, and tells whether there was one.
With `remember` set, and unless the listing is complete, the name is then recorded as absent,
but never while another child has it. -/
def remove (c : Children) (child : Node) (remember : Bool) : Change Bool :=
  let places := c.search child.name
  have removed : Bool := match c.foundChild? places with
    | some found => found.id = child.id
    | none => false
  let slots := if removed then Zones.eraseAt c.slots places.present.index else c.slots
  let free := removed || places.present.index?.isNone
  if remember && free && !c.allLoaded && places.absent.index?.isNone then
    let gap := (Zones.search c.policy slots child.name).absent.index
    c.publish (Zones.insertAt slots gap (.absent child.name)) removed
  else if removed then c.publish slots removed
  else (.ok removed, c)

/-- Declares the present children to be all there are, and forgets the absent names. -/
def markAllLoaded (c : Children) : Change Unit :=
  { c with allLoaded := true }.publish (c.slots.take (Zones.boundary c.slots)) ()

/-- Makes a listing the complete one, and tells whether it did. A listing is turned down if any
change was published since the given generation. -/
def install (c : Children) (listing : List Node) (generation : Nat) : Change Bool :=
  if c.generation ≠ generation then (.ok false, c)
  else { c with allLoaded := true }.publish (listing.map Slot.present).toArray true

/-- Forgets everything. -/
def clear (c : Children) : Change Unit :=
  { c with allLoaded := false }.publish #[] ()

end Children

namespace Node

/-- How a node is shown as a text. -/
def description (n : Node) : String :=
  let parent := match n.parent with
    | none => "None"
    | some id => "Some(" ++ id.description ++ ")"
  "Node \x7b id: " ++ n.id.description ++ ", name: " ++ Text.quoted n.name ++ ", parent: " ++
    parent ++ ", attributes: " ++ n.attributes.description ++ ", .. \x7d"

end Node

end LazyTree
