import LazyTree.Name.Order

set_option autoImplicit false

/-!
# Two-zone arrays and their search

What a directory is known to hold is kept in a single array of slots: first the children known
to be present, then the names known to be absent, each zone in the order of the names. The
search descends once for both zones, for as long as one probe decides on which side of it both
answers lie, and then finishes with one bounded search for each zone.

## Main definitions

* `LazyTree.Slot` — a present child or an absent name.
* `LazyTree.Place` — where a name is in a zone, or where it would have to be inserted.
* `LazyTree.bisect` — binary search over a range of positions.
* `LazyTree.Zones.searchZone` — the search of one zone inside a range of positions.
* `LazyTree.Zones.search` — the search of both zones.
* `LazyTree.Zones.boundary` — where the zone of absent names starts.
-/

namespace LazyTree

/-- What has a name. -/
class Named (ν : Type) where
  /-- The name. -/
  name : ν → String

export Named (name)

instance : Named String := ⟨id⟩

/-- One slot of a two-zone array. -/
inductive Slot (ν : Type) where
  /-- A child known to exist. -/
  | present (child : ν)
  /-- A name known to be free. -/
  | absent (name : String)
deriving DecidableEq, Inhabited

namespace Slot

variable {ν : Type}

instance [Named ν] : Named (Slot ν) where
  name
    | present child => Named.name child
    | absent name => name

/-- Whether the slot belongs to the zone of absent names. -/
def isAbsent : Slot ν → Bool
  | present _ => false
  | absent _ => true

/-- The child in a slot of the present zone. -/
def child? : Slot ν → Option ν
  | present child => some child
  | absent _ => none

/-- The name in a slot of the absent zone. -/
def absentName? : Slot ν → Option String
  | present _ => none
  | absent name => some name

end Slot

/-- The outcome of a search among sorted positions. -/
inductive Place where
  /-- The position that holds what was searched for. -/
  | found (index : Nat)
  /-- The position at which inserting it keeps the order. -/
  | gap (index : Nat)
deriving DecidableEq, Inhabited

namespace Place

/-- The position, found or not. -/
def index : Place → Nat
  | found i => i
  | gap i => i

/-- The position that holds what was searched for, if there is one. -/
def index? : Place → Option Nat
  | found i => some i
  | gap _ => none

end Place

/-- Binary search among the positions from `lo` up to but not including `hi`. A probe tells on
which side of the goal a position lies: `lt` before it, `gt` behind it. -/
def bisect (probe : Nat → Ordering) (lo hi : Nat) : Place :=
  if lo < hi then
    let mid := lo + (hi - lo) / 2
    match probe mid with
    | .eq => .found mid
    | .lt => bisect probe (mid + 1) hi
    | .gt => bisect probe lo mid
  else .gap lo
termination_by hi - lo

/-- Where a name is in each of the two zones. -/
structure ZonePlaces where
  /-- Its place among the present children. -/
  present : Place
  /-- Its place among the absent names. -/
  absent : Place
deriving DecidableEq

/-- The array behind a directory: present children first, absent names behind them. -/
abbrev Zones (ν : Type) := Array (Slot ν)

namespace Zones

variable {ν : Type} [Named ν]

/-- The position of the first absent name, found by bisection; the size if there is none. -/
def boundary (slots : Zones ν) : Nat :=
  (bisect (fun i => if (slots[i]?.map Slot.isAbsent).getD false then .gt else .lt)
    0 slots.size).index

/-- The side of the wanted name on which a slot lies when only one zone is searched. Slots of
the other zone count as lying outside: present children in front of all absent names. -/
def side (policy : CasePolicy) (absentZone : Bool) (wanted : String) (slot : Slot ν) : Ordering :=
  match absentZone, slot.isAbsent with
  | true, false => .lt
  | false, true => .gt
  | _, _ => policy.compare (name slot) wanted

/-- The search of one zone among the positions from `lo` up to but not including `hi`. -/
def searchZone (policy : CasePolicy) (slots : Zones ν) (absentZone : Bool) (wanted : String)
    (lo hi : Nat) : Place :=
  bisect (fun i => (slots[i]?.map (side policy absentZone wanted)).getD .gt) lo hi

/-- The common descent in an array that has both zones. It narrows the range `lo..hi` while the
slot in the middle lies on the same side of both answers. -/
def descend (policy : CasePolicy) (slots : Zones ν) (wanted : String) (lo hi : Nat) : ZonePlaces :=
  if lo < hi then
    let mid := lo + (hi - lo) / 2
    match slots[mid]? with
    | none => ⟨.gap lo, .gap lo⟩
    | some slot =>
      match slot.isAbsent, policy.compare wanted (name slot) with
      | true, .eq => ⟨searchZone policy slots false wanted lo mid, .found mid⟩
      | false, .eq => ⟨.found mid, searchZone policy slots true wanted (mid + 1) hi⟩
      | false, .lt | true, .gt =>
        ⟨searchZone policy slots false wanted lo mid,
          searchZone policy slots true wanted (mid + 1) hi⟩
      | false, .gt => descend policy slots wanted (mid + 1) hi
      | true, .lt => descend policy slots wanted lo mid
  else ⟨.gap lo, .gap lo⟩
termination_by hi - lo

/-- Finds a name in both zones. An array with a single zone takes one ordinary search, and the
zone that is empty reports its natural end. -/
def search (policy : CasePolicy) (slots : Zones ν) (wanted : String) : ZonePlaces :=
  match slots[0]?, slots.back? with
  | some first, some last =>
    if first.isAbsent = last.isAbsent then
      let place := searchZone policy slots first.isAbsent wanted 0 slots.size
      if first.isAbsent then ⟨.gap 0, place⟩ else ⟨place, .gap slots.size⟩
    else descend policy slots wanted 0 slots.size
  | _, _ => ⟨.gap 0, .gap 0⟩

/-- The array with a slot inserted at a position. -/
def insertAt (slots : Zones ν) (i : Nat) (slot : Slot ν) : Zones ν :=
  slots.insertIdxIfInBounds i slot

/-- The array without the slot at a position. -/
def eraseAt (slots : Zones ν) (i : Nat) : Zones ν :=
  slots.eraseIdxIfInBounds i

/-- The present children, in order. -/
def children (slots : Zones ν) : List ν :=
  (slots.toList.take (boundary slots)).filterMap Slot.child?

/-- The absent names, in order. -/
def absentNames (slots : Zones ν) : List String :=
  (slots.toList.drop (boundary slots)).filterMap Slot.absentName?

end Zones

end LazyTree
