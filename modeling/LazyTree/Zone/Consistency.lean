import LazyTree.Text.Quoted
import LazyTree.Zone.Search

set_option autoImplicit false

/-!
# Consistency of two-zone arrays

What an array has to satisfy before it may stand for a directory, as a checker that reports the
first rule an array breaks. A violation is a defect of whoever built the array; it is no
condition that a caller could recover from.

## Main definitions

* `LazyTree.Inconsistency` — a broken rule, with the slot that breaks it.
* `LazyTree.Inconsistency.message` — the wording of a broken rule.
* `LazyTree.Zones.inconsistency?` — the first rule that an array breaks, if any.
-/

namespace LazyTree

/-- A rule of two-zone arrays that is broken. -/
inductive Inconsistency where
  /-- A present child stands behind an absent name. -/
  | zoneOrder (index : Nat) (name : String)
  /-- Two neighbours of one zone have the same name. -/
  | duplicate (index : Nat) (name : String)
  /-- A slot sorts before its neighbour in the same zone. -/
  | unsorted (index : Nat) (name : String)
  /-- A name is both present and absent. -/
  | shadowed (name : String)
  /-- A complete listing still remembers absent names. -/
  | absentWhileLoaded (count : Nat)
deriving DecidableEq

namespace Inconsistency

/-- The wording of a broken rule. -/
def message : Inconsistency → String
  | zoneOrder index name =>
    "resolved entry " ++ Text.quoted name ++ " at index " ++ toString index ++
      " follows the negative zone"
  | duplicate index name =>
    "entry " ++ Text.quoted name ++ " at index " ++ toString index ++
      " duplicates its predecessor"
  | unsorted index name =>
    "entry " ++ Text.quoted name ++ " at index " ++ toString index ++ " is out of order"
  | shadowed name => "name " ++ Text.quoted name ++ " is cached in both zones"
  | absentWhileLoaded count =>
    "fully loaded directory still holds " ++ toString count ++ " negative entries"

end Inconsistency

namespace Zones

variable {ν : Type} [Named ν]

/-- The first present child behind an absent name. `index` is the position of the first slot of
the list, `behind` whether an absent name was seen before it. -/
def strayChild? (index : Nat) (behind : Bool) : List (Slot ν) → Option Inconsistency
  | [] => none
  | slot :: rest =>
    if behind && !slot.isAbsent then some (.zoneOrder index (name slot))
    else strayChild? (index + 1) (behind || slot.isAbsent) rest

/-- The first slot that does not lie behind its neighbour of the same zone. `index` is the
position of the second slot of the list. -/
def disorder? (policy : CasePolicy) (index : Nat) : List (Slot ν) → Option Inconsistency
  | a :: b :: rest =>
    if a.isAbsent = b.isAbsent then
      match policy.compare (name b) (name a) with
      | .gt => disorder? policy (index + 1) (b :: rest)
      | .eq => some (.duplicate index (name b))
      | .lt => some (.unsorted index (name b))
    else disorder? policy (index + 1) (b :: rest)
  | _ => none

/-- The first absent name that a child in front of the boundary has, by binary search among
these children. -/
def shadow? (policy : CasePolicy) (slots : Zones ν) (boundary : Nat) : Option Inconsistency :=
  ((slots.toList.drop boundary).find? fun slot =>
    (bisect (fun i => (slots[i]?.map fun s => policy.compare (name s) (name slot)).getD .gt)
      0 boundary).index?.isSome).map fun slot => .shadowed (name slot)

/-- The first rule that an array breaks: the order of the zones, then the order within each
zone, then that a complete listing has no absent names, then that no name is in both zones. -/
def inconsistency? (policy : CasePolicy) (allLoaded : Bool) (slots : Zones ν) :
    Option Inconsistency :=
  let boundary := slots.toList.findIdx Slot.isAbsent
  strayChild? 0 false slots.toList
    <|> disorder? policy 1 slots.toList
    <|> (if allLoaded && boundary < slots.size then
          some (.absentWhileLoaded (slots.size - boundary)) else none)
    <|> shadow? policy slots boundary

end Zones

end LazyTree
