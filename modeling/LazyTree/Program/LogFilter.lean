set_option autoImplicit false

/-!
# Filters for messages

A filter is a list of rules, separated by commas, each for the messages of one part of a program or
of all parts: up to which level messages are shown. A rule may be bound to a stretch of work, and
then says nothing about messages outside of it.

## Main definitions

* `LazyTree.LogRule` — a rule.
* `LazyTree.LogRule.ofText?` — the rule with some spelling.
* `LazyTree.LogRule.showsErrors` — whether rules show the errors of a program.
* `LazyTree.showsErrors` — whether a filter does.
-/

namespace LazyTree

/-- A rule of a filter. -/
structure LogRule where
  /-- The part of a program that it is about, or all of them. -/
  target : Option String
  /-- The level up to which messages are shown: none at zero, errors alone at one. -/
  level : Nat
  /-- Whether it is bound to a stretch of work. -/
  bound : Bool
deriving DecidableEq

namespace LogRule

/-- The level above all messages. -/
def everything : Nat := 5

/-- The level with a spelling. -/
def level? (s : String) : Option Nat :=
  match (s.map Char.toLower) with
  | "off" | "0" => some 0
  | "error" | "1" => some 1
  | "warn" | "2" => some 2
  | "info" | "3" => some 3
  | "debug" | "4" => some 4
  | "trace" | "5" => some 5
  | _ => none

/-- Whether a character may be part of the name of a target. -/
def isTargetChar (c : Char) : Bool :=
  c.isAlphanum || c == '_' || c == ':' || c == '-' || 0x80 ≤ c.toNat

/-- The target and the stretch of work in front of a rule, in any order, and what is behind
them. -/
def scope : Nat → List Char → Option (Option String × Bool × List Char)
  | 0, s => some (none, false, s)
  | pieces + 1, s =>
    match s with
    | '[' :: rest =>
      match rest.dropWhile (· != ']') with
      | _ :: rest => (scope pieces rest).map fun (target, _, rest) => (target, true, rest)
      | [] => none
    | s =>
      let name := s.takeWhile isTargetChar
      if name.isEmpty then some (none, false, s)
      else
        match (s.dropWhile isTargetChar) with
        | '[' :: rest =>
          (scope pieces ('[' :: rest)).map fun (_, bound, rest) =>
            (some (String.ofList name), bound, rest)
        | rest => some (some (String.ofList name), false, rest)

/-- The rule with a spelling: a level, or a target or a stretch of work with or without a level. -/
def ofText? (s : String) : Option LogRule :=
  match level? s with
  | some level => some ⟨none, level, false⟩
  | none => do
    let (target, bound, rest) ← scope 2 s.toList
    if target.isNone && !bound then none
    let level ← match rest with
      | [] | ['='] => some everything
      | '=' :: level => level? (String.ofList level)
      | _ => none
    return ⟨target.filter fun t => (level? t).isNone, level, bound⟩

/-- Whether a rule is about the messages of a program. -/
def concerns (program : String) (r : LogRule) : Bool :=
  !r.bound && r.target.all fun t => t.toList.isPrefixOf program.toList

/-- How closely a rule names what it is about. -/
def weight (r : LogRule) : Nat :=
  match r.target with
  | some t => t.utf8ByteSize + 1
  | none => 0

/-- Whether rules show the errors of a program: the closest rule decides, of several the last.
Where there are no rules at all, errors are shown. -/
def showsErrors (program : String) (rules : List LogRule) : Bool :=
  if rules.isEmpty then true
  else
    let closest := (rules.filter (concerns program)).foldl
      (fun best r => match best with
        | some b => if b.weight ≤ r.weight then some r else some b
        | none => some r) (none : Option LogRule)
    closest.any (1 ≤ ·.level)

end LogRule

/-- Whether a filter shows the errors of a program. A filter with a rule that makes no sense counts
as none, and without a filter errors are shown. -/
def showsErrors (program : String) (filter : Option String) : Bool :=
  match filter with
  | none => true
  | some filter =>
    let rules := ((filter.toList.splitOn ',').map String.ofList).filter (!·.isEmpty)
    match rules.mapM LogRule.ofText? with
    | some rules => LogRule.showsErrors program rules
    | none => true

end LazyTree
