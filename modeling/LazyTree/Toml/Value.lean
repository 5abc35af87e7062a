set_option autoImplicit false

/-!
# Values of TOML documents

A document is a table. Tables remember how they came about, because that decides what a later
part of the document may still add to them.

## Main definitions

* `LazyTree.Toml.Origin` — how a table came about.
* `LazyTree.Toml.Value` — the values.
* `LazyTree.Toml.Entries.put?` — adding a value under a dotted key.
* `LazyTree.Toml.Entries.open?` — the effect of a table header.
* `LazyTree.Toml.Entries.openElement?` — the effect of a header for an element of an array.
* `LazyTree.Toml.Entries.within?` — a change of the table that a header has opened.
-/

namespace LazyTree.Toml

/-- How a table came about. -/
inductive Origin where
  /-- By a header of its own, or as the whole document. -/
  | header
  /-- As an ancestor in the header of another table. -/
  | implied
  /-- By a dotted key. -/
  | dotted
  /-- In braces. -/
  | inline
deriving DecidableEq

/-- A value. Numbers that are no integers, and dates and times, are only known to be well
formed. -/
inductive Value where
  /-- A text. -/
  | text (s : String)
  /-- An integer. -/
  | integer (n : Int)
  /-- A number with a fraction or an exponent, an infinity, or no number. -/
  | float
  /-- True or false. -/
  | boolean (b : Bool)
  /-- A date, a time, or both. -/
  | dateTime
  /-- A list of values in brackets. -/
  | array (items : List Value)
  /-- A table. -/
  | table (origin : Origin) (entries : List (String × Value))
  /-- The elements of an array that each have a header, the last one in front. -/
  | elements (tables : List (List (String × Value)))

/-- What a table holds, in the order of the document. -/
abbrev Entries := List (String × Value)

namespace Entries

/-- The entries with a new value under a key. -/
def replace (entries : Entries) (key : String) (value : Value) : Entries :=
  if entries.any (·.1 == key) then entries.map fun e => if e.1 == key then (key, value) else e
  else entries ++ [(key, value)]

/-- Adds a value under a key that is free. -/
def add? (entries : Entries) (key : String) (value : Value) : Option Entries :=
  if (entries.lookup key).isSome then none else some (entries ++ [(key, value)])

/-- Adds a value below the tables on a path, which is not part of any header. Tables that are
missing come about by the way. The last table on the path must have come about that way too, and
none of the others may have a header of its own. -/
def put? (entries : Entries) : List String → String → Value → Option Entries
  | [], key, value => entries.add? key value
  | name :: path, key, value =>
    match entries.lookup name with
    | none => do
      let below ← put? [] path key value
      return entries.replace name (.table .dotted below)
    | some (.table origin below) => do
      let allowed := origin = .dotted || (origin = .implied && !path.isEmpty)
      if !allowed then none
      let below ← put? below path key value
      return entries.replace name (.table origin below)
    | some (.elements (last :: others)) => do
      if path.isEmpty then none
      let last ← put? last path key value
      return entries.replace name (.elements (last :: others))
    | some _ => none

/-- A change of the table at the end of a path in a header. Tables that are missing come about by
the way; a table in braces cannot be reached. -/
def within? (f : Entries → Option Entries) (entries : Entries) : List String → Option Entries
  | [] => f entries
  | name :: path =>
    match entries.lookup name with
    | none => do
      let below ← within? f [] path
      return entries.replace name (.table .implied below)
    | some (.table .inline _) => none
    | some (.table origin below) => do
      let below ← within? f below path
      return entries.replace name (.table origin below)
    | some (.elements (last :: others)) => do
      let last ← within? f last path
      return entries.replace name (.elements (last :: others))
    | some _ => none

/-- The effect of a header on the table that holds the last name of it: a table of that name
comes about, or one that was only implied gets its header. -/
def open? (key : String) (entries : Entries) : Option Entries :=
  match entries.lookup key with
  | none => some (entries.replace key (.table .header []))
  | some (.table .implied below) => some (entries.replace key (.table .header below))
  | some _ => none

/-- The effect of the header of an element on the table that holds the last name of it. -/
def openElement? (key : String) (entries : Entries) : Option Entries :=
  match entries.lookup key with
  | none => some (entries.replace key (.elements [[]]))
  | some (.elements tables) => some (entries.replace key (.elements ([] :: tables)))
  | some _ => none

end Entries

end LazyTree.Toml
