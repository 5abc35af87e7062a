import LazyTree.Toml.Text

set_option autoImplicit false

/-!
# Documents

A document is read line by line. A header opens a table; every other line adds a value under a key
to the table that was opened last.

## Main definitions

* `LazyTree.Toml.readKey` — a dotted key.
* `LazyTree.Toml.readValue` — a value.
* `LazyTree.Toml.Draft` — the part of a document that has been read.
* `LazyTree.Toml.read?` — the table of a document.
-/

namespace LazyTree.Toml

/-- How deep values may be nested, and how many names a dotted key may have. -/
def nestingLimit : Nat := 80

/-! ### Blanks and comments -/

/-- Whether a character may stand in a comment. -/
def isCommentChar (c : Char) : Bool :=
  isVisible c

/-- What is left without blanks in front. -/
def skipBlanks (s : List Char) : List Char :=
  s.dropWhile isBlank

/-- What is left without a comment in front. -/
def skipComment : List Char → List Char
  | '#' :: rest => rest.dropWhile isCommentChar
  | s => s

/-- What is left behind the end of a line, which may hold blanks and a comment. The document may
end there too. -/
def endOfLine? (s : List Char) : Option (List Char) :=
  match skipComment (skipBlanks s) with
  | [] => some []
  | s => afterNewline? s

/-- What is left without blanks, comments and line breaks in front. -/
def skipLines : Nat → List Char → List Char
  | 0, s => s
  | fuel + 1, s =>
    match afterNewline? (skipComment (skipBlanks s)) with
    | some rest => skipLines fuel rest
    | none => skipBlanks s

/-! ### Keys -/

/-- Whether a character may stand in a key without quotes. -/
def isBareChar (c : Char) : Bool :=
  c.isAlphanum || c == '-' || c == '_'

/-- One name of a key. -/
def readName (s : List Char) : Option (String × List Char) :=
  match s with
  | '"' :: _ | '\'' :: _ => readShortText s
  | s =>
    let name := s.takeWhile isBareChar
    if name.isEmpty then none else some (String.ofList name, s.dropWhile isBareChar)

/-- The names of a dotted key, with blanks around the dots. -/
def readNames : Nat → List Char → Option (List String × List Char)
  | 0, _ => none
  | fuel + 1, s => do
    let (name, rest) ← readName (skipBlanks s)
    match skipBlanks rest with
    | '.' :: rest =>
      let (names, rest) ← readNames fuel rest
      return (name :: names, rest)
    | rest => return ([name], rest)

/-- A dotted key: the names in front of the last one, and the last one. -/
def readKey (s : List Char) : Option ((List String × String) × List Char) := do
  let (names, rest) ← readNames (s.length + 1) s
  let last ← names.getLast?
  if nestingLimit < names.length then none
  return ((names.dropLast, last), rest)

/-! ### Values -/

/-- Whether a character may be part of a number, a date or a time. -/
def isWordChar (c : Char) : Bool :=
  c.isAlphanum || "+-._:".toList.contains c

/-- A word, and what is behind it. A date goes on behind one space if a time follows. -/
def readWord (s : List Char) : List Char × List Char :=
  let word := s.takeWhile isWordChar
  let rest := s.dropWhile isWordChar
  match rest with
  | ' ' :: c :: more =>
    if isDate word && isDigit c then
      (word ++ ' ' :: (c :: more).takeWhile isWordChar, (c :: more).dropWhile isWordChar)
    else (word, rest)
  | rest => (word, rest)

mutual

/-- A value, and what is behind it. `depth` is the number of brackets and braces around it. -/
def readValue : Nat → Nat → List Char → Option (Value × List Char)
  | 0, _, _ => none
  | fuel + 1, depth, s =>
    match s with
    | '"' :: _ | '\'' :: _ => (readText s).map fun (t, rest) => (.text t, rest)
    | '[' :: rest =>
      if nestingLimit ≤ depth + 1 then none
      else (readItems fuel (depth + 1) rest).map fun (items, rest) => (.array items, rest)
    | '{' :: rest =>
      if nestingLimit ≤ depth + 1 then none
      else
        match skipBlanks rest with
        | '}' :: rest => some (.table .inline [], rest)
        | rest => (readPairs fuel (depth + 1) [] rest).map
            fun (entries, rest) => (.table .inline entries, rest)
    | s =>
      let (word, rest) := readWord s
      (scalar? word).map fun value => (value, rest)

/-- The items of an array up to its closing bracket. A comma may follow the last one. -/
def readItems : Nat → Nat → List Char → Option (List Value × List Char)
  | 0, _, _ => none
  | fuel + 1, depth, s =>
    match skipLines (s.length + 1) s with
    | ']' :: rest => some ([], rest)
    | s => do
      let (item, rest) ← readValue fuel depth s
      match skipLines (rest.length + 1) rest with
      | ']' :: rest => return ([item], rest)
      | ',' :: rest =>
        let (items, rest) ← readItems fuel depth rest
        return (item :: items, rest)
      | _ => none

/-- The entries of a table in braces up to its closing brace, added to some entries. No comma
follows the last one. -/
def readPairs : Nat → Nat → Entries → List Char → Option (Entries × List Char)
  | 0, _, _, _ => none
  | fuel + 1, depth, entries, s => do
    let ((path, key), rest) ← readKey s
    match skipBlanks rest with
    | '=' :: rest =>
      let (value, rest) ← readValue fuel depth (skipBlanks rest)
      let entries ← entries.put? path key value
      match skipBlanks rest with
      | '}' :: rest => return (entries, rest)
      | ',' :: rest => readPairs fuel depth entries rest
      | _ => none
    | _ => none

end

/-! ### Lines -/

/-- The part of a document that has been read. -/
structure Draft where
  /-- The table of the document. -/
  root : Entries
  /-- The names of the table that was opened last. -/
  opened : List String

namespace Draft

/-- The effect of a line that adds a value. -/
def pair? (d : Draft) (path : List String) (key : String) (value : Value) : Option Draft := do
  let root ← d.root.within? (·.put? path key value) d.opened
  return { d with root := root }

/-- The effect of a header. -/
def header? (path : List String) (key : String) (d : Draft) : Option Draft := do
  let root ← d.root.within? (·.open? key) path
  return ⟨root, path ++ [key]⟩

/-- The effect of the header of an element. -/
def elementHeader? (path : List String) (key : String) (d : Draft) : Option Draft := do
  let root ← d.root.within? (·.openElement? key) path
  return ⟨root, path ++ [key]⟩

end Draft

/-- The effect of a line on what has been read, and what is behind the line. -/
def readLine (d : Draft) (s : List Char) : Option (Draft × List Char) :=
  match s with
  | '[' :: '[' :: rest => do
    let ((path, key), rest) ← readKey rest
    match rest with
    | ']' :: ']' :: rest => return (← d.elementHeader? path key, ← endOfLine? rest)
    | _ => none
  | '[' :: rest => do
    let ((path, key), rest) ← readKey rest
    match rest with
    | ']' :: rest => return (← d.header? path key, ← endOfLine? rest)
    | _ => none
  | s => do
    let ((path, key), rest) ← readKey s
    match rest with
    | '=' :: rest =>
      let (value, rest) ← readValue (s.length + 1) 0 (skipBlanks rest)
      return (← d.pair? path key value, ← endOfLine? rest)
    | _ => none

/-- What a list of characters adds to what has been read. -/
def readLines : Nat → Draft → List Char → Option Draft
  | 0, _, _ => none
  | fuel + 1, d, s =>
    match skipBlanks s with
    | [] => some d
    | s =>
      match endOfLine? s with
      | some rest => readLines fuel d rest
      | none => do
        let (d, rest) ← readLine d s
        readLines fuel d rest

/-- The table of a document. A byte order mark in front of it is no part of it. -/
def read? (document : String) : Option Entries :=
  let s := match document.toList with
    | '\uFEFF' :: rest => rest
    | s => s
  (readLines (s.length + 1) ⟨[], []⟩ s).map Draft.root

end LazyTree.Toml
