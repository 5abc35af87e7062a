set_option autoImplicit false

/-!
# Spelling texts

A text is spelled in the first of five ways that can hold it: between double quotes without any
escape, between single quotes, between tripled double quotes without any escape, between tripled
single quotes, and at last between double quotes with escapes, which are tripled if the text has
line breaks. A tab never stands in the way, but is escaped wherever escapes are read.

## Main definitions

* `LazyTree.Toml.needsEscape` — the control characters that only an escape can spell.
* `LazyTree.Toml.longestRun` — the longest run of a character.
* `LazyTree.Toml.escapedChar` — what stands for a character where escapes are read.
* `LazyTree.Toml.Spelling` — the ways to spell a text.
* `LazyTree.Toml.Spelling.choose` — the way that is chosen for a text.
* `LazyTree.Toml.spell` — the spelling of a text.
-/

namespace LazyTree.Toml

/-- Whether a character is a control character that only an escape can spell. -/
def needsEscape (c : Char) : Bool :=
  (c.toNat ≤ 0x1F || c.toNat = 0x7F) && c != '\t' && c != '\n'

/-- The length of the longest run of a character, where `current` characters of a run and a run of
`longest` have been met before. -/
def longestRunFrom (c : Char) (current longest : Nat) : List Char → Nat
  | [] => max current longest
  | d :: rest =>
    if d = c then longestRunFrom c (current + 1) longest rest
    else longestRunFrom c 0 (max current longest) rest

/-- The length of the longest run of a character. -/
def longestRun (c : Char) (s : List Char) : Nat :=
  longestRunFrom c 0 0 s

/-- A digit of a number in base sixteen, in capitals. -/
def hexDigit (n : Nat) : Char :=
  if n < 10 then Char.ofNat ('0'.toNat + n) else Char.ofNat ('A'.toNat + (n - 10))

/-- What stands for a character where escapes are read, double quotes and line breaks apart. -/
def escapedChar (c : Char) : List Char :=
  match c with
  | '\x08' => ['\\', 'b']
  | '\t' => ['\\', 't']
  | '\x0c' => ['\\', 'f']
  | '\r' => ['\\', 'r']
  | '\\' => ['\\', '\\']
  | c =>
    if needsEscape c then
      ['\\', 'u', '0', '0', hexDigit (c.toNat / 16), hexDigit (c.toNat % 16)]
    else [c]

/-- The characters between double quotes on one line. -/
def escapeShort : List Char → List Char
  | [] => []
  | '"' :: rest => '\\' :: '"' :: escapeShort rest
  | '\n' :: rest => '\\' :: 'n' :: escapeShort rest
  | c :: rest => escapedChar c ++ escapeShort rest

/-- The characters between tripled double quotes, where `quotes` double quotes have been written
just before. The third one in a row gets an escape. -/
def escapeLong (quotes : Nat) : List Char → List Char
  | [] => []
  | '"' :: rest =>
    if quotes < 2 then '"' :: escapeLong (quotes + 1) rest else '\\' :: '"' :: escapeLong 0 rest
  | '\n' :: rest => '\n' :: escapeLong 0 rest
  | c :: rest => escapedChar c ++ escapeLong 0 rest

/-- The ways to spell a text. -/
inductive Spelling where
  /-- Between double quotes, with escapes. -/
  | basic
  /-- Between single quotes. -/
  | literal
  /-- Between tripled double quotes, with escapes. -/
  | longBasic
  /-- Between tripled single quotes. -/
  | longLiteral
deriving DecidableEq

namespace Spelling

/-- The way that is chosen for a text. -/
def choose (s : List Char) : Spelling :=
  let controls := s.any needsEscape
  let backslash := s.contains '\\'
  let newline := s.contains '\n'
  let doubles := longestRun '"' s
  let singles := longestRun '\'' s
  if !controls && !backslash && doubles = 0 && !newline then basic
  else if !controls && singles = 0 && !newline then literal
  else if !controls && !backslash && doubles ≤ 2 then longBasic
  else if !controls && singles ≤ 2 then longLiteral
  else if newline then longBasic
  else basic

/-- A text in one of the ways. A text with line breaks begins on a line of its own. -/
def write (s : List Char) : Spelling → List Char
  | basic => '"' :: escapeShort s ++ ['"']
  | literal => '\'' :: s ++ ['\'']
  | longBasic =>
    ['"', '"', '"'] ++ (if s.contains '\n' then ['\n'] else []) ++ escapeLong 0 s ++
      ['"', '"', '"']
  | longLiteral =>
    ['\'', '\'', '\''] ++ (if s.contains '\n' then ['\n'] else []) ++ s ++ ['\'', '\'', '\'']

end Spelling

/-- The spelling of a text. -/
def spell (s : String) : List Char :=
  (Spelling.choose s.toList).write s.toList

end LazyTree.Toml
