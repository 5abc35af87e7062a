import LazyTree.Toml.Scalar

set_option autoImplicit false

/-!
# Quoted texts

The four ways to write a text in a document: between double quotes with escapes or between single
quotes as it is, each on one line or between tripled quotes on several lines.

## Main definitions

* `LazyTree.Toml.basicBody` — a text between double quotes.
* `LazyTree.Toml.literalBody` — a text between single quotes.
* `LazyTree.Toml.longBasicBody` — a text between tripled double quotes.
* `LazyTree.Toml.longLiteralBody` — a text between tripled single quotes.
* `LazyTree.Toml.readText` — a text in any of the four ways.
-/

namespace LazyTree.Toml

/-- What is read from the front of a list of characters, and what is left. -/
abbrev Read (α : Type) := Option (α × List Char)

/-- Whether a character may stand in a document as it is: no control character but the tab. -/
def isVisible (c : Char) : Bool :=
  c == '\t' || (0x20 ≤ c.toNat && c.toNat ≠ 0x7F)

/-- The character that a letter behind a backslash stands for. -/
def escaped? : Char → Option Char
  | 'b' => some '\x08'
  | 't' => some '\t'
  | 'n' => some '\n'
  | 'f' => some '\x0c'
  | 'r' => some '\r'
  | '"' => some '"'
  | '\\' => some '\\'
  | _ => none

/-- The character with the given hexadecimal digits. -/
def ofHex? (digits : List Char) : Option Char := do
  let code := ofDigits 16 (← digits.mapM digitValue?)
  if code.isValidChar then some (Char.ofNat code) else none

/-- Puts a character in front of what is read. -/
def put (c : Char) : Read (List Char) → Read (List Char)
  | some (text, rest) => some (c :: text, rest)
  | none => none

/-- A text up to the double quote that ends it, and what is behind that quote. -/
def basicBody : List Char → Read (List Char)
  | [] => none
  | '"' :: rest => some ([], rest)
  | '\\' :: 'u' :: a :: b :: c :: d :: rest =>
    match ofHex? [a, b, c, d] with
    | some ch => put ch (basicBody rest)
    | none => none
  | '\\' :: 'U' :: a :: b :: c :: d :: e :: f :: g :: h :: rest =>
    match ofHex? [a, b, c, d, e, f, g, h] with
    | some ch => put ch (basicBody rest)
    | none => none
  | '\\' :: c :: rest =>
    match escaped? c with
    | some ch => put ch (basicBody rest)
    | none => none
  | c :: rest => if isVisible c && c != '\\' then put c (basicBody rest) else none

/-- A text up to the single quote that ends it, and what is behind that quote. -/
def literalBody : List Char → Read (List Char)
  | [] => none
  | '\'' :: rest => some ([], rest)
  | c :: rest => if isVisible c then put c (literalBody rest) else none

/-- What is left of a line break in front of a list of characters. -/
def afterNewline? : List Char → Option (List Char)
  | '\n' :: rest => some rest
  | '\r' :: '\n' :: rest => some rest
  | _ => none

/-- Whether a character is a blank within a line. -/
def isBlank (c : Char) : Bool :=
  c == ' ' || c == '\t'

/-- The end of a text between tripled quotes: up to two more quotes belong to the text. -/
def closing (quote : Char) : List Char → List Char × List Char
  | a :: b :: rest =>
    if a = quote then if b = quote then ([quote, quote], rest) else ([quote], b :: rest)
    else ([], a :: b :: rest)
  | [a] => if a = quote then ([quote], []) else ([], [a])
  | [] => ([], [])

/-- A text up to the tripled double quotes that end it, and what is behind them. A backslash at
the end of a line takes away the line break and all blanks and line breaks behind it; `skipping`
says that such blanks are being read. -/
def longBasicBody (skipping : Bool) : List Char → Read (List Char)
  | [] => none
  | '"' :: '"' :: '"' :: rest => some (closing '"' rest)
  | '\r' :: '\n' :: rest =>
    if skipping then longBasicBody true rest else put '\n' (longBasicBody false rest)
  | '\\' :: 'u' :: a :: b :: c :: d :: rest =>
    match ofHex? [a, b, c, d] with
    | some ch => put ch (longBasicBody false rest)
    | none => none
  | '\\' :: 'U' :: a :: b :: c :: d :: e :: f :: g :: h :: rest =>
    match ofHex? [a, b, c, d, e, f, g, h] with
    | some ch => put ch (longBasicBody false rest)
    | none => none
  | '\\' :: c :: rest =>
    match escaped? c with
    | some ch => put ch (longBasicBody false rest)
    | none =>
      if (afterNewline? ((c :: rest).dropWhile isBlank)).isSome then
        if c = '\r' then
          match rest with
          | _ :: rest => longBasicBody true rest
          | [] => none
        else longBasicBody true rest
      else none
  | c :: rest =>
    if skipping && (isBlank c || c == '\n') then longBasicBody true rest
    else if (isVisible c && c != '\\') || c == '\n' then put c (longBasicBody false rest)
    else none

/-- A text up to the tripled single quotes that end it, and what is behind them. -/
def longLiteralBody : List Char → Read (List Char)
  | [] => none
  | '\'' :: '\'' :: '\'' :: rest => some (closing '\'' rest)
  | '\r' :: '\n' :: rest => put '\n' (longLiteralBody rest)
  | c :: rest =>
    if isVisible c || c == '\n' then put c (longLiteralBody rest) else none

/-- A text on one line, and what is behind it. -/
def readShortText : List Char → Read String
  | '"' :: rest => (basicBody rest).map fun (s, rest) => (String.ofList s, rest)
  | '\'' :: rest => (literalBody rest).map fun (s, rest) => (String.ofList s, rest)
  | _ => none

/-- A text, and what is behind it. A line break directly behind tripled quotes is no part of the
text. -/
def readText : List Char → Read String
  | '"' :: '"' :: '"' :: rest =>
    (longBasicBody false ((afterNewline? rest).getD rest)).map
      fun (s, rest) => (String.ofList s, rest)
  | '\'' :: '\'' :: '\'' :: rest =>
    (longLiteralBody ((afterNewline? rest).getD rest)).map
      fun (s, rest) => (String.ofList s, rest)
  | s => readShortText s

end LazyTree.Toml
