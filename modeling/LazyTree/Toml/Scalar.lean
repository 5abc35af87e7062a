import LazyTree.Toml.Value

set_option autoImplicit false

/-!
# Unquoted scalars

Numbers, dates and times. Each is recognised as a whole: the characters up to the next one that
cannot be part of any of them.

## Main definitions

* `LazyTree.Toml.integer?` — integers in four bases, of 64 bits.
* `LazyTree.Toml.isFloat` — numbers with a fraction or an exponent.
* `LazyTree.Toml.isDateTime` — dates, times, and both, with or without an offset.
* `LazyTree.Toml.scalar?` — the value of a word.
-/

namespace LazyTree.Toml

/-- Whether a character is a decimal digit. -/
def isDigit (c : Char) : Bool :=
  '0' ≤ c && c ≤ '9'

/-- The value of a digit in the bases up to sixteen. -/
def digitValue? (c : Char) : Option Nat :=
  if isDigit c then some (c.toNat - '0'.toNat)
  else if 'a' ≤ c && c ≤ 'f' then some (c.toNat - 'a'.toNat + 10)
  else if 'A' ≤ c && c ≤ 'F' then some (c.toNat - 'A'.toNat + 10)
  else none

/-- The digits of a number in a base, where single underscores may stand between digits. -/
def digits? (base : Nat) : List Char → Option (List Nat)
  | [] => none
  | [c] => (digitValue? c).bind fun d => if d < base then some [d] else none
  | c :: '_' :: rest => do
    let d ← digitValue? c
    if d < base then return d :: (← digits? base rest) else none
  | c :: rest => do
    let d ← digitValue? c
    if d < base then return d :: (← digits? base rest) else none

/-- The number with the given digits. -/
def ofDigits (base : Nat) (digits : List Nat) : Nat :=
  digits.foldl (fun n d => n * base + d) 0

/-- A number that fits 64 bits with a sign. -/
def fits (n : Int) : Option Int :=
  if -Int.pow 2 63 ≤ n ∧ n < Int.pow 2 63 then some n else none

/-- The sign of a number, and what stands behind it. -/
def splitSign : List Char → Bool × List Char
  | '-' :: rest => (true, rest)
  | '+' :: rest => (false, rest)
  | s => (false, s)

/-- The digits of a decimal number without a superfluous zero in front. -/
def plainDigits? (s : List Char) : Option (List Nat) :=
  match s with
  | '0' :: _ :: _ => none
  | s => digits? 10 s

/-- An integer. -/
def integer? (s : List Char) : Option Int :=
  match s with
  | '0' :: 'x' :: rest => (digits? 16 rest).bind fun ds => fits (ofDigits 16 ds)
  | '0' :: 'o' :: rest => (digits? 8 rest).bind fun ds => fits (ofDigits 8 ds)
  | '0' :: 'b' :: rest => (digits? 2 rest).bind fun ds => fits (ofDigits 2 ds)
  | s =>
    let (negative, rest) := splitSign s
    (plainDigits? rest).bind fun ds =>
      fits (if negative then -(ofDigits 10 ds : Int) else ofDigits 10 ds)

/-- Whether `mantissa · 10 ^ exponent` is too large for a double: nearer to the next power of two
than to any double. -/
def exceedsDouble (mantissa : Nat) (exponent : Int) : Bool :=
  let bound := Nat.pow 2 1024 - Nat.pow 2 970
  let places := (Nat.toDigits 10 mantissa).length + exponent
  if mantissa = 0 || places < 300 then false
  else if places > 320 then true
  else if 0 ≤ exponent then bound ≤ mantissa * Nat.pow 10 exponent.toNat
  else bound * Nat.pow 10 (-exponent).toNat ≤ mantissa

/-- The part of a list in front of the first element with a property, and the part from there
on. -/
def splitAtFirst (p : Char → Bool) (s : List Char) : List Char × List Char :=
  (s.takeWhile (!p ·), s.dropWhile (!p ·))

/-- Whether a word is a number with a fraction or an exponent. No number is too large, but one
below zero may be. -/
def isFloat (s : List Char) : Bool :=
  let (negative, s) := splitSign s
  if s = "inf".toList || s = "nan".toList then true
  else
    let (front, exponent) := splitAtFirst (fun c => c == 'e' || c == 'E') s
    let (whole, fraction) := splitAtFirst (· == '.') front
    if exponent.isEmpty && fraction.isEmpty then false
    else
      let parts := do
        let whole ← plainDigits? whole
        let fraction ← if fraction.isEmpty then some [] else digits? 10 (fraction.drop 1)
        let exponent ←
          if exponent.isEmpty then some (0 : Int)
          else
            let (below, digits) := splitSign (exponent.drop 1)
            (digits? 10 digits).map fun ds =>
              if below then -(ofDigits 10 ds : Int) else (ofDigits 10 ds : Int)
        return (ofDigits 10 (whole ++ fraction), exponent - fraction.length)
      match parts with
      | some (mantissa, exponent) => negative || !exceedsDouble mantissa exponent
      | none => false

/-! ### Dates and times -/

/-- The number of exactly two digits. -/
def twoDigits? : List Char → Option Nat
  | [a, b] => if isDigit a && isDigit b then some (ofDigits 10 ((a :: [b]).filterMap digitValue?))
    else none
  | _ => none

/-- The number of days of a month. -/
def daysOf (year month : Nat) : Nat :=
  if month = 2 then
    if year % 4 = 0 && (year % 100 ≠ 0 || year % 400 = 0) then 29 else 28
  else if [4, 6, 9, 11].contains month then 30
  else 31

/-- Whether a word is a date. -/
def isDate : List Char → Bool
  | [y1, y2, y3, y4, '-', m1, m2, '-', d1, d2] =>
    match twoDigits? [y1, y2], twoDigits? [y3, y4], twoDigits? [m1, m2], twoDigits? [d1, d2] with
    | some century, some year, some month, some day =>
      1 ≤ month && month ≤ 12 && 1 ≤ day && day ≤ daysOf (century * 100 + year) month
    | _, _, _, _ => false
  | _ => false

/-- Whether a word is a time of day, down to the second or parts of it. -/
def isTime : List Char → Bool
  | h1 :: h2 :: ':' :: m1 :: m2 :: ':' :: s1 :: s2 :: rest =>
    (match twoDigits? [h1, h2], twoDigits? [m1, m2], twoDigits? [s1, s2] with
      | some hour, some minute, some second => hour ≤ 23 && minute ≤ 59 && second ≤ 60
      | _, _, _ => false) &&
    (match rest with
      | [] => true
      | '.' :: fraction => !fraction.isEmpty && fraction.all isDigit
      | _ => false)
  | _ => false

/-- Whether a word is an offset from universal time. -/
def isOffset : List Char → Bool
  | [z] => z == 'Z' || z == 'z'
  | [sign, h1, h2, ':', m1, m2] =>
    (sign == '+' || sign == '-') &&
    (match twoDigits? [h1, h2], twoDigits? [m1, m2] with
      | some hour, some minute => hour ≤ 23 && minute ≤ 59
      | _, _ => false)
  | _ => false

/-- Whether a word is a time of day, with or without an offset. -/
def isTimeWithOffset (s : List Char) : Bool :=
  let (time, offset) := splitAtFirst (fun c => "Zz+-".toList.contains c) s
  isTime time && (offset.isEmpty || isOffset offset)

/-- Whether a word is a date, a time, or a date with a time. -/
def isDateTime (s : List Char) : Bool :=
  isTime s || isDate s ||
    (isDate (s.take 10) && isTimeWithOffset (s.drop 11) &&
      (s.drop 10).head?.any (fun c => "Tt ".toList.contains c))

/-- The value of a word that is no quoted text. -/
def scalar? (s : List Char) : Option Value :=
  if s = "true".toList then some (.boolean true)
  else if s = "false".toList then some (.boolean false)
  else if isDateTime s then some .dateTime
  else if isFloat s then some .float
  else (integer? s).map .integer

end LazyTree.Toml
