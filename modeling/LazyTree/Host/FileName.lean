set_option autoImplicit false

/-!
# Names of files on a host

A host names files by bytes. Most names are texts in UTF-8; those that are not can be shown but
not spelled.

## Main definitions

* `LazyTree.FileName` — a name.
* `LazyTree.FileName.ofBytes` — the name with some bytes.
* `LazyTree.FileName.text?` — the text of a name.
* `LazyTree.FileName.shown` — a name as messages show it.
-/

namespace LazyTree

/-- A name of a file on a host. -/
inductive FileName where
  /-- A name that is a text. -/
  | text (s : String)
  /-- A name whose bytes are no text in UTF-8. -/
  | raw (bytes : List UInt8) (notText : String.fromUTF8? ⟨bytes.toArray⟩ = none)
deriving DecidableEq

namespace FileName

/-- The name with some bytes. -/
def ofBytes (bytes : List UInt8) : FileName :=
  match h : String.fromUTF8? ⟨bytes.toArray⟩ with
  | some s => text s
  | none => raw bytes h

/-- The text of a name, if it is one. -/
def text? : FileName → Option String
  | text s => some s
  | raw _ _ => none

/-- The number of bytes of a name. -/
def size : FileName → Nat
  | text s => s.utf8ByteSize
  | raw bytes _ => bytes.length

/-- Whether a name holds the byte zero, which no host accepts. -/
def hasNul : FileName → Bool
  | text s => s.toList.contains '\x00'
  | raw bytes _ => bytes.contains 0

/-! ### Showing names that are no texts -/

/-- The number of bytes that follow a leading byte, and the bounds of the first of them. -/
def following? (lead : UInt8) : Option (Nat × UInt8 × UInt8) :=
  if 0xC2 ≤ lead && lead ≤ 0xDF then some (1, 0x80, 0xBF)
  else if lead = 0xE0 then some (2, 0xA0, 0xBF)
  else if lead = 0xED then some (2, 0x80, 0x9F)
  else if 0xE1 ≤ lead && lead ≤ 0xEF then some (2, 0x80, 0xBF)
  else if lead = 0xF0 then some (3, 0x90, 0xBF)
  else if 0xF1 ≤ lead && lead ≤ 0xF3 then some (3, 0x80, 0xBF)
  else if lead = 0xF4 then some (3, 0x80, 0x8F)
  else none

/-- The character that stands for bytes that belong to no character. -/
def replacement : Char := '\uFFFD'

/-- Reads bytes as characters. A longest run of bytes that begins a character but does not finish
it becomes one replacement, and so does a byte that begins none. `pending` is the character that
has been begun: its value so far, how many bytes it lacks, and the bounds of the next one. -/
def decode (pending : Option (Nat × Nat × UInt8 × UInt8)) : List UInt8 → List Char
  | [] => if pending.isSome then [replacement] else []
  | b :: rest =>
    let start (pre : List Char) : List Char :=
      if b < 0x80 then pre ++ Char.ofNat b.toNat :: decode none rest
      else match following? b with
        | some (n, low, high) =>
          pre ++ decode (some (b.toNat % 2 ^ (6 - n), n, low, high)) rest
        | none => pre ++ replacement :: decode none rest
    match pending with
    | none => start []
    | some (value, lacking, low, high) =>
      if low ≤ b && b ≤ high then
        let value := value * 64 + b.toNat % 64
        if lacking ≤ 1 then Char.ofNat value :: decode none rest
        else decode (some (value, lacking - 1, 0x80, 0xBF)) rest
      else start [replacement]

/-- A name as messages show it. -/
def shown : FileName → String
  | text s => s
  | raw bytes _ => String.ofList (decode none bytes)

end FileName

end LazyTree
