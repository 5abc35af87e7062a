set_option autoImplicit false

/-!
# Attributes of files

What a backend reports about a file besides its name and identity.

## Main definitions

* `LazyTree.Attributes` — the five attributes.
* `LazyTree.Attributes.ofBits`, `LazyTree.Attributes.toBits` — their packed form.
* `LazyTree.Attributes.description` — how descriptions of objects show them.
-/

namespace LazyTree

/-- The attributes of a file or directory. -/
structure Attributes where
  /-- It is a directory. -/
  directory : Bool := false
  /-- It is a symbolic link. -/
  symlink : Bool := false
  /-- It is neither a regular file nor a directory nor a link. -/
  special : Bool := false
  /-- It cannot be written. -/
  readOnly : Bool := false
  /-- It is hidden by convention. -/
  hidden : Bool := false
deriving DecidableEq, Inhabited

namespace Attributes

/-- The attributes of which a number holds the bits, from the lowest bit on in declaration
order. Bits without a meaning are dropped. -/
def ofBits (bits : Nat) : Attributes where
  directory := bits.testBit 0
  symlink := bits.testBit 1
  special := bits.testBit 2
  readOnly := bits.testBit 3
  hidden := bits.testBit 4

/-- The number that holds the bits of the attributes. -/
def toBits (a : Attributes) : Nat :=
  a.directory.toNat + 2 * a.symlink.toNat + 4 * a.special.toNat + 8 * a.readOnly.toNat +
    16 * a.hidden.toNat

/-- The words for the attributes that are set, in declaration order. -/
def words (a : Attributes) : List String :=
  (if a.directory then ["DIRECTORY"] else []) ++ (if a.symlink then ["SYMLINK"] else []) ++
    (if a.special then ["SPECIAL"] else []) ++ (if a.readOnly then ["READ_ONLY"] else []) ++
    (if a.hidden then ["HIDDEN"] else [])

/-- How descriptions of objects show attributes. -/
def description (a : Attributes) : String :=
  "FileAttributes(" ++
    (if a.words.isEmpty then "0x0" else String.intercalate " | " a.words) ++ ")"

/-- Packing attributes loses nothing. -/
theorem ofBits_toBits (a : Attributes) : ofBits a.toBits = a := by
  rcases a with ⟨_ | _, _ | _, _ | _, _ | _, _ | _⟩ <;> decide

end Attributes

end LazyTree
