set_option autoImplicit false

/-!
# Identities of files

A file or directory has a 32-bit identity that whoever stores it has assigned. Zero is no
identity.

## Main definitions

* `LazyTree.FileId` — an identity.
* `LazyTree.FileId.ofRaw?` — the identity with a given number.
* `LazyTree.FileId.label` — how messages show an identity.
-/

namespace LazyTree

/-- The identity of a file or directory. -/
structure FileId where
  /-- The number behind the identity. -/
  raw : UInt32
  /-- Zero is no identity. -/
  raw_ne_zero : raw ≠ 0
deriving DecidableEq

namespace FileId

/-- One is a number of an identity. -/
theorem raw_one_ne_zero : (1 : UInt32) ≠ 0 := by
  decide

/-- So is two. -/
theorem raw_two_ne_zero : (2 : UInt32) ≠ 0 := by
  decide

/-- So is three. -/
theorem raw_three_ne_zero : (3 : UInt32) ≠ 0 := by
  decide

instance : Inhabited FileId := ⟨⟨1, raw_one_ne_zero⟩⟩

/-- The identity with a given number; there is none with number zero. -/
def ofRaw? (raw : UInt32) : Option FileId :=
  if h : raw = 0 then none else some ⟨raw, h⟩

/-- The number of an identity as a natural number. -/
def toNat (id : FileId) : Nat :=
  id.raw.toNat

/-- How messages show an identity. -/
def label (id : FileId) : String :=
  "#" ++ toString id.toNat

/-- How descriptions of objects show an identity. -/
def description (id : FileId) : String :=
  "FileId(" ++ toString id.toNat ++ ")"

/-- Reading back the number of an identity gives the identity. -/
theorem ofRaw?_raw (id : FileId) : ofRaw? id.raw = some id := by
  simp [ofRaw?, id.raw_ne_zero]

/-- A number is refused exactly when it is zero. -/
theorem ofRaw?_eq_none_iff {raw : UInt32} : ofRaw? raw = none ↔ raw = 0 := by
  unfold ofRaw?
  split <;> simp_all

end FileId

end LazyTree
