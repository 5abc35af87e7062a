import Mathlib.Data.Char
import Mathlib.Tactic.SplitIfs
import LazyTree.Proofs.NameOrder

set_option autoImplicit false

/-!
# Names compared while they are read

The order of names is defined through their keys, but no key has to be written down to compare two
names. With case folded, both names are read at the same time, one letter of each after the other,
and only the expansion of the character that was reached last is kept; expansions that differ in
length make the two readings fall out of step. Where case counts, the bytes of the names are
compared. Both ways lead to the order of the keys, whatever the expansions of the characters are.

## Main definitions

* `LazyTree.LetterStream` — a text while it is read letter by letter.
* `LazyTree.LetterStream.race` — two texts compared while they are read.
* `LazyTree.utf8` — the bytes of a text.
* `LazyTree.CasePolicy.compareBy` — the order of two names as it is found by reading them.

## Main results

* `LazyTree.LetterStream.race_eq` — texts compare while they are read as their letters do.
* `LazyTree.compare_utf8` — texts are in the same order by bytes and by code points.
* `LazyTree.CasePolicy.compareBy_eq` — reading two names compares their keys.
-/

namespace LazyTree

/-! ### Reading a text through its expansions -/

/-- A text while it is read, letter by letter of the expansions of its characters. -/
structure LetterStream where
  /-- The letters that are left of the expansion of the character reached last. -/
  pending : List Char
  /-- The characters behind that one. -/
  rest : List Char

namespace LetterStream

variable (expand : Char → List Char)

/-- A text of which nothing has been read. -/
def ofText (text : String) : LetterStream :=
  ⟨[], text.toList⟩

/-- All letters that are still to come. -/
def letters (s : LetterStream) : List Char :=
  s.pending ++ s.rest.flatMap expand

/-- Goes on to the next character that has an expansion, and reads its first letter. -/
def advance : List Char → Option (Char × LetterStream)
  | [] => none
  | c :: rest =>
    match expand c with
    | [] => advance rest
    | letter :: pending => some (letter, ⟨pending, rest⟩)

/-- Reads a letter, and says what is left. -/
def next? (s : LetterStream) : Option (Char × LetterStream) :=
  match s.pending with
  | [] => advance expand s.rest
  | letter :: pending => some (letter, ⟨pending, s.rest⟩)

variable {expand} {s s' : LetterStream} {letter : Char}

/-- If no character has an expansion, no letters are to come. -/
theorem flatMap_of_advance_eq_none {rest : List Char} (h : advance expand rest = none) :
    rest.flatMap expand = [] := by
  fun_induction advance expand rest with
  | case1 => rfl
  | case2 c rest hc ih => rw [List.flatMap_cons, hc, ih h, List.append_nil]
  | case3 c rest letter pending hc => cases h

/-- The letter of the next character that has an expansion is the first to come. -/
theorem flatMap_of_advance_eq_some {rest : List Char}
    (h : advance expand rest = some (letter, s)) :
    rest.flatMap expand = letter :: s.letters expand := by
  fun_induction advance expand rest with
  | case1 => cases h
  | case2 c rest hc ih => rw [List.flatMap_cons, hc, ih h, List.nil_append]
  | case3 c rest letter pending hc =>
    cases h
    rw [List.flatMap_cons, hc]
    rfl

/-- A text is read to its end when no letters are to come. -/
theorem letters_of_next?_eq_none (h : s.next? expand = none) : s.letters expand = [] := by
  unfold next? at h
  split at h
  · next hpending => rw [letters, hpending, flatMap_of_advance_eq_none h, List.append_nil]
  · cases h

/-- The letter that is read is the first of those to come. -/
theorem letters_of_next?_eq_some (h : s.next? expand = some (letter, s')) :
    s.letters expand = letter :: s'.letters expand := by
  unfold next? at h
  split at h
  · next hpending => rw [letters, hpending, flatMap_of_advance_eq_some h, List.nil_append]
  · next hpending =>
    cases h
    rw [letters, hpending]
    rfl

variable (expand)

/-- Reads two texts at the same time, until they differ in a letter or one of them ends. -/
def race (a b : LetterStream) : Ordering :=
  match _ha : a.next? expand with
  | none =>
    match b.next? expand with
    | none => .eq
    | some _ => .lt
  | some (x, a') =>
    match b.next? expand with
    | none => .gt
    | some (y, b') =>
      match Ord.compare x y with
      | .eq => race a' b'
      | outcome => outcome
termination_by (a.letters expand).length
decreasing_by
  rw [letters_of_next?_eq_some _ha]
  exact Nat.lt_succ_self _

/-- Two texts compare while they are read as the lists of their letters do.

**Proof sketch.** Induction along the reading. What is left in the two streams need not be in step:
one may be inside of an expansion while the other is at its end. But each step takes the first
letter off both lists, and that is all a comparison of lists looks at. -/
theorem race_eq (a b : LetterStream) :
    race expand a b = Ord.compare (a.letters expand) (b.letters expand) := by
  fun_induction race expand a b with
  | case1 a b ha hb =>
    rw [letters_of_next?_eq_none ha, letters_of_next?_eq_none hb]
    rfl
  | case2 a b ha next hb =>
    obtain ⟨y, b'⟩ := next
    rw [letters_of_next?_eq_none ha, letters_of_next?_eq_some hb, List.compare_nil_cons]
  | case3 a b x a' ha hb =>
    rw [letters_of_next?_eq_some ha, letters_of_next?_eq_none hb, List.compare_cons_nil]
  | case4 a b x a' ha y b' hb hxy ih =>
    rw [letters_of_next?_eq_some ha, letters_of_next?_eq_some hb, List.compare_cons_cons, hxy, ih]
    rfl
  | case5 a b x a' ha y b' hb hxy =>
    rw [letters_of_next?_eq_some ha, letters_of_next?_eq_some hb, List.compare_cons_cons]
    cases hc : Ord.compare x y with
    | lt => rfl
    | eq => exact absurd hc hxy
    | gt => rfl

end LetterStream

/-! ### The bytes of a text -/

/-- The bytes of a text, in UTF-8. -/
def utf8 (text : String) : List UInt8 :=
  text.toByteArray.data.toList

/-- The bytes of a text are those of its characters. -/
theorem utf8_eq_flatMap (text : String) :
    utf8 text = text.toList.flatMap String.utf8EncodeChar := by
  rw [utf8, ← String.utf8Encode_toList, List.utf8Encode, List.data_toByteArray]

/-- A common beginning does not matter for the order. -/
theorem compare_append_left {α : Type} [Ord α] [Std.ReflOrd α] (front xs ys : List α) :
    Ord.compare (front ++ xs) (front ++ ys) = Ord.compare xs ys := by
  induction front with
  | nil => rfl
  | cons x front ih =>
    rw [List.cons_append, List.cons_append, List.compare_cons_cons, Std.ReflOrd.compare_self, ih]
    rfl

/-- Bytes compare as the numbers that they hold. -/
theorem compare_ofNat_cons_lt_iff {m n : Nat} (hm : m < 256) (hn : n < 256) (xs ys : List UInt8) :
    Ord.compare (UInt8.ofNat m :: xs) (UInt8.ofNat n :: ys) = .lt ↔
      m < n ∨ m = n ∧ Ord.compare xs ys = .lt := by
  rw [List.compare_cons_cons, Ordering.then_eq_lt, Std.compare_eq_lt,
    Std.LawfulEqOrd.compare_eq_iff_eq, UInt8.lt_iff_toNat_lt, ← UInt8.toNat_inj,
    UInt8.toNat_ofNat_of_lt' hm, UInt8.toNat_ofNat_of_lt' hn]

/-- The order of two characters is that of their bytes, whatever follows them.

**Proof sketch.** The first byte tells how many there are, and is larger if there are more. Bytes
of the same number of them are digits of the code points, from the highest on. -/
theorem compare_utf8EncodeChar {c d : Char} (h : c < d) (xs ys : List UInt8) :
    Ord.compare (String.utf8EncodeChar c ++ xs) (String.utf8EncodeChar d ++ ys) = .lt := by
  have hlt : c.val.toNat < d.val.toNat := h
  have hd : d.val.toNat < 0x110000 := by
    have hvalid := d.valid
    unfold UInt32.isValidChar Nat.isValidChar at hvalid
    omega
  unfold String.utf8EncodeChar
  generalize c.val.toNat = v at *
  generalize d.val.toNat = w at *
  dsimp only
  split_ifs
  all_goals
    -- the remainders in the first bytes change nothing: code points are not that large
    simp (disch := omega) only [List.cons_append, List.nil_append, compare_ofNat_cons_lt_iff,
      Nat.mod_eq_of_lt]
    omega

/-- Texts are in the same order by bytes and by code points. -/
theorem compare_utf8 (a b : String) :
    Ord.compare (utf8 a) (utf8 b) = Ord.compare a.toList b.toList := by
  rw [utf8_eq_flatMap, utf8_eq_flatMap]
  generalize a.toList = as
  generalize b.toList = bs
  induction as generalizing bs with
  | nil =>
    cases bs with
    | nil => rfl
    | cons d bs =>
      obtain ⟨byte, bytes, hd⟩ := List.exists_cons_of_ne_nil (@String.utf8EncodeChar_ne_nil d)
      rw [List.flatMap_cons, hd]
      rfl
  | cons c as ih =>
    cases bs with
    | nil =>
      obtain ⟨byte, bytes, hc⟩ := List.exists_cons_of_ne_nil (@String.utf8EncodeChar_ne_nil c)
      rw [List.flatMap_cons, hc]
      rfl
    | cons d bs =>
      rw [List.flatMap_cons, List.flatMap_cons, List.compare_cons_cons]
      rcases lt_trichotomy c d with hcd | rfl | hdc
      · rw [compare_utf8EncodeChar hcd, compare_lt_iff_lt.mpr hcd]
        rfl
      · rw [compare_append_left, ih, Std.ReflOrd.compare_self]
        rfl
      · rw [Std.OrientedOrd.eq_swap, compare_utf8EncodeChar hdc, compare_gt_iff_gt.mpr hdc]
        rfl

/-! ### The order of names by reading -/

namespace CasePolicy

variable (expand : Char → List Char)

/-- What a policy compares a name by, if `expand` says what the characters expand to. -/
def keyBy : CasePolicy → String → List Char
  | sensitive, name => name.toList
  | insensitive, name => name.toList.flatMap expand

/-- The order of two names as it is found by reading them: by their bytes, or letter by letter of
the expansions of their characters. -/
def compareBy : CasePolicy → String → String → Ordering
  | sensitive, a, b => Ord.compare (utf8 a) (utf8 b)
  | insensitive, a, b => LetterStream.race expand (.ofText a) (.ofText b)

/-- Reading two names compares their keys. -/
theorem compareBy_eq (policy : CasePolicy) (a b : String) :
    policy.compareBy expand a b = Ord.compare (policy.keyBy expand a) (policy.keyBy expand b) := by
  cases policy with
  | sensitive => exact compare_utf8 a b
  | insensitive => exact LetterStream.race_eq expand _ _

/-- The keys of a policy are those for the lowercase expansions. -/
theorem keyBy_lowercase (policy : CasePolicy) (name : String) :
    policy.keyBy lowercase name = policy.key name := by
  cases policy <;> rfl

/-- Two names compare as they do by reading their lowercase expansions. -/
theorem compareBy_lowercase (policy : CasePolicy) (a b : String) :
    policy.compareBy lowercase a b = policy.compare a b := by
  rw [compareBy_eq, keyBy_lowercase, keyBy_lowercase, compare]

end CasePolicy

end LazyTree
