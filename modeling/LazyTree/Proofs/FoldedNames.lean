import Mathlib
import LazyTree.Proofs.NameOrder

set_option autoImplicit false

/-!
# Names that files can have, and case

Case folding changes letters only. A separator, a NUL and a dot are the expansions of themselves and
of no other character, so whether a text can be the name of a file can be read off its key: names
that are the same under a policy are such names together, or none of them is.

## Main definitions

* `LazyTree.LetterRun.Lands` — the lowercase letters of a run are no plain characters.

## Main results

* `LazyTree.mem_lowercase_iff` — a plain character is in no other expansion than its own.
* `LazyTree.CasePolicy.isFileName_congr` — whether a file can have a name depends on its key.
-/

namespace LazyTree

/-! ### Plain characters -/

/-- The lowercase letters of a run are characters, and lie behind all plain ones. -/
def LetterRun.Lands (r : LetterRun) : Prop :=
  65 ≤ r.first + r.shift ∧
    (r.last + r.shift < 0xD800 ∨ 0xDFFF < r.first + r.shift ∧ r.last + r.shift < 0x110000)

instance (r : LetterRun) : Decidable r.Lands :=
  inferInstanceAs (Decidable (_ ∧ _))

/-- All runs of capitals lead to letters behind all plain characters. -/
theorem lands_letterRuns : ∀ r ∈ letterRuns, r.Lands := by
  decide +kernel

/-- The lowercase letter of a capital of a run is no plain character. -/
theorem LetterRun.Lands.le_toNat {r : LetterRun} (h : r.Lands) {code : Nat}
    (hcode : r.holds code = true) : 65 ≤ (Char.ofNat (code + r.shift).toNat).toNat := by
  obtain ⟨hlow, hhigh⟩ := h
  simp only [holds, Bool.and_eq_true, decide_eq_true_eq] at hcode
  have hvalid : (code + r.shift).toNat.isValidChar := by
    unfold Nat.isValidChar
    omega
  have hletter : (Char.ofNat (code + r.shift).toNat).toNat = (code + r.shift).toNat := by
    rw [Char.ofNat, dif_pos hvalid]
    rfl
  omega

/-- A plain character is in the expansion of itself, and of no other character. -/
theorem mem_lowercase_iff {p c : Char} (hp : p.toNat < 65) : p ∈ lowercase c ↔ c = p := by
  unfold lowercase
  split
  · rw [List.mem_singleton, Char.toLower]
    split
    · next hcapital =>
      -- a capital is not plain, and neither is its lowercase letter
      obtain ⟨hlow, hhigh⟩ := hcapital
      rw [ge_iff_le, UInt32.le_iff_toNat_le] at hlow
      rw [UInt32.le_iff_toNat_le] at hhigh
      have hsum : (c.val + ('a'.val - 'A'.val)).toNat = c.val.toNat + 32 := by
        rw [UInt32.toNat_add, Nat.mod_eq_of_lt]
        · rfl
        · exact Nat.lt_of_le_of_lt (Nat.add_le_add_right hhigh _) (by decide)
      refine iff_of_false ?_ ?_
      · rintro rfl
        have hlarge : 65 ≤ c.val.toNat := hlow
        have hsmall : c.val.toNat + 32 < 65 := hsum ▸ hp
        omega
      · rintro rfl
        have hlarge : 65 ≤ c.val.toNat := hlow
        have hsmall : c.val.toNat < 65 := hp
        omega
    · exact eq_comm
  · next hascii =>
    have hne : c ≠ p := by
      rintro rfl
      omega
    refine iff_of_false (fun hmem => ?_) hne
    split at hmem
    · have h : p = 'i' ∨ p = '\u0307' := by simpa using hmem
      rcases h with rfl | rfl <;> revert hp <;> decide
    · split at hmem
      · next r hr =>
        have hholds := List.find?_some hr
        have hlands := lands_letterRuns r (List.mem_of_find?_eq_some hr)
        have hle := hlands.le_toNat hholds
        rw [← List.mem_singleton.mp hmem] at hle
        omega
      · exact hne (List.mem_singleton.mp hmem).symm

namespace CasePolicy

variable {policy : CasePolicy} {p : Char} {name a b : String}

/-- A plain character is in the key of a name exactly if it is in the name. -/
theorem mem_key_iff (hp : p.toNat < 65) : p ∈ policy.key name ↔ p ∈ name.toList := by
  cases policy with
  | sensitive => rfl
  | insensitive =>
    have hchars : ∀ c ∈ name.toList, p ∈ lowercase c ↔ c = p := fun c _ => mem_lowercase_iff hp
    simp only [key, List.mem_flatMap]
    constructor
    · rintro ⟨c, hc, hmem⟩
      rwa [← (hchars c hc).mp hmem]
    · exact fun hmem => ⟨p, hmem, (hchars p hmem).mpr rfl⟩

/-- Only a number of plain characters expands to that number of them. -/
theorem flatMap_lowercase_eq_replicate_iff (hp : p.toNat < 65) (hself : lowercase p = [p])
    (chars : List Char) (n : Nat) :
    chars.flatMap lowercase = List.replicate n p ↔ chars = List.replicate n p := by
  constructor
  · intro h
    have hall : ∀ c ∈ chars, c = p := by
      intro c hc
      obtain ⟨d, hd⟩ := List.exists_mem_of_ne_nil _ (lowercase_ne_nil c)
      have hmem : d ∈ chars.flatMap lowercase := List.mem_flatMap.mpr ⟨c, hc, hd⟩
      rw [h] at hmem
      rw [List.eq_of_mem_replicate hmem] at hd
      exact (mem_lowercase_iff hp).mp hd
    obtain ⟨m, rfl⟩ : ∃ m, chars = List.replicate m p := ⟨_, List.eq_replicate_of_mem hall⟩
    rw [List.flatMap_replicate, hself] at h
    simpa using h
  · rintro rfl
    simp [List.flatMap_replicate, hself]

/-- A name is a number of dots exactly if its key is that. -/
theorem key_eq_dots_iff (n : Nat) :
    policy.key name = List.replicate n '.' ↔ name.toList = List.replicate n '.' := by
  cases policy with
  | sensitive => rfl
  | insensitive => exact flatMap_lowercase_eq_replicate_iff (by decide) (by decide) name.toList n

/-- Whether a file can have a name depends on the key of the name alone. -/
theorem isFileName_iff_key (policy : CasePolicy) (name : String) : isFileName name = true ↔
    (∀ n ≤ 2, policy.key name ≠ List.replicate n '.') ∧ '/' ∉ policy.key name ∧
      '\x00' ∉ policy.key name := by
  have hdots : (∀ n ≤ 2, policy.key name ≠ List.replicate n '.') ↔
      name ≠ "" ∧ name ≠ "." ∧ name ≠ ".." := by
    simp only [ne_eq, key_eq_dots_iff, ← String.toList_inj]
    constructor
    · exact fun h => ⟨h 0 (by decide), h 1 (by decide), h 2 (by decide)⟩
    · rintro ⟨h₀, h₁, h₂⟩ n hn
      match n with
      | 0 => exact h₀
      | 1 => exact h₁
      | 2 => exact h₂
  have hplain : (∀ c ∈ name.toList, ¬ c = '/' ∧ ¬ c = '\x00') ↔
      '/' ∉ name.toList ∧ '\x00' ∉ name.toList := by
    constructor
    · exact fun h => ⟨fun hc => (h _ hc).1 rfl, fun hc => (h _ hc).2 rfl⟩
    · rintro ⟨hslash, hnul⟩ c hc
      exact ⟨fun heq => hslash (heq ▸ hc), fun heq => hnul (heq ▸ hc)⟩
  rw [hdots, mem_key_iff (by decide), mem_key_iff (by decide), ← hplain]
  simp [isFileName, not_or, and_assoc]

/-- Names that are the same under a policy are both such that files can have them, or none is. -/
theorem isFileName_congr (h : policy.key a = policy.key b) : isFileName a = isFileName b := by
  rw [Bool.eq_iff_iff, isFileName_iff_key policy, h, ← isFileName_iff_key]

end CasePolicy

end LazyTree
