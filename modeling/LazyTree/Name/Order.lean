import LazyTree.Name.Lowercase

set_option autoImplicit false

/-!
# The order of names

A tree orders and matches the names of its files by one of two policies, fixed for the whole
tree. Both compare names through a key: the characters of the name itself, or the concatenated
lowercase expansions of its characters. Two names that share a key name the same file.

## Main definitions

* `LazyTree.CasePolicy` — whether case distinguishes names.
* `LazyTree.CasePolicy.key` — what a policy compares a name by.
* `LazyTree.CasePolicy.compare` — the order of two names under a policy.
* `LazyTree.CasePolicy.same` — whether two names name the same file.
* `LazyTree.isFileName` — whether a text can name a single file at all.

## Main results

* `LazyTree.CasePolicy.compare_eq_iff` — names compare equal exactly when they share a key.
* `LazyTree.CasePolicy.same_iff` — the Boolean test decides that.
-/

namespace LazyTree

/-- How a tree orders and matches names. -/
inductive CasePolicy where
  /-- `Foo` and `foo` are different names. -/
  | sensitive
  /-- `Foo` and `foo` name the same file. -/
  | insensitive
deriving DecidableEq, Inhabited

namespace CasePolicy

/-- The characters that a policy compares a name by, by code point from the front. -/
def key : CasePolicy → String → List Char
  | sensitive, name => name.toList
  | insensitive, name => name.toList.flatMap lowercase

/-- The order of `a` relative to `b`: that of their keys, character by character. -/
def compare (policy : CasePolicy) (a b : String) : Ordering :=
  Ord.compare (policy.key a) (policy.key b)

/-- Whether two names name the same file. -/
def same (policy : CasePolicy) (a b : String) : Bool :=
  policy.compare a b == .eq

/-- Whether the policy tells names apart by case. -/
def isSensitive : CasePolicy → Bool
  | sensitive => true
  | insensitive => false

/-- The word for a policy in settings and protocols. -/
def word : CasePolicy → String
  | sensitive => "sensitive"
  | insensitive => "insensitive"

/-- The word for a policy in descriptions of objects. -/
def label : CasePolicy → String
  | sensitive => "Sensitive"
  | insensitive => "Insensitive"

/-- The policy with the given word. -/
def ofWord? : String → Option CasePolicy
  | "sensitive" => some sensitive
  | "insensitive" => some insensitive
  | _ => none

/-- Names compare equal exactly when they share a key. -/
theorem compare_eq_iff {policy : CasePolicy} {a b : String} :
    policy.compare a b = .eq ↔ policy.key a = policy.key b :=
  Std.LawfulEqOrd.compare_eq_iff_eq

/-- The Boolean test for equal names decides equality of keys. -/
theorem same_iff {policy : CasePolicy} {a b : String} :
    policy.same a b = true ↔ policy.key a = policy.key b := by
  simp [same, compare_eq_iff]

end CasePolicy

/-- Whether a text can name a single file: it is not empty, holds no separator and no NUL, and
is not one of the two markers for a relative path. -/
def isFileName (name : String) : Bool :=
  !name.isEmpty && name != "." && name != ".." && !name.toList.any (fun c => c == '/' || c == '\x00')

end LazyTree
