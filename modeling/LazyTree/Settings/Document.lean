import LazyTree.Settings.File
import LazyTree.Toml.Document
import LazyTree.Toml.Spelling

set_option autoImplicit false

/-!
# The format of documents of settings

The program writes settings down in TOML: a document has a table for the tree and one for the
backend. What means nothing in it is ignored. A group of settings can also be given as an array of
its values in order. Nothing else knows of the format: it is one of those with which files of
settings can be read and written.

## Main definitions

* `LazyTree.Settings.ofTable?` — what the table of a document states.
* `LazyTree.Settings.document` — the document for settings.
* `LazyTree.DocumentFormat.toml` — the format.
* `LazyTree.Settings.loadOrDefault`, `LazyTree.Settings.save` — files of settings in this format.
-/

namespace LazyTree

open Toml (Value Entries)

namespace Settings

/-- The values of a group of settings, in the order of their keys: where they stand in a table, in
an array, or nowhere. A date counts as a table that holds none of the keys. -/
def fields? (keys : List String) : Value → Option (List (Option Value))
  | .table _ entries => some (keys.map (List.lookup · entries))
  | .array items => some ((List.range keys.length).map (items[·]?))
  | .elements tables =>
    some ((List.range keys.length).map ((tables.reverse.map (Value.table .header))[·]?))
  | .dateTime => some (keys.map fun _ => none)
  | _ => none

/-- Reads a value if there is one. -/
def optional {α : Type} (read : Value → Option α) : Option Value → Option (Option α)
  | none => some none
  | some v => (read v).map some

/-- A truth value. -/
def bool? : Value → Option Bool
  | .boolean b => some b
  | _ => none

/-- Whether a value is an empty group. -/
def isEmptyGroup : Value → Bool
  | .table _ entries => entries.isEmpty
  | .array items => items.isEmpty
  | _ => false

/-- A policy: the word for it, or a table that holds nothing but an empty group under that
word. -/
def policy? : Value → Option CasePolicy
  | .text word => CasePolicy.ofWord? word
  | .table _ [(word, group)] => if isEmptyGroup group then CasePolicy.ofWord? word else none
  | _ => none

/-- A text. -/
def text? : Value → Option String
  | .text s => some s
  | _ => none

/-- Texts. -/
def texts? : Value → Option (List String)
  | .array items => items.mapM text?
  | _ => none

/-- The keys of the settings about the tree. -/
def treeKeys : List String :=
  ["canonicalize-names", "cache-removed-names", "mark-new-files-dirty"]

/-- The keys of the settings about the backend. -/
def backendKeys : List String :=
  ["case-sensitivity", "allowed-roots"]

/-- What a value states about the tree. -/
def treeStatements? (v : Value) : Option TreeStatements := do
  match ← fields? treeKeys v with
  | [a, b, c] => return ⟨← optional bool? a, ← optional bool? b, ← optional bool? c⟩
  | _ => none

/-- What a value states about the backend. -/
def backendStatements? (v : Value) : Option BackendStatements := do
  match ← fields? backendKeys v with
  | [a, b] => return ⟨← optional policy? a, ← optional texts? b⟩
  | _ => none

/-- What the table of a document states. -/
def ofTable? (entries : Entries) : Option Statements := do
  return ⟨← optional treeStatements? (entries.lookup "tree"),
    ← optional backendStatements? (entries.lookup "backend")⟩

/-! ### Writing -/

/-- A line for a setting. -/
def line (key : String) (value : List Char) : List Char :=
  key.toList ++ " = ".toList ++ value ++ ['\n']

/-- A truth value as a document shows it. -/
def boolText (b : Bool) : List Char :=
  (if b then "true" else "false").toList

/-- Texts as a document shows them: on one line unless there are several. -/
def textsText : List String → List Char
  | [] => ['[', ']']
  | [s] => '[' :: Toml.spell s ++ [']']
  | texts => '[' :: texts.flatMap (fun s => "\n    ".toList ++ Toml.spell s ++ [',']) ++ ['\n', ']']

/-- The document for settings. -/
def document (s : Settings) : String :=
  String.ofList <|
    "[tree]\n".toList ++
    line "canonicalize-names" (boolText s.tree.canonicalizeNames) ++
    line "cache-removed-names" (boolText s.tree.cacheRemovedNames) ++
    line "mark-new-files-dirty" (boolText s.tree.markNewFilesDirty) ++
    "\n[backend]\n".toList ++
    line "case-sensitivity" (Toml.spell s.backend.policy.word) ++
    line "allowed-roots" (textsText s.backend.allowedRoots)

end Settings

/-- The format in which the program writes settings down. -/
def DocumentFormat.toml : DocumentFormat where
  write s := some s.document
  read document := (Toml.read? document).bind Settings.ofTable?

namespace Settings

/-- The settings that are in force, by files in this format. -/
def loadOrDefault (h : Host) (s : Surroundings) (given : Option HostPath) :
    Except SettingsError Settings :=
  DocumentFormat.toml.loadOrDefault h s given

/-- Writes settings to a file in this format. -/
def save (h : Host) (settings : Settings) (path : HostPath) : Except SettingsError Host :=
  DocumentFormat.toml.save h settings path

end Settings

end LazyTree
