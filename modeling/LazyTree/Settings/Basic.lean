import LazyTree.Backend.Error
import LazyTree.Host.Path
import LazyTree.Text.Quoted
import LazyTree.Tree.Store

set_option autoImplicit false

/-!
# Settings

What a user can choose about the tree and about the backend below it. A document need not state all
of it: what it leaves out keeps its default, be it a single key or a whole group.

## Main definitions

* `LazyTree.BackendSettings`, `LazyTree.Settings` — what can be chosen.
* `LazyTree.Statements` — what a document states of it.
* `LazyTree.Statements.settings` — the settings that a document stands for.
* `LazyTree.Settings.problems` — what is wrong with a choice.
* `LazyTree.SettingsError` — why settings cannot be used.
-/

namespace LazyTree

/-- What can be chosen about the backend. -/
structure BackendSettings where
  /-- How names are matched. -/
  policy : CasePolicy := .sensitive
  /-- The directories inside of which, and on the way to which, files may be shown. If there are
  none, all files may. -/
  allowedRoots : List String := []
deriving DecidableEq, Inhabited

/-- What can be chosen. -/
structure Settings where
  /-- About the tree. -/
  tree : TreeConfig := {}
  /-- About the backend. -/
  backend : BackendSettings := {}
deriving DecidableEq, Inhabited

/-! ### What is stated -/

/-- What a document states about the tree. -/
structure TreeStatements where
  /-- Under `canonicalize-names`. -/
  canonicalizeNames : Option Bool
  /-- Under `cache-removed-names`. -/
  cacheRemovedNames : Option Bool
  /-- Under `mark-new-files-dirty`. -/
  markNewFilesDirty : Option Bool
deriving DecidableEq

/-- What a document states about the backend. -/
structure BackendStatements where
  /-- Under `case-sensitivity`. -/
  policy : Option CasePolicy
  /-- Under `allowed-roots`. -/
  allowedRoots : Option (List String)
deriving DecidableEq

/-- What a document states. -/
structure Statements where
  /-- Under `tree`. -/
  tree : Option TreeStatements
  /-- Under `backend`. -/
  backend : Option BackendStatements
deriving DecidableEq

/-- The settings about the tree, with their defaults where nothing is stated. -/
def TreeStatements.config (t : TreeStatements) : TreeConfig :=
  let standard : TreeConfig := {}
  { canonicalizeNames := t.canonicalizeNames.getD standard.canonicalizeNames
    cacheRemovedNames := t.cacheRemovedNames.getD standard.cacheRemovedNames
    markNewFilesDirty := t.markNewFilesDirty.getD standard.markNewFilesDirty }

/-- The settings about the backend, with their defaults where nothing is stated. -/
def BackendStatements.settings (b : BackendStatements) : BackendSettings :=
  let standard : BackendSettings := {}
  { policy := b.policy.getD standard.policy
    allowedRoots := b.allowedRoots.getD standard.allowedRoots }

/-- The settings, with their defaults where nothing is stated. -/
def Statements.settings (r : Statements) : Settings where
  tree := (r.tree.map TreeStatements.config).getD {}
  backend := (r.backend.map BackendStatements.settings).getD {}

namespace Settings

/-- What nobody has changed. -/
def default : Settings := {}

/-- What is wrong with the settings: one line for each allowed root that is no path from the
top. -/
def problems (s : Settings) : List String :=
  (s.backend.allowedRoots.filter fun root => !(HostPath.ofText root).isAbsolute).map fun root =>
    "Allowed root '" ++ root ++ "' is not absolute."

end Settings

/-- Why settings cannot be used. -/
inductive SettingsError where
  /-- They are not acceptable. -/
  | invalid (problems : List String)
  /-- There is no document for them. -/
  | unwritable
  /-- They cannot be read from their document. -/
  | malformed
  /-- The host failed. -/
  | io (error : IoError)
  /-- Their file would lie in no directory. -/
  | noDirectory
deriving DecidableEq

namespace SettingsError

/-- The word for a failure. -/
def kind : SettingsError → String
  | invalid _ => "ValidationErrors"
  | unwritable => "SerializationError"
  | malformed => "DeserializationError"
  | io _ => "IoError"
  | noDirectory => "NoParentDir"

/-- The wording of a failure. -/
def message : SettingsError → String
  | invalid problems => "Configuration validation errors: " ++ Text.quotedList problems
  | unwritable => "Serialization error"
  | malformed => "Deserialization error"
  | io error => "I/O error: " ++ error.message
  | noDirectory => "Config parent directory does not exist."

end SettingsError

end LazyTree
