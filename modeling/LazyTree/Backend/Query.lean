import LazyTree.Attributes
import LazyTree.Backend.Error
import LazyTree.Name.Order

set_option autoImplicit false

/-!
# Questions to a backend

The tree knows files only through a backend, which it asks five kinds of questions. What answers
a question is not fixed here: a table, a directory of the host, or anything else.

## Main definitions

* `LazyTree.Query` — a question.
* `LazyTree.Query.Reply` — the type of its answer.
* `LazyTree.Query.Kind` — the kinds of questions.
* `LazyTree.Query.directory?` — the directory that a question is about.
* `LazyTree.Listed` — one line of a full listing.
-/

namespace LazyTree

/-- A child as a full listing reports it. -/
structure Listed where
  /-- Its name, in the backend's spelling. -/
  name : String
  /-- Its identity. -/
  id : FileId
deriving DecidableEq, Inhabited

/-- A question of the tree to its backend. -/
inductive Query where
  /-- The identity of the child of a directory that has a name under a policy. -/
  | resolve (parent : FileId) (name : String) (policy : CasePolicy)
  /-- The attributes of a child. -/
  | attributes (parent : FileId) (name : String)
  /-- The backend's own spelling of a name; the name itself if no child has it. -/
  | canonical (parent : FileId) (name : String)
  /-- All children of a directory, in any order. -/
  | list (parent : FileId)
  /-- The name of the file with an identity. -/
  | nameOf (id : FileId)
deriving DecidableEq

namespace Query

/-- The type of the answer to a question. -/
abbrev Reply : Query → Type
  | resolve _ _ _ => Option FileId
  | attributes _ _ => Option Attributes
  | canonical _ _ => String
  | list _ => List Listed
  | nameOf _ => Option String

/-- The kinds of questions. -/
inductive Kind where
  /-- For an identity. -/
  | resolve
  /-- For attributes. -/
  | attributes
  /-- For a spelling. -/
  | canonical
  /-- For a listing. -/
  | list
  /-- For a name. -/
  | nameOf
deriving DecidableEq

/-- The kind of a question. -/
def kind : Query → Kind
  | resolve _ _ _ => .resolve
  | attributes _ _ => .attributes
  | canonical _ _ => .canonical
  | list _ => .list
  | nameOf _ => .nameOf

/-- The identity of the directory that a question is about, if it is about one. -/
def directory? : Query → Option FileId
  | resolve dir _ _ | attributes dir _ | canonical dir _ | list dir => some dir
  | nameOf _ => none

end Query

end LazyTree
