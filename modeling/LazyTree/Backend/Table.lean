import LazyTree.Backend.Query

set_option autoImplicit false

/-!
# A backend that answers from a table

The table holds, for each directory, a list of entries in the order in which they were added. All
questions are answered from it. It can be told to fail on a kind of question, and to give a fixed
spelling for a name.

## Main definitions

* `LazyTree.TableEntry` — one entry of a directory.
* `LazyTree.Table` — the table, with the failures and spellings that it was told.
* `LazyTree.Table.answer` — the answer to a question.
* `LazyTree.Table.add`, `LazyTree.Table.remove`, `LazyTree.Table.removeDirectory` — its changes.
-/

namespace LazyTree

/-- One entry of a directory. A missing identity or missing attributes stand for a child about
which the backend contradicts itself. -/
structure TableEntry where
  /-- The name. -/
  name : String
  /-- The identity. -/
  id : Option FileId
  /-- The attributes. -/
  attributes : Option Attributes
deriving DecidableEq

/-- A backend that answers from a table. -/
structure Table where
  /-- The policy of the tree. -/
  policy : CasePolicy
  /-- The entries of each directory. -/
  directories : List (FileId × List TableEntry)
  /-- The kinds of questions that fail, with their failures, the latest first. -/
  failures : List (Query.Kind × Option BackendError)
  /-- The spellings for names, the latest first. -/
  spellings : List (String × String)
deriving DecidableEq

namespace Table

/-- The table with an empty root directory. -/
def ofRoot (policy : CasePolicy) (root : FileId) : Table :=
  ⟨policy, [(root, [])], [], []⟩

/-- The entries of a directory. -/
def entries? (t : Table) (dir : FileId) : Option (List TableEntry) :=
  t.directories.lookup dir

/-- Makes a directory known. -/
def ensure (t : Table) (dir : FileId) : Table :=
  if (t.entries? dir).isSome then t
  else { t with directories := t.directories ++ [(dir, [])] }

/-- Changes the entries of a known directory. -/
def modifyEntries (t : Table) (dir : FileId) (f : List TableEntry → List TableEntry) : Table :=
  { t with directories := t.directories.map fun d => if d.1 = dir then (dir, f d.2) else d }

/-- Appends an entry to a directory. An entry for a directory makes that directory known. -/
def add (t : Table) (dir : FileId) (entry : TableEntry) : Table :=
  let t := (t.ensure dir).modifyEntries dir (· ++ [entry])
  match entry.id with
  | some id => if entry.attributes.any Attributes.directory then t.ensure id else t
  | none => t

/-- Removes the entries that have exactly a name. What is below them stays known. -/
def remove (t : Table) (dir : FileId) (name : String) : Table :=
  t.modifyEntries dir (·.filter (·.name ≠ name))

/-- Makes a directory unknown. -/
def removeDirectory (t : Table) (dir : FileId) : Table :=
  { t with directories := t.directories.filter (·.1 ≠ dir) }

/-- Tells the table to fail on a kind of question, or to answer it again. -/
def setFailure (t : Table) (kind : Query.Kind) (failure : Option BackendError) : Table :=
  { t with failures := (kind, failure) :: t.failures }

/-- Tells the table the spelling of a name. -/
def setSpelling (t : Table) (name spelling : String) : Table :=
  { t with spellings := (name, spelling) :: t.spellings }

/-- The first entry of a directory whose name is the same under a policy. -/
def find (t : Table) (dir : FileId) (name : String) (policy : CasePolicy) :
    Except BackendError (Option TableEntry) :=
  match t.entries? dir with
  | none => .error (.unknownParent dir)
  | some entries => .ok (entries.find? (policy.same ·.name name))

/-- The name of the first entry that has an identity, by ascending identity of the directory. -/
def nameOf (t : Table) (id : FileId) : Option String :=
  let sorted := t.directories.mergeSort fun a b => a.1.raw ≤ b.1.raw
  (sorted.flatMap (·.2)).find? (·.id = some id) |>.map TableEntry.name

/-- The answer to a question from the entries alone. -/
def decide (t : Table) : (q : Query) → Except BackendError q.Reply
  | .resolve dir name policy => (t.find dir name policy).map fun e => e.bind TableEntry.id
  | .attributes dir name => (t.find dir name t.policy).map fun e => e.bind TableEntry.attributes
  | .canonical dir name =>
    match t.spellings.lookup name with
    | some spelling => .ok spelling
    | none => (t.find dir name .insensitive).map fun e => (e.map TableEntry.name).getD name
  | .list dir =>
    match t.entries? dir with
    | none => .error (.unknownParent dir)
    | some entries => .ok (entries.filterMap fun e => e.id.map fun id => ⟨e.name, id⟩)
  | .nameOf id => .ok (t.nameOf id)

/-- The answer to a question. A failure that was asked for goes before everything else. -/
def answer (t : Table) (q : Query) : Except BackendError q.Reply :=
  match (t.failures.lookup q.kind).join with
  | some failure => .error failure
  | none => t.decide q

end Table

end LazyTree
