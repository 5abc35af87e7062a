import LazyTree.Ident

set_option autoImplicit false

/-!
# Failures below the tree

What can go wrong in whatever stores the files, from a failure of the host to a refusal of the
backend itself.

## Main definitions

* `LazyTree.IoError` — the failures of the host, with their kinds and wordings.
* `LazyTree.BackendError` — the failures of a backend, with their wordings.
-/

namespace LazyTree

/-- A failure of the host. -/
inductive IoError where
  /-- Nothing has that path. -/
  | notFound
  /-- The path is taken. -/
  | alreadyExists
  /-- A directory is needed. -/
  | notADirectory
  /-- A directory cannot be used here. -/
  | isADirectory
  /-- A name is longer than the host allows. -/
  | nameTooLong
  /-- Following the path leads through too many links. -/
  | tooManyLinks
  /-- A path cannot hold a NUL byte. -/
  | nulInPath
  /-- A directory is not empty. -/
  | notEmpty
  /-- A directory cannot be moved below itself. -/
  | invalidMove
  /-- Nothing answers behind a socket. -/
  | noSuchDevice
  /-- The host refuses. -/
  | notPermitted
  /-- What was opened as a root is no directory. -/
  | rootNotADirectory (path : String)
  /-- A file is not encoded as text. -/
  | invalidText
  /-- A failure that only its wording describes. -/
  | other (message : String)
deriving DecidableEq

namespace IoError

/-- The kind that a failure belongs to. -/
def kind : IoError → String
  | notFound => "NotFound"
  | alreadyExists => "AlreadyExists"
  | notADirectory | rootNotADirectory _ => "NotADirectory"
  | isADirectory => "IsADirectory"
  | nameTooLong => "InvalidFilename"
  | tooManyLinks => "FilesystemLoop"
  | notEmpty => "DirectoryNotEmpty"
  | nulInPath | invalidMove => "InvalidInput"
  | noSuchDevice => "Uncategorized"
  | notPermitted => "PermissionDenied"
  | invalidText => "InvalidData"
  | other _ => "Other"

/-- The number and wording by which the host knows a failure. -/
def hostCode? : IoError → Option (Nat × String)
  | notFound => some (2, "No such file or directory")
  | alreadyExists => some (17, "File exists")
  | notADirectory => some (20, "Not a directory")
  | isADirectory => some (21, "Is a directory")
  | nameTooLong => some (36, "File name too long")
  | notEmpty => some (39, "Directory not empty")
  | tooManyLinks => some (40, "Too many levels of symbolic links")
  | invalidMove => some (22, "Invalid argument")
  | noSuchDevice => some (6, "No such device or address")
  | notPermitted => some (1, "Operation not permitted")
  | _ => none

/-- The wording of a failure. -/
def message (e : IoError) : String :=
  match e with
  | nulInPath => "file name contained an unexpected NUL byte"
  | rootNotADirectory path => path ++ " is not a directory"
  | invalidText => "stream did not contain valid UTF-8"
  | other message => message
  | e => match e.hostCode? with
    | some (code, words) => words ++ " (os error " ++ toString code ++ ")"
    | none => ""

/-- How descriptions show a failure of the host. -/
def description (e : IoError) : String :=
  match e.hostCode? with
  | some (code, words) => "Os \x7b code: " ++ toString code ++ ", kind: " ++ e.kind ++
      ", message: \"" ++ words ++ "\" \x7d"
  | none => e.message

end IoError

/-- A failure of a backend. Failures are never remembered. -/
inductive BackendError where
  /-- The host failed. -/
  | io (error : IoError)
  /-- The backend knows no directory of that identity. -/
  | unknownParent (id : FileId)
  /-- Every identity has been handed out. -/
  | idsExhausted
  /-- The path lies outside of what the backend may show. -/
  | accessDenied (path : String)
deriving DecidableEq

namespace BackendError

/-- The word for a failure. -/
def kind : BackendError → String
  | io _ => "Io"
  | unknownParent _ => "UnknownParent"
  | idsExhausted => "IdsExhausted"
  | accessDenied _ => "AccessDenied"

/-- The wording of a failure, given how identities are shown. -/
def messageWith (label : FileId → String) : BackendError → String
  | io error => "io error: " ++ error.message
  | unknownParent id => "unknown parent " ++ label id
  | idsExhausted => "file identities exhausted"
  | accessDenied path => "access outside allowed roots: " ++ path

end BackendError

end LazyTree
