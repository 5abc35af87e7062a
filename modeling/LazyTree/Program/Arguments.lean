set_option autoImplicit false

/-!
# Arguments of the program

The program is asked to look up paths below a directory or to list a directory. A file of settings
can be given in front of the request.

## Main definitions

* `LazyTree.Request` — what the program is asked for.
* `LazyTree.Invocation` — a request with what goes in front of it.
* `LazyTree.Reading` — what arguments mean.
* `LazyTree.Reading.ofArguments` — the meaning of arguments.
-/

namespace LazyTree

/-- What the program is asked for. -/
inductive Request where
  /-- To look up paths below a directory. -/
  | lookup (root : String) (paths : List String)
  /-- To list a directory below another one, with or without fetching all its children. -/
  | list (root : String) (dir : String) (refresh : Bool)
deriving DecidableEq

/-- A request, and the file of settings that is in force for it. -/
structure Invocation where
  /-- The file of settings, if one is given. -/
  config : Option String
  /-- The request. -/
  request : Request
deriving DecidableEq

/-- What arguments mean. -/
inductive Reading where
  /-- A request. -/
  | invocation (i : Invocation)
  /-- A question about the program itself. -/
  | information
  /-- Nothing. -/
  | misuse
deriving DecidableEq

namespace Reading

/-- What a single argument looks like. -/
inductive Shape where
  /-- Two dashes, behind which all arguments are values. -/
  | separator
  /-- A long flag, and the value attached to it. -/
  | long (name : String) (value : Option String)
  /-- Short flags. -/
  | short (flags : List Char)
  /-- A value. -/
  | value

/-- The part of a long flag in front of the first equals sign, and the part behind it. -/
def splitValue (flag : List Char) : Shape :=
  let name := String.ofList (flag.takeWhile (· != '='))
  match flag.dropWhile (· != '=') with
  | [] => .long name none
  | _ :: value => .long name (some (String.ofList value))

/-- What an argument looks like. -/
def shape (argument : String) : Shape :=
  match argument.toList with
  | ['-', '-'] => .separator
  | '-' :: '-' :: flag => splitValue flag
  | ['-'] => .value
  | '-' :: flags => .short flags
  | _ => .value

/-- What has been read of the arguments behind a request for look-ups or a listing. -/
structure Progress where
  /-- The values, the latest first. -/
  values : List String
  /-- Whether the flag to fetch all children was met. -/
  refresh : Bool

/-- A kind of request: how many values it takes at most, and whether it takes the flag to fetch all
children. -/
structure Form where
  /-- The number of values it takes at most, if there is a limit. -/
  limit : Option Nat
  /-- Whether it takes the flag. -/
  refreshable : Bool
  /-- The request that values make. -/
  finish : List String → Bool → Option Request

/-- Look-ups take a directory and at least one path. -/
def lookupForm : Form where
  limit := none
  refreshable := false
  finish values _ := match values with
    | root :: path :: paths => some (.lookup root (path :: paths))
    | _ => none

/-- A listing takes a directory, another one below it, and the flag. -/
def listForm : Form where
  limit := some 2
  refreshable := true
  finish values refresh := match values with
    | [root] => some (.list root "" refresh)
    | [root, dir] => some (.list root dir refresh)
    | _ => none

/-- Takes a value. The first one is a path and cannot be empty. -/
def Progress.push? (p : Progress) (form : Form) (value : String) : Option Progress :=
  if p.values.isEmpty && value.isEmpty then none
  else if form.limit.any (· ≤ p.values.length) then none
  else some { p with values := value :: p.values }

/-- Takes the flag to fetch all children, once. -/
def Progress.flag? (p : Progress) (form : Form) : Option Progress :=
  if form.refreshable && !p.refresh then some { p with refresh := true } else none

/-- Takes short flags. -/
def shortFlags (form : Form) (p : Progress) : List Char → Except Reading Progress
  | [] => .ok p
  | 'h' :: _ => .error .information
  | 'r' :: rest => match p.flag? form with
    | some p => shortFlags form p rest
    | none => .error .misuse
  | _ :: _ => .error .misuse

/-- Takes arguments behind the word for a request. -/
def behindWord (form : Form) (p : Progress) : List String → Except Reading Progress
  | [] => .ok p
  | argument :: rest =>
    match shape argument with
    | .separator =>
      match rest.foldlM (fun p value => p.push? form value) p with
      | some p => .ok p
      | none => .error .misuse
    | .long "help" none => .error .information
    | .long "refresh" none =>
      match p.flag? form with
      | some p => behindWord form p rest
      | none => .error .misuse
    | .long _ _ => .error .misuse
    | .short flags =>
      match shortFlags form p flags with
      | .ok p => behindWord form p rest
      | .error r => .error r
    | .value =>
      match p.push? form argument with
      | some p => behindWord form p rest
      | none => .error .misuse

/-- The meaning of a request with the arguments behind its word. -/
def ofRequest (config : Option String) (form : Form) (rest : List String) : Reading :=
  match behindWord form ⟨[], false⟩ rest with
  | .error r => r
  | .ok p =>
    match form.finish p.values.reverse p.refresh with
    | some request => .invocation ⟨config, request⟩
    | none => .misuse

/-- The meaning of the arguments behind the word for help. -/
def ofHelp : List String → Reading
  | [] => .information
  | [word] => if ["lookup", "ls", "help"].contains word then .information else .misuse
  | _ => .misuse

/-- Takes a file of settings; there can be only one, and its path is not empty. -/
def takeConfig (config : Option String) (value : String) : Option (Option String) :=
  if config.isSome || value.isEmpty then none else some (some value)

/-- The value attached to a short flag, which may stand behind an equals sign. -/
def attached (value : List Char) : String :=
  String.ofList (match value with
    | '=' :: value => value
    | value => value)

/-- The meaning of arguments, in front of which a file of settings may have been given. -/
def ofArgumentsWith (config : Option String) : List String → Reading
  | [] => .misuse
  | argument :: rest =>
    let configBehind : Reading := match rest with
      | [] => .misuse
      | value :: rest =>
        match shape value with
        | .value => match takeConfig config value with
          | some config => ofArgumentsWith config rest
          | none => .misuse
        | _ => .misuse
    match shape argument with
    | .separator => .misuse
    | .long "help" none | .long "version" none => .information
    | .long "config-path" none => configBehind
    | .long "config-path" (some value) =>
      match takeConfig config value with
      | some config => ofArgumentsWith config rest
      | none => .misuse
    | .long _ _ => .misuse
    | .short ['c'] => configBehind
    | .short ('c' :: value) =>
      match takeConfig config (attached value) with
      | some config => ofArgumentsWith config rest
      | none => .misuse
    | .short ('h' :: _) | .short ('V' :: _) => .information
    | .short _ => .misuse
    | .value =>
      if argument = "lookup" then ofRequest config lookupForm rest
      else if argument = "ls" then ofRequest config listForm rest
      else if argument = "help" then ofHelp rest
      else .misuse

/-- The meaning of arguments. -/
def ofArguments (arguments : List String) : Reading :=
  ofArgumentsWith none arguments

end Reading

end LazyTree
