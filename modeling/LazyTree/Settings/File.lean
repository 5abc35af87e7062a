import LazyTree.Host.Change
import LazyTree.Settings.Basic

set_option autoImplicit false

/-!
# Files of settings

Settings are kept in a file of the host. Without a path for it, the first file that is there is
taken from a few places; without any file, the settings are the defaults. How the file is written
down is left open: a format gives the document for settings, and what a document states.

## Main definitions

* `LazyTree.Surroundings` — where a user keeps files of settings.
* `LazyTree.Settings.searchPaths` — the places, in order.
* `LazyTree.DocumentFormat` — how settings are written down.
* `LazyTree.DocumentFormat.load` — the settings in a file.
* `LazyTree.DocumentFormat.loadOrDefault` — the settings that are in force.
* `LazyTree.DocumentFormat.save` — writing settings to a file.
-/

namespace LazyTree

/-- Where a user keeps files of settings. -/
structure Surroundings where
  /-- The directory of all settings, if the user has chosen one. -/
  configHome : Option HostPath
  /-- The directory of the user. -/
  home : Option HostPath
  /-- The name of the program's own directory among the settings. -/
  program : String

namespace Settings

/-- The file of settings in the program's directory below another one. -/
def fileIn (s : Surroundings) (dir : HostPath) : HostPath :=
  dir ++ [.name (.text s.program), .name (.text "config.toml")]

/-- The places where a file of settings is looked for. A chosen directory counts only if its path
begins at the top. -/
def searchPaths (s : Surroundings) : List HostPath :=
  let usual := s.home.map (· ++ [PathPart.name (.text ".config")])
  let chosen := (s.configHome.filter HostPath.isAbsolute).or usual
  (chosen.toList ++ usual.toList ++ [HostPath.ofText "/etc"]).map (fileIn s)

/-- The file of settings that is in force: the given one, or else the first of the usual ones that
is there. -/
def file? (h : Host) (s : Surroundings) (given : Option HostPath) : Option HostPath :=
  given.or ((searchPaths s).find? fun path => (h.follow path).toOption.isSome)

/-- The settings, if they are acceptable. -/
def validated (s : Settings) : Except SettingsError Settings :=
  if s.problems.isEmpty then .ok s else .error (.invalid s.problems)

/-- The directory of a path, unless the path is that of the top. -/
def directory? (path : HostPath) : Option HostPath :=
  match path.components with
  | [] | [.top] => none
  | parts => some parts.dropLast

end Settings

/-- How settings are written down. -/
structure DocumentFormat where
  /-- The document for settings, if there is one. -/
  write : Settings → Option String
  /-- What a document states, if it means anything. -/
  read : String → Option Statements

namespace DocumentFormat

/-- The settings in a file, acceptable or not. -/
def load (f : DocumentFormat) (h : Host) (path : HostPath) : Except SettingsError Settings :=
  match h.readText path with
  | .error e => .error (.io e)
  | .ok document =>
    match f.read document with
    | some stated => .ok stated.settings
    | none => .error .malformed

/-- The settings that are in force. -/
def loadOrDefault (f : DocumentFormat) (h : Host) (s : Surroundings) (given : Option HostPath) :
    Except SettingsError Settings :=
  match Settings.file? h s given with
  | none => .ok Settings.default
  | some path =>
    match f.load h path with
    | .ok settings => settings.validated
    | .error e => .error e

/-- Writes settings to a file, and makes the directories above it that are missing. -/
def save (f : DocumentFormat) (h : Host) (settings : Settings) (path : HostPath) :
    Except SettingsError Host :=
  match f.write settings with
  | none => .error .unwritable
  | some document =>
    match Settings.directory? path with
    | none => .error .noDirectory
    | some dir =>
      match h.makeDirectories dir with
      | .error e => .error (.io e)
      | .ok h =>
        match h.write path document.toUTF8 with
        | .error e => .error (.io e)
        | .ok h => .ok h

end DocumentFormat

end LazyTree
