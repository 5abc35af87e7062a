import LazyTree.Backend.Error

set_option autoImplicit false

/-!
# Identities of places

A backend over a directory of a host hands out an identity for a place when it first meets it, and
keeps it from then on. Identities are numbered from one on; after the last number nothing new can
be named.

## Main definitions

* `LazyTree.Below` — a place below the root of a backend.
* `LazyTree.Places` — the identities that have been handed out.
* `LazyTree.Places.idOf?`, `LazyTree.Places.pathOf?` — from places to identities and back.
* `LazyTree.Places.require` — the identity of a place, handed out now if it is new.
-/

namespace LazyTree

/-- A place below the root of a backend: the names that lead there. -/
abbrev Below := List String

/-- The identities that have been handed out, in two maps, and a counter. -/
structure Places where
  /-- The places that have an identity, the latest first. -/
  ids : List (Below × FileId)
  /-- The identities that have a place, the latest first. -/
  paths : List (FileId × Below)
  /-- The number of the next identity, which is zero when there are no more. -/
  next : UInt32
deriving DecidableEq

namespace Places

/-- No identity has been handed out. -/
def empty : Places :=
  ⟨[], [], 1⟩

/-- The identity of a place. -/
def idOf? (p : Places) (place : Below) : Option FileId :=
  p.ids.lookup place

/-- The place with an identity. -/
def pathOf? (p : Places) (id : FileId) : Option Below :=
  p.paths.lookup id

/-- The identity of a place. A place that is new gets the next number, if there is one; an identity
that had a place would keep it. -/
def require (p : Places) (place : Below) : Except BackendError FileId × Places :=
  match p.idOf? place with
  | some id => (.ok id, p)
  | none =>
    match FileId.ofRaw? p.next with
    | none => (.error .idsExhausted, p)
    | some id =>
      let paths := if (p.pathOf? id).isSome then p.paths else (id, place) :: p.paths
      (.ok id, ⟨(place, id) :: p.ids, paths, p.next + 1⟩)

/-- The text of a place, from the root on. -/
def text (place : Below) : String :=
  if place.isEmpty then "/" else String.join (place.map ("/" ++ ·))

end Places

end LazyTree
