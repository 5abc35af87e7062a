import LazyTree.Attributes
import LazyTree.Ident
import LazyTree.Zone.Search

set_option autoImplicit false

/-!
# Nodes

A node is an object of the tree that stands for one file or directory. What is fixed when the
object is made is kept here; what changes later (whether it needs a refresh, and what is known
below a directory) belongs to the tree that the object lives in. Two nodes may agree on their
identity and name and still be different objects, so a node also says which object it is.

## Main definitions

* `LazyTree.Node` — the fixed part of an object.
* `LazyTree.Node.isDirectory` — whether it stands for a directory.
-/

namespace LazyTree

/-- One object of a tree. -/
structure Node where
  /-- Which object it is: the number of objects made before it. -/
  serial : Nat
  /-- The identity of the file. -/
  id : FileId
  /-- The name of the file in its directory. -/
  name : String
  /-- The identity of the directory; none for the root. -/
  parent : Option FileId
  /-- The attributes that were reported when the object was made. -/
  attributes : Attributes
deriving DecidableEq, Inhabited

namespace Node

instance : Named Node := ⟨Node.name⟩

/-- Whether the node stands for a directory. Only directories have children. -/
def isDirectory (n : Node) : Bool :=
  n.attributes.directory

/-- The word for the kind of a node. -/
def kind (n : Node) : String :=
  if n.isDirectory then "Directory" else "Regular"

end Node

end LazyTree
