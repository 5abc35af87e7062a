import LazyTree.Proofs.Histories
import LazyTree.Proofs.Mirror

set_option autoImplicit false

/-!
# Trees that agree with a table

A node is attached if it is the root, or in the array of a directory that is attached. As long as
the nodes that become attached by a change are new, and nothing is known below them yet, attached
nodes are objects of the tree. A tree agrees with a table if the array of each attached directory
agrees with the entries of that directory. Then no two attached nodes have the same identity, so a
change of one array is a change of what is known of one directory only.

## Main definitions

* `LazyTree.Tree.Attached`, `LazyTree.Tree.AttachedDirectory` — a node is attached to the root.
* `LazyTree.Tree.Loose` — a node is new.
* `LazyTree.Tree.Rooted` — attached nodes are objects of the tree.
* `LazyTree.Tree.Coherent` — a tree agrees with a table.

## Main results

* `LazyTree.Tree.Rooted.attached_setChildren`, `LazyTree.Tree.Rooted.attached_make` — what is
  attached after an array was changed, or a node was made, which is new by
  `LazyTree.Tree.loose_make`.
* `LazyTree.Tree.Coherent.attached_unique` — attached nodes differ in their identities.
* `LazyTree.Tree.Coherent.setChildren`, `LazyTree.Tree.Coherent.make` — changing one array and
  making a node keep the agreement.
-/

namespace LazyTree.Tree

/-- A node is attached to the root. -/
inductive Attached (t : Tree) : Node → Prop where
  /-- The root is. -/
  | root : Attached t t.root
  /-- A child in the array of a directory that is attached is. -/
  | child {dir n : Node} {c : Children} (attached : Attached t dir)
    (known : t.children? dir = some c) (present : n ∈ c.present) : Attached t n

/-- A directory is attached to the root. -/
structure AttachedDirectory (t : Tree) (dir : Node) : Prop where
  /-- The node is attached. -/
  attached : t.Attached dir
  /-- It stands for a directory. -/
  isDirectory : dir.isDirectory = true

/-- A node is an object of the tree. -/
def Owns (t : Tree) (n : Node) : Prop :=
  (t.cell? n).map Cell.node = some n

/-- A node is new: it is an object of the tree, nothing is known below it, and no attached node is
the same object. -/
structure Loose (t : Tree) (n : Node) : Prop where
  /-- It is an object of the tree. -/
  owns : t.Owns n
  /-- Nothing is known below it. -/
  blank : ∀ c, t.children? n = some c → c = Children.empty t.policy
  /-- It is not attached. -/
  apart : ∀ d, t.Attached d → d.serial ≠ n.serial

/-- Attached nodes are objects of the tree, and the arrays are in order. -/
structure Rooted (t : Tree) : Prop where
  /-- All arrays are tidy. -/
  tidy : t.Tidy
  /-- Attached nodes are objects of the tree. -/
  owns : ∀ n, t.Attached n → t.Owns n
  /-- The directories among the objects have arrays. -/
  arrays : ∀ n cell, t.cell? n = some cell → cell.children.isSome = cell.node.isDirectory

/-- A tree agrees with a table. -/
structure Coherent (t : Tree) (b : Table) : Prop where
  /-- All arrays are tidy. -/
  tidy : t.Tidy
  /-- Names are the same for both. -/
  policy : b.policy = t.policy
  /-- The table is in order. -/
  table : b.Orderly t.root.id
  /-- Attached nodes are objects of the tree. -/
  owns : ∀ n, t.Attached n → t.Owns n
  /-- The directories among the objects have arrays. -/
  arrays : ∀ n cell, t.cell? n = some cell → cell.children.isSome = cell.node.isDirectory
  /-- Each array of an attached directory agrees with the entries of the directory. -/
  mirrors : ∀ dir c, t.Attached dir → t.children? dir = some c →
    ∃ es, b.entries? dir.id = some es ∧ c.ledger.Mirrors es

variable {t t' : Tree} {b : Table} {dir n : Node} {c : Children}

/-- What is attached stays so while all arrays of attached directories stay. -/
theorem Attached.mono (h : t.Attached n) (hroot : t'.root = t.root)
    (hchildren : ∀ d c, t.Attached d → t.children? d = some c → t'.children? d = some c) :
    t'.Attached n := by
  induction h with
  | root => exact hroot ▸ .root
  | child hdir hc hn ih => exact .child ih (hchildren _ _ hdir hc) hn

/-- The same nodes are attached if all arrays of attached directories stay. -/
theorem attached_congr (hsame : ∀ d, t.Attached d → t'.children? d = t.children? d)
    (hroot : t'.root = t.root) : t'.Attached n ↔ t.Attached n := by
  refine ⟨fun hn => ?_, fun hn => hn.mono hroot fun d c hd hc => (hsame d hd).trans hc⟩
  induction hn with
  | root => exact hroot ▸ .root
  | child _ hc hn ih => exact .child ih ((hsame _ ih).symm.trans hc) hn

/-- Attached nodes are among nodes that the root is one of, and all children of which are too. -/
theorem Attached.mem_of_closed (hn : t.Attached n) {nodes : List Node}
    (hroot : t.root ∈ nodes)
    (hclosed : ∀ d ∈ nodes, ∀ c ∈ t.children? d, ∀ m ∈ c.present, m ∈ nodes) : n ∈ nodes := by
  induction hn with
  | root => exact hroot
  | child _ hc hn ih => exact hclosed _ ih _ hc _ hn

/-- A tree that agrees with a table is in order. -/
theorem Coherent.rooted (h : t.Coherent b) : t.Rooted :=
  ⟨h.tidy, h.owns, h.arrays⟩

/-- What is attached does not depend on the registry, or on who holds objects. -/
theorem Attached.frame (h : t.Attached n) (registry : Registry) (held : List Nat) :
    ({ t with registry := registry, held := held } : Tree).Attached n :=
  h.mono rfl fun _ _ _ hc => hc

/-- The same goes for directories. -/
theorem AttachedDirectory.frame (h : t.AttachedDirectory dir) (registry : Registry)
    (held : List Nat) :
    ({ t with registry := registry, held := held } : Tree).AttachedDirectory dir :=
  ⟨h.attached.frame registry held, h.isDirectory⟩

/-- The order does not depend on the registry, or on who holds objects. -/
theorem Rooted.frame (h : t.Rooted) (registry : Registry) (held : List Nat) :
    ({ t with registry := registry, held := held } : Tree).Rooted :=
  ⟨h.tidy, fun n hn => h.owns n (hn.frame t.registry t.held), h.arrays⟩

/-- A node that is new stays so whoever holds objects, and whatever the registry is. -/
theorem Loose.frame (h : t.Loose n) (registry : Registry) (held : List Nat) :
    ({ t with registry := registry, held := held } : Tree).Loose n :=
  ⟨h.owns, h.blank, fun d hd => h.apart d (hd.frame t.registry t.held)⟩

/-- The same object is the same node. -/
theorem Owns.eq_of_serial {m : Node} (hn : t.Owns n) (hm : t.Owns m) (h : n.serial = m.serial) :
    n = m := by
  unfold Owns cell? at hn hm
  rw [h] at hn
  exact Option.some.inj (hn.symm.trans hm)

/-- A child is in a tidy array exactly if it is known to have its name. -/
theorem mem_present_iff (hc : c.Tidy) :
    n ∈ c.present ↔ c.ledger.fact? n.name = some (.present n) := by
  have hiff : c.ledger.fact? n.name = some (.present n) ↔ _ :=
    hc.factAt_eq_present_iff (k := c.policy.key n.name)
  rw [hiff]
  exact (and_iff_left rfl).symm

/-- A child that is known to have a name has that name, and is in the array. -/
theorem mem_present_of_fact? (hc : c.Tidy) {name : String}
    (h : c.ledger.fact? name = some (.present n)) :
    n ∈ c.present ∧ c.policy.key n.name = c.policy.key name :=
  hc.factAt_eq_present_iff.mp h

/-- The directories among the objects have arrays. -/
def Furnished (t : Tree) : Prop :=
  ∀ n cell, t.cell? n = some cell → cell.children.isSome = cell.node.isDirectory

/-- In such a tree an object with an array is a directory. -/
theorem Furnished.isDirectory (h : t.Furnished) (hn : t.Owns n) (hc : t.children? n = some c) :
    n.isDirectory = true := by
  obtain ⟨cell, hcell, hnode⟩ := Option.map_eq_some_iff.mp hn
  rw [children?, hcell, Option.bind_some] at hc
  rw [← hnode, ← h n cell hcell, hc]
  rfl

namespace Rooted

variable (h : t.Rooted)
include h

/-- A directory that is an object has an array. -/
theorem exists_children (hdir : t.AttachedDirectory dir) : ∃ c, t.children? dir = some c := by
  obtain ⟨cell, hcell, hnode⟩ := Option.map_eq_some_iff.mp (h.owns dir hdir.attached)
  have hsome := h.arrays dir cell hcell
  rw [hnode, hdir.isDirectory] at hsome
  obtain ⟨c, hc⟩ := Option.isSome_iff_exists.mp hsome
  exact ⟨c, by rw [children?, hcell, Option.bind_some, hc]⟩

/-- An object with an array is a directory. -/
theorem isDirectory (hn : t.Owns n) (hc : t.children? n = some c) : n.isDirectory = true :=
  Furnished.isDirectory h.arrays hn hc

end Rooted

namespace Coherent

variable (h : t.Coherent b)
include h

/-- The array of a directory has its policy, and is tidy. -/
theorem array (hc : t.children? dir = some c) : c.policy = t.policy ∧ c.Tidy :=
  h.tidy dir c hc

/-- A child in the array of an attached directory is a file that the table lists there. -/
theorem exists_entry (hdir : t.Attached dir) (hc : t.children? dir = some c) (hn : n ∈ c.present) :
    ∃ es e, b.entries? dir.id = some es ∧ e ∈ es ∧
      c.policy.key e.name = c.policy.key n.name ∧ e.content? = some (n.id, n.attributes) := by
  obtain ⟨es, hes, hmirrors⟩ := h.mirrors dir c hdir hc
  have hcontent := hmirrors.present n.name n ((mem_present_iff (h.array hc).2).mp hn)
  obtain ⟨e, he, hcontent⟩ := Option.bind_eq_some_iff.mp hcontent
  obtain ⟨hmem, hkey⟩ := Table.mem_of_entryAt he
  exact ⟨es, e, hes, hmem, hkey, hcontent⟩

/-- Attached nodes differ in their identities.

**Proof sketch.** By induction on how one of them is attached. The root has an identity that the
table lists nowhere. Two children of the same identity have the same entry, so their directories
have the same identity, are the same by induction, and have one child of that name. -/
theorem attached_unique {m : Node} (hn : t.Attached n) (hm : t.Attached m) (hid : n.id = m.id) :
    n = m := by
  have hentry_id : ∀ {e : TableEntry} {k : Node}, e.content? = some (k.id, k.attributes) →
      e.id = some k.id := fun hcontent => (TableEntry.content?_eq_some_iff.mp hcontent).1
  have hroot : ∀ {dir n c}, t.Attached dir → t.children? dir = some c → n ∈ c.present →
      n.id ≠ t.root.id := by
    intro dir n c hdir hc hn hid
    obtain ⟨es, e, hes, he, -, hcontent⟩ := h.exists_entry hdir hc hn
    exact h.table.ne_root dir.id es hes e he (by rw [hentry_id hcontent, hid])
  induction hn generalizing m with
  | root =>
    cases hm with
    | root => rfl
    | child hdir hc hm => exact absurd hid.symm (hroot hdir hc hm)
  | @child dir n c hdir hc hn ih =>
    cases hm with
    | root => exact absurd hid (hroot hdir hc hn)
    | @child dir' _ c' hdir' hc' hm =>
      obtain ⟨es, e, hes, he, hkey, hcontent⟩ := h.exists_entry hdir hc hn
      obtain ⟨es', e', hes', he', hkey', hcontent'⟩ := h.exists_entry hdir' hc' hm
      obtain ⟨hdirs, rfl⟩ := h.table.unique _ _ _ _ e e' n.id hes hes' he he'
        (hentry_id hcontent) (by rw [hentry_id hcontent', hid])
      obtain rfl := ih hdir' hdirs
      obtain rfl : c = c' := Option.some.inj (hc.symm.trans hc')
      have hnames : c.policy.key n.name = c.policy.key m.name := hkey.symm.trans hkey'
      have hfact := (mem_present_iff (h.array hc).2).mp hn
      rw [c.ledger.fact?_congr hnames, (mem_present_iff (h.array hc).2).mp hm] at hfact
      cases hfact
      rfl

end Coherent

/-! ### Updates -/

/-- Changing an array changes no other part of an object. -/
theorem cell?_setChildren (t : Tree) (dir n : Node) (c : Children) :
    (t.setChildren dir c).cell? n = (t.cell? n).map fun cell =>
      if dir.serial = n.serial then { cell with children := cell.children.map fun _ => c }
      else cell := by
  unfold cell? setChildren modifyCell
  rw [Array.getElem?_modify]
  split
  · rfl
  · cases t.cells[n.serial]? <;> rfl

/-- Changing an array keeps all objects. -/
theorem owns_setChildren (t : Tree) (dir n : Node) (c : Children) :
    (t.setChildren dir c).Owns n ↔ t.Owns n := by
  unfold Owns
  rw [cell?_setChildren, Option.map_map]
  cases t.cell? n with
  | none => rfl
  | some cell =>
    simp only [Option.map_some, Function.comp_apply]
    split <;> rfl

/-- Making an object keeps all others. -/
theorem cell?_make_of_lt (t : Tree) (dir : Node) (id : FileId) (name : String)
    (attributes : Attributes) (hn : n.serial ≠ t.cells.size) :
    (t.make dir id name attributes).2.cell? n = t.cell? n := by
  unfold cell? make
  rw [Array.getElem?_push, if_neg hn]

/-- They have arrays after a change of one of them. -/
theorem Furnished.setChildren (h : t.Furnished) (dir : Node) (c : Children) :
    (t.setChildren dir c).Furnished := by
  intro n cell hcell
  rw [cell?_setChildren] at hcell
  obtain ⟨cell', hcell', rfl⟩ := Option.map_eq_some_iff.mp hcell
  have hold := h n cell' hcell'
  split
  · simpa using hold
  · exact hold

/-- They have arrays after another object was made. -/
theorem Furnished.make (h : t.Furnished) (parent : Node) (id : FileId) (name : String)
    (attributes : Attributes) : (t.make parent id name attributes).2.Furnished := by
  intro n cell hcell
  by_cases hserial : n.serial = t.cells.size
  · unfold cell? Tree.make at hcell
    rw [Array.getElem?_push, if_pos hserial] at hcell
    cases hcell
    unfold freshCell
    dsimp only
    split <;> simp_all
  · rw [cell?_make_of_lt t parent id name attributes hserial] at hcell
    exact h n cell hcell

/-- What is attached after a change of an array was so before, or is a new child in that array. -/
theorem Rooted.attached_setChildren (h : t.Rooted) {c' : Children} (hdir : t.Attached dir)
    (hc : t.children? dir = some c) (hnew : ∀ n ∈ c'.present, n ∈ c.present ∨ t.Loose n)
    (hn : (t.setChildren dir c').Attached n) :
    t.Attached n ∨ (t.Loose n ∧ n ∈ c'.present) := by
  induction hn with
  | root => exact .inl .root
  | @child d n cd hd hcd hn ih =>
    rw [children?_setChildren] at hcd
    rcases ih with hd' | ⟨hloose, -⟩
    · split at hcd
      · next hserial =>
        obtain rfl := (h.owns dir hdir).eq_of_serial (h.owns d hd') hserial
        obtain ⟨_, -, rfl⟩ := Option.map_eq_some_iff.mp hcd
        rcases hnew n hn with hold | hloose
        · exact .inl (.child hdir hc hold)
        · exact .inr ⟨hloose, hn⟩
      · exact .inl (.child hd' hcd hn)
    · rw [if_neg (hloose.apart dir hdir)] at hcd
      rw [hloose.blank cd hcd, Children.present_empty] at hn
      cases hn

/-- Changing the array of an attached directory keeps the order, if each child in the new array was
in the old one or is new. -/
theorem Rooted.setChildren (h : t.Rooted) {c' : Children} (hdir : t.Attached dir)
    (hc : t.children? dir = some c) (htidy : c'.Tidy) (hpolicy : c'.policy = t.policy)
    (hnew : ∀ n ∈ c'.present, n ∈ c.present ∨ t.Loose n) : (t.setChildren dir c').Rooted where
  tidy := by
    intro n cn hcn
    rw [children?_setChildren] at hcn
    split at hcn
    · obtain ⟨_, -, rfl⟩ := Option.map_eq_some_iff.mp hcn
      exact ⟨hpolicy, htidy⟩
    · exact h.tidy n cn hcn
  owns := by
    intro n hn
    rw [owns_setChildren]
    rcases h.attached_setChildren hdir hc hnew hn with hn | ⟨hloose, -⟩
    · exact h.owns n hn
    · exact hloose.owns
  arrays := Furnished.setChildren h.arrays dir c'

/-- A node that is new stays so when an array is changed, unless it is in the new one. -/
theorem Rooted.loose_setChildren (h : t.Rooted) {c' : Children} (hdir : t.Attached dir)
    (hc : t.children? dir = some c) (hnew : ∀ n ∈ c'.present, n ∈ c.present ∨ t.Loose n)
    (hn : t.Loose n) (hout : n ∉ c'.present) : (t.setChildren dir c').Loose n where
  owns := (owns_setChildren t dir n c').mpr hn.owns
  blank cn hcn := by
    rw [children?_setChildren, if_neg (hn.apart dir hdir)] at hcn
    exact hn.blank cn hcn
  apart d hd hserial := by
    rcases h.attached_setChildren hdir hc hnew hd with hd | ⟨hloose, hpresent⟩
    · exact hn.apart d hd hserial
    · exact hout (hloose.owns.eq_of_serial hn.owns hserial ▸ hpresent)

/-- Changing the array of an attached directory keeps the agreement with a table of which the other
directories stay as they are, if the new array agrees with the entries of the directory, and each of
its children was in the old one or is new. -/
theorem Coherent.setChildren (h : t.Coherent b) {b' : Table} {c' : Children}
    {es' : List TableEntry} (hdir : t.Attached dir) (hc : t.children? dir = some c)
    (htidy : c'.Tidy) (hpolicy : c'.policy = t.policy)
    (hnew : ∀ n ∈ c'.present, n ∈ c.present ∨ t.Loose n) (htable : b'.Orderly t.root.id)
    (hpolicy' : b'.policy = b.policy)
    (hothers : ∀ d es, d ≠ dir.id → b.entries? d = some es → b'.entries? d = some es)
    (hes' : b'.entries? dir.id = some es') (hmirrors : c'.ledger.Mirrors es') :
    (t.setChildren dir c').Coherent b' where
  tidy := (h.rooted.setChildren hdir hc htidy hpolicy hnew).tidy
  policy := hpolicy'.trans h.policy
  table := htable
  owns := (h.rooted.setChildren hdir hc htidy hpolicy hnew).owns
  arrays := (h.rooted.setChildren hdir hc htidy hpolicy hnew).arrays
  mirrors := by
    intro n cn hn hcn
    rw [children?_setChildren] at hcn
    rcases h.rooted.attached_setChildren hdir hc hnew hn with hn | ⟨hloose, hpresent⟩
    · split at hcn
      · next hserial =>
        obtain rfl := (h.owns dir hdir).eq_of_serial (h.owns n hn) hserial
        obtain ⟨_, -, rfl⟩ := Option.map_eq_some_iff.mp hcn
        exact ⟨es', hes', hmirrors⟩
      · next hserial =>
        obtain ⟨es, hes, hes_mirrors⟩ := h.mirrors n cn hn hcn
        refine ⟨es, hothers n.id es ?_ hes, hes_mirrors⟩
        intro hid
        exact hserial (congrArg Node.serial (h.attached_unique hdir hn hid.symm))
    · -- a new directory is known to the table, and nothing is known below it
      rw [if_neg (hloose.apart dir hdir)] at hcn
      have hcontent := hmirrors.present n.name n ((mem_present_iff htidy).mp hpresent)
      obtain ⟨e, he, hcontent⟩ := Option.bind_eq_some_iff.mp hcontent
      have hknown := htable.known dir.id es' hes' e (Table.mem_of_entryAt he).1 n.id n.attributes
        hcontent (h.rooted.isDirectory hloose.owns hcn)
      obtain ⟨es, hes⟩ := Option.isSome_iff_exists.mp hknown
      refine ⟨es, hes, ?_⟩
      rw [hloose.blank cn hcn]
      exact Ledger.mirrors_of_nothing (fun _ => rfl) rfl

/-- The registry and the holders of objects do not matter for the agreement. -/
theorem Coherent.frame (h : t.Coherent b) (registry : Registry) (held : List Nat) :
    ({ t with registry := registry, held := held } : Tree).Coherent b := by
  have hrooted := h.rooted.frame registry held
  exact ⟨hrooted.tidy, h.policy, h.table, hrooted.owns, hrooted.arrays,
    fun dir c hdir hc => h.mirrors dir c (hdir.frame t.registry t.held) hc⟩

/-- A node that is made is an object. -/
theorem owns_make (t : Tree) (parent : Node) (id : FileId) (name : String)
    (attributes : Attributes) :
    (t.make parent id name attributes).2.Owns (t.make parent id name attributes).1 := by
  unfold Owns cell? Tree.make
  simp [freshCell]

section Make

variable (h : t.Rooted) (parent : Node) (id : FileId) (name : String) (attributes : Attributes)

/-- Objects have numbers below the number of objects. -/
theorem Owns.serial_lt (hn : t.Owns n) : n.serial < t.cells.size := by
  refine Nat.lt_of_not_le fun hle => ?_
  unfold Owns cell? at hn
  rw [Array.getElem?_eq_none hle] at hn
  cases hn

/-- Objects stay objects when another one is made. -/
theorem Owns.make (hn : t.Owns n) : (t.make parent id name attributes).2.Owns n := by
  unfold Owns
  rwa [cell?_make_of_lt t parent id name attributes (Nat.ne_of_lt hn.serial_lt)]

include h

/-- What is attached is so before and after an object is made. -/
theorem Rooted.attached_make : (t.make parent id name attributes).2.Attached n ↔ t.Attached n := by
  refine attached_congr (fun d hd => ?_) rfl
  rw [children?_make, if_neg (Nat.ne_of_lt (h.owns d hd).serial_lt)]

/-- Making an object keeps the order. -/
theorem Rooted.make : (t.make parent id name attributes).2.Rooted where
  tidy := h.tidy.make parent id name attributes
  owns n hn := (h.owns n ((h.attached_make parent id name attributes).mp hn)).make parent id name
    attributes
  arrays := Furnished.make h.arrays parent id name attributes

/-- A node that was made is new. -/
theorem loose_make :
    (t.make parent id name attributes).2.Loose (t.make parent id name attributes).1 where
  owns := owns_make t parent id name attributes
  blank := by
    intro c hc
    have hserial : (t.make parent id name attributes).1.serial = t.cells.size := rfl
    rw [children?_make, if_pos hserial] at hc
    split at hc
    · exact (Option.some.inj hc).symm
    · cases hc
  apart := by
    intro d hd hserial
    have hlt := (h.owns d ((h.attached_make parent id name attributes).mp hd)).serial_lt
    exact Nat.ne_of_lt hlt hserial

/-- A node that is new stays so when another one is made. -/
theorem Loose.make (hn : t.Loose n) : (t.make parent id name attributes).2.Loose n where
  owns := hn.owns.make parent id name attributes
  blank := by
    intro c hc
    rw [children?_make, if_neg (Nat.ne_of_lt hn.owns.serial_lt)] at hc
    exact hn.blank c hc
  apart := fun d hd => hn.apart d ((h.attached_make parent id name attributes).mp hd)

end Make

/-- Making an object keeps the agreement. -/
theorem Coherent.make (h : t.Coherent b) (parent : Node) (id : FileId) (name : String)
    (attributes : Attributes) : (t.make parent id name attributes).2.Coherent b where
  tidy := (h.rooted.make parent id name attributes).tidy
  policy := h.policy
  table := h.table
  owns := (h.rooted.make parent id name attributes).owns
  arrays := (h.rooted.make parent id name attributes).arrays
  mirrors := by
    intro dir c hdir hc
    have hdir := (h.rooted.attached_make parent id name attributes).mp hdir
    rw [children?_make, if_neg (Nat.ne_of_lt (h.owns dir hdir).serial_lt)] at hc
    exact h.mirrors dir c hdir hc

/-- Nothing but the root is attached in a tree with nothing but its root. -/
theorem attached_ofRoot {policy : CasePolicy} {config : TreeConfig} {root : FileId} {name : String}
    (hn : (ofRoot policy config root name).Attached n) :
    n = (ofRoot policy config root name).root := by
  induction hn with
  | root => rfl
  | child _ hc hn ih =>
    subst ih
    cases hc
    rw [Children.present_empty] at hn
    cases hn

/-- A tree with nothing but its root is in order. -/
theorem rooted_ofRoot (policy : CasePolicy) (config : TreeConfig) (root : FileId) (name : String) :
    (ofRoot policy config root name).Rooted where
  tidy := tidy_ofRoot policy config root name
  owns := by
    intro n hn
    rw [attached_ofRoot hn]
    rfl
  arrays := by
    intro n cell hcell
    have hmem : cell ∈ [freshCell policy (ofRoot policy config root name).root false] :=
      Array.mem_toList_iff.mpr (Array.mem_of_getElem? hcell)
    rw [List.mem_singleton.mp hmem]
    rfl

/-- A tree with nothing but its root agrees with each table in order. -/
theorem coherent_ofRoot {policy : CasePolicy} (config : TreeConfig) {root : FileId} (name : String)
    (hpolicy : b.policy = policy) (hb : b.Orderly root) :
    (ofRoot policy config root name).Coherent b := by
  have hrooted := rooted_ofRoot policy config root name
  refine ⟨hrooted.tidy, hpolicy, hb, hrooted.owns, hrooted.arrays, fun dir c hdir hc => ?_⟩
  obtain rfl := attached_ofRoot hdir
  obtain rfl : Children.empty policy = c := Option.some.inj hc
  obtain ⟨es, hes⟩ := Option.isSome_iff_exists.mp hb.root_known
  exact ⟨es, hes, Ledger.mirrors_of_nothing (fun _ => rfl) rfl⟩

end LazyTree.Tree
