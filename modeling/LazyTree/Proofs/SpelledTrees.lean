import Mathlib
import LazyTree.Proofs.BondedTrees

set_option autoImplicit false

/-!
# Trees with the names of a table

Where case does not distinguish names, a tree can be set to ask for the spelling of a name before it
takes a file over under that name. Then each child has the name that the table gives to its identity
in its directory: looked-up names are spelled as the table spells them, listings are, and so are the
children that a check adds. Only the search for an identity takes a name without asking for its
spelling: the one that the table knows the identity by. That is the right spelling in the directory
of the identity. In another directory it may be the name of another file, in another spelling.

## Main definitions

* `LazyTree.Table.Names` — the table gives a name to an identity in a directory.
* `LazyTree.Table.Stray` — an identity has the name of a file elsewhere, in another spelling.
* `LazyTree.Table.Folds` — a table whose names differ in more than case.
* `LazyTree.Tree.Fits`, `LazyTree.Tree.Spelled` — a child, and all children, have the names that the
  table gives them.
* `LazyTree.Tree.spelling` — to have the table's name as a bond.

## Main results

* `LazyTree.Tree.trusts_table` — what a table tells makes children of the right names.
* `LazyTree.Tree.Spelled.command` — operations keep the names, but for the search for a stray
  identity.
* `LazyTree.Tree.Spelled.findChildById_stray` — that search does not.
-/

namespace LazyTree

/-! ### Spellings -/

namespace Table

variable {b : Table} {d id : FileId} {name query : String}

/-- The table gives a name to an identity in a directory. -/
def Names (b : Table) (d id : FileId) (name : String) : Prop :=
  ∃ es, b.entries? d = some es ∧ ∃ e ∈ es, e.name = name ∧ e.id = some id

/-- A file of a directory is found under a name, but has another spelling of it. -/
def Misspells (b : Table) (d : FileId) (name : String) : Prop :=
  isFileName name = true ∧ ∃ es e id attributes, b.entries? d = some es ∧
    entryAt b.policy es name = some e ∧ e.id = some id ∧ e.attributes = some attributes ∧
    e.name ≠ name

/-- The table knows an identity by a name under which a file of the directory is found that has
another spelling of it. -/
def Stray (b : Table) (d id : FileId) : Prop :=
  ∃ name, b.nameOf id = some name ∧ b.Misspells d name

/-- A table that does not distinguish names by case, and answers from its entries alone. No two
entries of a directory have the same name. -/
structure Folds (b : Table) : Prop where
  /-- Case does not distinguish names. -/
  policy : b.policy = .insensitive
  /-- No kind of question fails. -/
  failures : ∀ kind, (b.failures.lookup kind).join = none
  /-- No spelling is fixed. -/
  spellings : b.spellings = []
  /-- No two entries of a directory have the same name. -/
  distinct : ∀ d es, b.entries? d = some es →
    es.Pairwise fun e e' => b.policy.key e.name ≠ b.policy.key e'.name

/-- A table in order is one, if case does not distinguish its names. -/
theorem Orderly.folds {root : FileId} (h : b.Orderly root) (hpolicy : b.policy = .insensitive) :
    b.Folds :=
  ⟨hpolicy, h.failures, h.spellings, h.distinct⟩

/-- An answer is the one from the entries. -/
theorem decide_of_answer {q : Query} {reply : q.Reply} (h : b.answer q = .ok reply) :
    b.decide q = .ok reply := by
  unfold answer at h
  split at h
  · cases h
  · exact h

/-- What a search in the entries finds is the entry that has the name. -/
theorem entryAt_of_find {policy : CasePolicy} {found : Option TableEntry}
    (h : b.find d name policy = .ok found) :
    ∃ es, b.entries? d = some es ∧ entryAt policy es name = found := by
  unfold find at h
  split at h
  · cases h
  · next es hes => exact ⟨es, hes, Except.ok.inj h⟩

/-- An identity that was told is that of the entry that has the name. -/
theorem exists_entry_of_resolve {policy : CasePolicy}
    (h : b.answer (.resolve d name policy) = .ok (some id)) :
    ∃ es e, b.entries? d = some es ∧ entryAt policy es name = some e ∧ e.id = some id := by
  have hdecide : (b.find d name policy).map (fun e => e.bind TableEntry.id) = .ok (some id) :=
    decide_of_answer h
  cases hfind : b.find d name policy with
  | error e =>
    rw [hfind] at hdecide
    cases hdecide
  | ok found =>
    rw [hfind] at hdecide
    obtain ⟨es, hes, rfl⟩ := entryAt_of_find hfind
    obtain ⟨e, he, hid⟩ := Option.bind_eq_some_iff.mp (Except.ok.inj hdecide)
    exact ⟨es, e, hes, he, hid⟩

/-- Attributes that were told are those of the entry that has the name. -/
theorem attributes_of_answer {es : List TableEntry} (hes : b.entries? d = some es)
    {attributes : Attributes} (h : b.answer (.attributes d name) = .ok (some attributes)) :
    (entryAt b.policy es name).bind TableEntry.attributes = some attributes := by
  have hdecide : (b.find d name b.policy).map (fun e => e.bind TableEntry.attributes) =
      .ok (some attributes) := decide_of_answer h
  unfold find at hdecide
  rw [hes] at hdecide
  exact Except.ok.inj hdecide

/-- Each line of a listing has the name that the table gives to its identity. -/
theorem names_of_list {listing : List Listed} (h : b.answer (.list d) = .ok listing) :
    ∀ line ∈ listing, b.Names d line.id line.name := by
  have hdecide := decide_of_answer h
  cases hes : b.entries? d with
  | none =>
    rw [decide, hes] at hdecide
    cases hdecide
  | some es =>
    rw [decide, hes] at hdecide
    intro line hline
    rw [← Except.ok.inj hdecide] at hline
    exact ⟨es, hes, Tree.listed_iff.mp hline⟩

/-- An identity that was told for a spelling that the table has given has that spelling for a name.
-/
theorem names_of_canonical (hb : b.Folds) (hspelling : b.answer (.canonical d name) = .ok query)
    (hid : b.answer (.resolve d query .insensitive) = .ok (some id)) : b.Names d id query := by
  obtain ⟨es, e, hes, he, hid⟩ := exists_entry_of_resolve hid
  obtain ⟨hmem, hkey⟩ := mem_of_entryAt he
  refine ⟨es, hes, e, hmem, ?_, hid⟩
  have hdecide := decide_of_answer hspelling
  simp only [decide, hb.spellings, List.lookup_nil, find, hes] at hdecide
  have hquery : ((entryAt .insensitive es name).map TableEntry.name).getD name = query :=
    Except.ok.inj hdecide
  cases hfirst : entryAt .insensitive es name with
  | none =>
    -- the table has no such name, so the spelling is the name itself, which is found nowhere
    rw [hfirst] at hquery
    obtain rfl : name = query := hquery
    rw [hfirst] at he
    cases he
  | some first =>
    rw [hfirst] at hquery
    obtain rfl : first.name = query := hquery
    rw [entryAt_congr (mem_of_entryAt hfirst).2, hfirst] at he
    exact congrArg TableEntry.name (Option.some.inj he).symm

/-- A file that was found under a name has it, unless it has another spelling of it. -/
theorem names_of_resolve (hb : b.Folds) (hname : isFileName name = true)
    (hspelled : ¬ b.Misspells d name)
    (hid : b.answer (.resolve d name .insensitive) = .ok (some id)) {attributes : Attributes}
    (hattributes : b.answer (.attributes d name) = .ok (some attributes)) : b.Names d id name := by
  obtain ⟨es, e, hes, he, hid⟩ := exists_entry_of_resolve hid
  have he' : entryAt b.policy es name = some e := hb.policy ▸ he
  have hattributes := attributes_of_answer hes hattributes
  rw [he'] at hattributes
  refine ⟨es, hes, e, (mem_of_entryAt he).1, ?_, hid⟩
  exact Decidable.not_not.mp fun hne =>
    hspelled ⟨hname, es, e, id, attributes, hes, he', hid, hattributes, hne⟩

/-- The identity and the attributes of a name are those of its entry. -/
theorem Folds.answer_entry (hb : b.Folds) {es : List TableEntry} (hes : b.entries? d = some es)
    {e : TableEntry} (he : entryAt b.policy es name = some e) :
    b.answer (.resolve d name b.policy) = .ok e.id ∧
      b.answer (.attributes d name) = .ok e.attributes := by
  have hfind : b.find d name b.policy = .ok (some e) := by
    rw [← he, find, hes]
    rfl
  constructor <;> rw [answer, hb.failures, Table.decide, hfind] <;> rfl

/-- The name of an identity is the first one that the table knows it by. -/
theorem Folds.answer_nameOf (hb : b.Folds) (id : FileId) :
    b.answer (.nameOf id) = .ok (b.nameOf id) := by
  rw [answer, hb.failures]
  rfl

/-- A name that a file of a directory has in another spelling is given to no identity there. -/
theorem not_names_of_ne (hb : b.Folds) {es : List TableEntry} (hes : b.entries? d = some es)
    {e : TableEntry} (he : entryAt b.policy es name = some e) (hne : e.name ≠ name) :
    ¬ b.Names d id name := by
  rintro ⟨es', hes', e', he', rfl, -⟩
  obtain rfl : es = es' := Option.some.inj (hes.symm.trans hes')
  rw [entryAt_of_mem (hb.distinct d es hes) he' rfl] at he
  exact hne (congrArg TableEntry.name (Option.some.inj he).symm)

end Table

namespace Tree

open TreeM

variable {t t' : Tree} {b : Table} {config : TreeConfig} {dir n : Node} {c : Children}
  {name : String}

/-! ### Trees with the names of a table -/

/-- A node is an object of the tree, with the name that the table gives to its identity in a
directory. -/
structure Fits (t : Tree) (b : Table) (dir n : Node) : Prop where
  /-- It is an object. -/
  owns : t.Owns n
  /-- It has the name. -/
  names : b.Names dir.id n.id n.name

/-- All children have the names that the table gives them; and so will those that are taken over, as
spellings are asked for. -/
structure Spelled (t : Tree) (b : Table) : Prop where
  /-- All arrays are tidy. -/
  tidy : t.Tidy
  /-- The directories among the objects have arrays. -/
  arrays : ∀ n cell, t.cell? n = some cell → cell.children.isSome = cell.node.isDirectory
  /-- Names are the same for the tree and the table. -/
  policy : t.policy = b.policy
  /-- Spellings are asked for. -/
  canonicalizes : t.config.canonicalizeNames = true
  /-- The root is an object. -/
  root : t.Owns t.root
  /-- Children have the names of the table. -/
  fits : ∀ dir c n, t.Owns dir → t.children? dir = some c → n ∈ c.present → t.Fits b dir n

/-- An object that was there before an update is the same object after it. -/
theorem owns_of_update (hupdate : Update t t') (hdir : (t.children? dir).isSome = true)
    (h : t'.Owns dir) : t.Owns dir := by
  cases hupdate with
  | make parent id name attributes =>
    obtain ⟨c, hc⟩ := Option.isSome_iff_exists.mp hdir
    rwa [Owns, cell?_make_of_lt t parent id name attributes
      (Nat.ne_of_lt (serial_lt_of_children? hc))] at h
  | change d c op => exact (owns_setChildren t d dir _).mp h
  | dirty dirty serial => exact (owns_setDirty t dir dirty serial).mp h
  | registry => exact h
  | held => exact h

/-- To have the name that the table gives binds children to the objects that stand for their
directories. -/
def spelling (b : Table) (config : TreeConfig) : Bond where
  policy := b.policy
  config := config
  stands := Owns
  binds t dir n := t.Owns dir → t.Fits b dir n
  names := b.Names
  stands_update {t t' dir} hupdate h :=
    ((stable_owns t.policy dir).update t t' hupdate ⟨rfl, h⟩).2
  binds_update {t t' _ n} hupdate hdir hn howns := by
    obtain ⟨hold, hnames⟩ := hn (owns_of_update hupdate hdir howns)
    exact ⟨((stable_owns t.policy n).update t t' hupdate ⟨rfl, hold⟩).2, hnames⟩
  stands_child h hn := (hn h).owns
  binds_make {t dir id name} _ hdir hnames attributes d hd howns := by
    obtain rfl : d = dir := howns.eq_of_serial (hdir.make dir id name attributes) hd
    exact ⟨owns_make t d id name attributes, hnames⟩

/-- No update loses the root or the array of a directory. -/
theorem stable_grounded (policy : CasePolicy) (root : Node) : Stable policy fun t =>
    t.policy = policy ∧ t.root = root ∧ t.Owns root ∧ t.Furnished where
  policy _ h := h.1
  update := by
    rintro t t' hupdate ⟨hpolicy, hroot, howns, hfurnished⟩
    obtain ⟨hpolicy', howns'⟩ := (stable_owns policy root).update t t' hupdate ⟨hpolicy, howns⟩
    refine ⟨hpolicy', ?_, howns', hfurnished.update hupdate⟩
    cases hupdate <;> exact hroot

namespace Spelled

/-- The children are bound by their names. -/
theorem bonded (h : t.Spelled b) : t.Bonded (spelling b t.config) :=
  ⟨h.tidy, h.policy, rfl, fun dir c n hc hn hdir => h.fits dir c n hdir hc hn⟩

/-- Attached nodes are objects. -/
theorem owns (h : t.Spelled b) (hn : t.Attached n) : t.Owns n := by
  induction hn with
  | root => exact h.root
  | child _ hc hn ih => exact (h.fits _ _ _ ih hc hn).owns

/-- The tree is in order. -/
theorem rooted (h : t.Spelled b) : t.Rooted :=
  ⟨h.tidy, fun _ hn => h.owns hn, h.arrays⟩

/-- Where children are bound by their names, and neither the root nor an array has been lost, all
have the names of the table. -/
theorem of_bonded (h : t.Spelled b) (hbonded : t'.Bonded (spelling b t.config))
    (hgrounded : t'.policy = b.policy ∧ t'.root = t.root ∧ t'.Owns t.root ∧ t'.Furnished) :
    t'.Spelled b where
  tidy := hbonded.tidy
  arrays := hgrounded.2.2.2
  policy := hbonded.policy
  canonicalizes := hbonded.config ▸ h.canonicalizes
  root := hgrounded.2.1 ▸ hgrounded.2.2.1
  fits dir c n hdir hc hn := hbonded.binds dir c n hc hn hdir

/-- Who holds objects does not matter. -/
theorem frame (h : t.Spelled b) (held : List Nat) : ({ t with held := held } : Tree).Spelled b :=
  h.of_bonded (h.bonded.frame t.registry held) ⟨h.policy, rfl, h.root, h.arrays⟩

end Spelled

/-! ### Operations -/

/-- What a table tells makes children of the right names. -/
theorem trusts_table (hb : b.Folds) (config : TreeConfig) :
    (spelling b config).Trusts b.world where
  happens := by
    rintro q t reply t' ⟨-, rfl⟩
    exact .refl _
  bonded := by
    rintro q t reply t' ⟨-, rfl⟩ h
    exact h
  list := by
    rintro d listing ⟨t, t', hreply, -⟩
    exact Table.names_of_list hreply.symm
  spelled := by
    rintro d name query id ⟨-, -, hquery, -⟩ ⟨-, -, hid, -⟩
    exact Table.names_of_canonical hb hquery.symm (hb.policy ▸ hid.symm)

/-- What is found under a name has it, if no file has another spelling of it. -/
theorem sure_of_not_misspells (hb : b.Folds) {d : FileId} (hname : isFileName name = true)
    (hspelled : ¬ b.Misspells d name) : (spelling b config).Sure b.world d name := by
  rintro id attributes ⟨-, -, hid, -⟩ ⟨-, -, hattributes, -⟩
  exact Table.names_of_resolve hb hname hspelled (hb.policy ▸ hid.symm) hattributes.symm

/-- An operation keeps the names, but for the search for a stray identity. -/
theorem Spelled.command (h : t.Spelled b) (hb : b.Folds) (handles : Handles) {on : Operands}
    (hdir : t.Owns on.dir) {command : Command} (hadded : command ≠ .addChild)
    (hstray : ∀ source id, command = .findChildById source false →
      source.resolve handles = .ok id → ¬ b.Stray on.dir.id id) :
    ((command.run handles on).run t).Always b.world fun _ t' => t'.Spelled b := by
  have hw := trusts_table hb t.config
  have hbonded := h.bonded.command hw handles hdir (fun hadd => absurd hadd hadded)
    (fun hplain => ?_) fun source id hcommand hid name hknown hname => ?_
  · have hgrounded := hw.stable (stable_grounded b.policy t.root)
      ((stable_grounded b.policy t.root).command handles on command)
      ⟨h.policy, rfl, h.root, h.arrays⟩
    exact (hbonded.and hgrounded).mono fun _ t' hboth => h.of_bonded hboth.1 hboth.2
  · -- spellings are asked for
    have hspelling : (spelling b t.config).config.canonicalizeNames = true := h.canonicalizes
    have hsensitive : (spelling b t.config).policy = .insensitive := hb.policy
    rw [hspelling, hsensitive] at hplain
    cases hplain
  · obtain ⟨t₁, t₂, hreply, -⟩ := hknown
    have hknown : b.nameOf id = some name :=
      Except.ok.inj (Table.decide_of_answer hreply.symm : (.ok (b.nameOf id) : Except _ _) = _)
    exact sure_of_not_misspells hb hname fun hmisspells =>
      hstray source id hcommand hid ⟨name, hknown, hmisspells⟩

/-! ### The tree before anything happened -/

/-- A tree with nothing but its root has no child with another name. -/
theorem spelled_ofRoot {config : TreeConfig} (hconfig : config.canonicalizeNames = true)
    (b : Table) (root : FileId) (name : String) :
    (ofRoot b.policy config root name).Spelled b := by
  have hrooted := rooted_ofRoot b.policy config root name
  have hbonded := bonded_ofRoot (spelling b config) root name
  exact ⟨hrooted.tidy, hrooted.arrays, rfl, hconfig, hrooted.owns _ .root,
    fun dir c n hdir hc hn => hbonded.binds dir c n hc hn hdir⟩

/-! ### Stray identities -/

/-- A child that is found by its identity is in the array. -/
theorem mem_present_of_findById (hc : c.Tidy) {id : FileId} (h : c.findById id = some n) :
    n ∈ c.present := by
  obtain ⟨slot, hslot, hchild⟩ := List.mem_filterMap.mp (List.mem_of_find?_eq_some h)
  cases slot with
  | absent name => cases hchild
  | present child =>
    cases hchild
    exact hc.mem_present_iff_slot.mpr (Array.mem_toList_iff.mp hslot)

/-- An array of which nothing is known has no child with any identity. -/
theorem findById_of_unknown (hc : c.Tidy) (hunknown : ∀ name, c.ledger.answer name = .unknown)
    (id : FileId) : c.findById id = none := by
  cases hfound : c.findById id with
  | none => rfl
  | some n =>
    have hknown := Ledger.answer_eq_present_iff.mpr
      ((mem_present_iff hc).mp (mem_present_of_findById hc hfound))
    rw [hunknown] at hknown
    cases hknown

/-- The search for a stray identity, in a directory of which nothing is known, makes a child there
of a name that the table does not give it.

**Proof sketch.** The table knows the identity by a name under which a file of the directory is
found. That file is taken over under the name, though its own spelling is another one. -/
theorem Spelled.findChildById_stray (h : t.Spelled b) (hb : b.Folds) (hdir : t.Attached dir)
    (hc : t.children? dir = some c) (hunknown : ∀ name, c.ledger.answer name = .unknown)
    {id : FileId} (hstray : b.Stray dir.id id) :
    ((Tree.findChildById dir id false).run t).Always b.world fun _ t' =>
      t'.Attached dir ∧ ∃ c' n, t'.children? dir = some c' ∧ n ∈ c'.present ∧
        ¬ b.Names dir.id n.id n.name := by
  obtain ⟨name, hknown, hname, es, e, found, attributes, hes, he, hfound, hattributes, hne⟩ :=
    hstray
  obtain ⟨hresolved, htold⟩ := hb.answer_entry hes he
  have hfree := Ledger.fact?_of_answer_unknown (hunknown name)
  have hasked : (Tree.findChild dir name false).run t =
      (Tree.askFor dir name name b.policy).run t := by
    rw [run_findChild, hc, ← h.policy]
    simp only [hname, if_true, Children.find_of_isFileName (h.tidy dir c hc).2 hname, hunknown]
    rfl
  rw [Tree.findChildById, run_childrenOf_bind hc, findById_of_unknown (h.tidy dir c hc).2 hunknown]
  refine (always_asked (hb.answer_nameOf id)).mpr ?_
  rw [hknown]
  dsimp only
  rw [run_bind, hasked, Run.always_bind_iff]
  refine (always_asked hresolved).mpr ?_
  rw [hfound]
  refine (always_asked htold).mpr ?_
  rw [hattributes, run_recordAnswer_found h.tidy hc]
  have hmade : Made t (t.make dir found name attributes).2 := .make _ _ _ _ (.refl _)
  have hrooted := h.rooted.make dir found name attributes
  have hdir' := hmade.attached hdir
  have hc' := hmade.children? hc
  have hnode : (t.make dir found name attributes).1.name = name := rfl
  generalize t.make dir found name attributes = made at *
  obtain ⟨node, t₁⟩ := made
  dsimp only at *
  subst hnode
  have hrecorded := Ledger.insertIfUnknown_of_unknown hfree
  have hop : Children.Op.Admissible c.policy (.insertIfUnknown node) := trivial
  have hfollows := Children.apply_follows (h.tidy dir c hc).2 hop
  have hmem : node ∈ (c.apply (.insertIfUnknown node)).2.present := by
    rw [mem_present_iff hfollows.tidy, hfollows.ledger, Ledger.apply, hrecorded,
      Ledger.fact?_record, if_pos rfl]
  rw [foldl_register_eq]
  exact ⟨(Attached.change_self hrooted.owns hdir' _).frame _ _, _, node,
    children?_setChildren_self hc' _, hmem, Table.not_names_of_ne hb hes he hne⟩

end Tree

end LazyTree
