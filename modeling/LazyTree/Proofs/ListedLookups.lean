import LazyTree.Proofs.NodePaths
import LazyTree.Proofs.SoundRegistry
import LazyTree.Proofs.Traffic

set_option autoImplicit false

/-!
# Listed children are found, if files can have their names

A lookup does not search the array for a text that no file can have as its name: it answers that
there is no such child, and asks nothing. No way by which children come into an array looks at their
names. A backend may list a name with a separator in it, and may give it as its spelling of another
name, and whoever adds a child may call it what they like. So of the children in a list those are
found under their own names whose names files can have, and no others.

## Main definitions

* `LazyTree.Tree.Finds` — a child is found under its own name, in every way of looking for it.
* `LazyTree.Tree.Misses` — a child is listed, and is said not to be there.

## Main results

* `LazyTree.Traffic.listed_found` — at every stage of any traffic, the names of the children in a
  list decide which of them are found.
-/

namespace LazyTree

namespace Tree

open TreeM

variable {t : Tree} {dir n : Node} {c : Children}

/-- A child is found under its own name: looking the name up answers the very child, from the array
alone as well as with a backend at hand, which is not asked, and so does the path from an object
that consists of the name. -/
structure Finds (t : Tree) (dir n : Node) : Prop where
  /-- A lookup answers the child. -/
  lookup : (lookup dir n.name).run t = .done (.ok (.present n)) t
  /-- So does the array. -/
  cached : (findCached dir n.name).run t = .done (.ok (.present n)) t
  /-- So does the path. -/
  path : t.Owns dir → (lookupPath dir n.name).run t = .done (.ok (.present n)) t

/-- Looking the name of a child up answers that there is no such child, from the array alone as well
as with a backend at hand, which is not asked. -/
structure Misses (t : Tree) (dir n : Node) : Prop where
  /-- A lookup answers that there is no such child. -/
  lookup : (lookup dir n.name).run t = .done (.ok .absent) t
  /-- So does the array. -/
  cached : (findCached dir n.name).run t = .done (.ok .absent) t

/-- A name of a file is a path of one step. -/
theorem components_of_isFileName {name : String} (h : isFileName name = true) :
    components name = [name] := by
  have hsplit := List.splitOn_intercalate '/' (List.forall_mem_singleton.mpr (separator_not_mem h))
    (List.cons_ne_nil _ _)
  have htexts : name.toList.splitOn '/' = [name.toList] := by
    rwa [List.intercalate_singleton] at hsplit
  rw [components, htexts, List.map_singleton, String.ofList_toList]
  exact List.filter_eq_self.mpr (List.forall_mem_singleton.mpr (isStep_of_isFileName h))

/-- In a tidy tree a child is found if files can have its name. -/
theorem Tidy.finds (ht : t.Tidy) (hfurnished : t.Furnished) (hc : t.children? dir = some c)
    (hn : n ∈ c.present) (hname : isFileName n.name = true) : t.Finds dir n where
  lookup := run_lookup_child ht hc hn hname
  cached := by
    have hfact := (mem_present_iff (ht dir c hc).2).mp hn
    rw [run_findCached hc, if_pos hname, Children.find_of_isFileName (ht dir c hc).2 hname,
      Ledger.answer_eq_present_iff.mpr hfact]
  path hdir := by
    have hdirectory := hfurnished.isDirectory hdir hc
    rw [lookupPath, components_of_isFileName hname,
      run_lookupNames_cons ht hc hn hname hdirectory]
    rfl

/-- A child is not found if no file can have its name. -/
theorem misses (hc : t.children? dir = some c) (hname : isFileName n.name = false) :
    t.Misses dir n where
  lookup := by
    have hrun : (lookup dir n.name).run t =
        (findChild dir n.name t.config.canonicalizeNames).run t := rfl
    rw [hrun, run_findChild, hc]
    simp [hname]
  cached := by
    rw [run_findCached hc]
    simp [hname]

/-- Whatever is done, the directories among the objects have arrays. -/
theorem custom_furnished (policy : CasePolicy) :
    Custom policy (fun _ => True) fun t t' => t.Furnished → t'.Furnished where
  refl _ := id
  trans hfirst hsecond h := hsecond (hfirst h)
  make _ dir id name attributes h := h.make dir id name attributes
  change _ _ _ _ h := h.setChildren _ _
  dirty _ dirty serial h := h.setDirty dirty serial
  registry _ _ _ h := h
  held _ _ h := h

/-- The list of a directory is that of its array. -/
theorem exists_children_of_run {nodes : List Node}
    (h : (children dir).run t = .done (.ok nodes) t) :
    ∃ c, t.children? dir = some c ∧ c.present = nodes := by
  cases hc : t.children? dir with
  | none =>
    have hrun : (children dir).run t = _ := run_childrenOf_bind_none hc _
    rw [hrun] at h
    cases h
  | some c =>
    rw [run_children hc] at h
    injection h with h
    exact ⟨c, rfl, Except.ok.inj h⟩

end Tree

namespace Traffic

/-- What is listed is found, if files can have its name. At every stage of any traffic, whatever
the backend answers and whatever is added under whatever name, for each child in the list of a
directory: if a file can have its name, then looking the name up in the directory answers that very
child without a question, and so do the array alone and the path of that name; and if no file can
have its name, then a lookup and the array alone answer, without a question, that there is no such
child. -/
theorem listed_found (policy : CasePolicy) (config : TreeConfig) (id : FileId) (name : String)
    (turns : List Turn) {dir n : Node} {nodes : List Node}
    (hlisted : (Tree.children dir).run ((start policy config id name).run turns).2.tree =
      .done (.ok nodes) ((start policy config id name).run turns).2.tree) (hn : n ∈ nodes) :
    let t := ((start policy config id name).run turns).2.tree
    (isFileName n.name = true → t.Finds dir n) ∧ (isFileName n.name = false → t.Misses dir n) := by
  intro t
  have hkind := Tree.custom_furnished policy
  have hafter : GoesWell policy _ ((start policy config id name).run turns) :=
    (orderly_start config id name).run hkind turns
  have htidy : t.Tidy := hafter.orderly.tidy.1
  have hfurnished : t.Furnished := (orderly_start config id name).moved_run hkind
    (fun _ _ _ _ => trivial) (Tree.rooted_ofRoot policy config id name).arrays
  obtain ⟨c, hc, rfl⟩ := Tree.exists_children_of_run hlisted
  exact ⟨htidy.finds hfurnished hc hn, Tree.misses hc⟩

/-! ### A listing with a separator in a name -/

namespace OddNames

/-- The root of the tree. -/
def root : Node :=
  ⟨0, ⟨1, FileId.raw_one_ne_zero⟩, "root", none, { directory := true }⟩

/-- A file under the name of a path of two steps. -/
def odd : Node :=
  ⟨1, ⟨2, FileId.raw_two_ne_zero⟩, "a/b", some root.id, {}⟩

/-- A file under a name that files can have. -/
def plain : Node :=
  ⟨2, ⟨3, FileId.raw_three_ne_zero⟩, "a", some root.id, {}⟩

/-- A backend that lists the first of the two. -/
def table : Table :=
  (Table.ofRoot .sensitive root.id).add root.id ⟨"a/b", some odd.id, some {}⟩

/-- An operation on the root and the second file begins. -/
def begins (command : Command) : Turn :=
  .begin [] ⟨root, root, plain⟩ command

/-- The directory is listed, and then the other file is added. -/
def turns : List Turn :=
  [begins .refreshChildren, .answer 0 table.answer, .answer 0 table.answer,
    begins (.newChild 3 "a" {}), begins .addChild]

/-- The tree with both files. -/
def listed : Tree :=
  ((start .sensitive {} root.id "root").run turns).2.tree

/-- The array holds both files. -/
theorem exists_children : ∃ c, listed.children? root = some c ∧ c.present = [plain, odd] := by
  have hpresent : (listed.children? root).map Children.present = some [plain, odd] := by
    decide +kernel
  exact Option.map_eq_some_iff.mp hpresent

/-- Both files are listed. -/
theorem run_children : (Tree.children root).run listed = .done (.ok [plain, odd]) listed := by
  obtain ⟨c, hc, hpresent⟩ := exists_children
  rw [Tree.run_children hc, hpresent]

/-- Of the two files in the list one is found and the other is not. -/
theorem listed_found_plain : (Tree.children root).run listed = .done (.ok [plain, odd]) listed ∧
    listed.Finds root plain ∧ listed.Misses root odd :=
  ⟨run_children,
    (listed_found .sensitive {} root.id "root" turns run_children (n := plain) (by decide)).1
      (by decide),
    (listed_found .sensitive {} root.id "root" turns run_children (n := odd) (by decide)).2
      (by decide)⟩

/-- Not every child in a list is found under its own name. -/
theorem not_listed_found : ¬ ∀ (policy : CasePolicy) (config : TreeConfig) (id : FileId)
    (name : String) (turns : List Turn) (dir n : Node) (nodes : List Node),
    let t := ((start policy config id name).run turns).2.tree
    (Tree.children dir).run t = .done (.ok nodes) t → n ∈ nodes → t.Finds dir n := by
  intro h
  obtain ⟨c, hc, -⟩ := exists_children
  have hfinds : listed.Finds root odd :=
    h .sensitive {} root.id "root" turns root odd [plain, odd] run_children (by decide)
  have hmisses : listed.Misses root odd := Tree.misses hc (by decide)
  have hsame := hfinds.lookup.symm.trans hmisses.lookup
  injection hsame with hsame
  cases hsame

end OddNames

end Traffic

end LazyTree
