import Mathlib
import LazyTree.Proofs.Coherence
import LazyTree.Proofs.SpelledTrees

set_option autoImplicit false

/-!
# Runs over a table whose names differ in more than case

A tree that asks for spellings goes through any number of operations over a table that stays as it
is. As long as no attached directory is searched for a stray identity, all children of attached
directories have the names that the table gives to their identities there. Such a search can go
wrong, and that is the only thing that can.

## Main definitions

* `LazyTree.Scene.Spelled` — all children of attached directories have the table's names.
* `LazyTree.Scene.Browsing` — looking, listing, checking and forgetting, over a table that stays.
* `LazyTree.Scene.Straight` — the same without a search for a stray identity.

## Main results

* `LazyTree.Scene.spelled_of_straight` — without such a search all children have the names.
* `LazyTree.Scene.exists_browsed_misspelled` — that search makes a child with another name.
* `LazyTree.Scene.children_spelled_iff` — all children of all runs have the table's names exactly if
  no run comes across a stray identity.
-/

namespace LazyTree

namespace Scene

open TreeM

variable {s : Scene}

/-- All children of attached directories have the names that the table gives to their identities
there. -/
def Spelled (s : Scene) : Prop :=
  ∀ dir c n, s.tree.Attached dir → s.tree.children? dir = some c → n ∈ c.present →
    s.table.Names dir.id n.id n.name

/-- An action that leaves the table as it is. -/
def Action.leavesTable : Action → Bool
  | .command _ _ _ | .hold _ => true
  | .create _ _ _ _ | .delete _ _ | .deleteApart _ _ => false

/-- What may happen next while the table stays: attached directories are looked at, listed, checked
and forgotten, and whoever holds objects holds others. -/
def Browsing (s : Scene) (a : Action) : Prop :=
  s.Admissible a ∧ a.leavesTable = true

/-- What may happen next without a search for a stray identity. -/
def Straight (s : Scene) (a : Action) : Prop :=
  s.Browsing a ∧ ∀ handles on source id, a = .command handles on (.findChildById source false) →
    source.resolve handles = .ok id → ¬ s.table.Stray on.dir.id id

/-- The children of a directory are forgotten. -/
def Action.forget (dir : Node) : Action :=
  .command [] ⟨dir, dir, dir⟩ .clearChildren

/-- A directory is searched for an identity. -/
def Action.search (dir : Node) (id : FileId) : Action :=
  .command [] ⟨dir, dir, dir⟩ (.findChildById (.raw id.raw) false)

/-- The names of the table are those of the children of attached directories. -/
theorem spelled_of_tree (h : s.tree.Spelled s.table) : s.Spelled :=
  fun dir c n hdir hc hn => (h.fits dir c n (h.owns hdir) hc hn).names

/-- Browsing leaves the table as it is. -/
theorem table_of_browsed {first : Scene} (hs : Reached Browsing first s) :
    s.table = first.table := by
  induction hs with
  | start => rfl
  | act a _ ha ih =>
    cases a with
    | command handles on command => exact ih
    | hold held => exact ih
    | _ => cases ha.2

/-- A step without a search for a stray identity keeps the names. -/
theorem spelled_act (hb : s.table.Folds) (h : s.tree.Spelled s.table) {a : Action}
    (ha : s.Straight a) : (s.act a).tree.Spelled (s.act a).table := by
  obtain ⟨⟨hadmissible, hleaves⟩, hstray⟩ := ha
  cases a with
  | command handles on command =>
    obtain ⟨hdir, hplain⟩ := hadmissible
    have hadded : command ≠ .addChild := by
      rintro rfl
      cases hplain
    refine answeredBy_of_always (h.command hb handles (h.owns hdir.attached) hadded ?_)
    rintro source id rfl hid
    exact hstray handles on source id rfl hid
  | hold held => exact h.frame held
  | _ => cases hleaves

/-- In every run without a search for a stray identity all children have the names of the table. -/
theorem spelled_of_straight {first : Scene} (hb : first.table.Folds)
    (h : first.tree.Spelled first.table) (hs : Reached Straight first s) :
    s.table = first.table ∧ s.tree.Spelled s.table := by
  induction hs with
  | start => exact ⟨rfl, h⟩
  | @act s a _ ha ih =>
    obtain ⟨htable, hspelled⟩ := ih
    refine ⟨?_, spelled_act (htable ▸ hb) hspelled ha⟩
    exact (table_of_browsed (.act a .start ha.1)).trans htable

/-- Where an attached directory could be searched for a stray identity, forgetting its children and
doing so makes a child of another name. -/
theorem exists_browsed_misspelled (hb : s.table.Folds) (h : s.tree.Spelled s.table) {dir : Node}
    (hdir : s.tree.AttachedDirectory dir) {id : FileId} (hstray : s.table.Stray dir.id id) :
    ∃ s', Reached Browsing s s' ∧ ¬ s'.Spelled := by
  obtain ⟨c, hc⟩ := h.rooted.exists_children hdir
  obtain ⟨result, t', c', hrun, hdir', hc', hunknown⟩ := h.rooted.clearChildren hdir.attached hc
  have hcleared : (s.act (.forget dir)).tree = t' := by
    refine (answeredBy_map_snd _ (Tree.clearChildren dir) s.tree).trans ?_
    rw [answeredBy_of_run hrun]
  have hforget : s.Straight (.forget dir) :=
    ⟨⟨⟨hdir, rfl⟩, rfl⟩, fun _ _ _ _ hsame => by cases hsame⟩
  have hspelled : (s.act (.forget dir)).tree.Spelled s.table := spelled_act hb h hforget
  rw [← hcleared] at hdir' hc'
  have hend := answeredBy_map_of_always (P := fun t' => t'.Attached dir ∧ ∃ c' n,
      t'.children? dir = some c' ∧ n ∈ c'.present ∧ ¬ s.table.Names dir.id n.id n.name)
    Command.ofNode? (hspelled.findChildById_stray hb hdir' hc' hunknown hstray)
  have hsearched : ((s.act (.forget dir)).act (.search dir id)).tree =
      ((Command.ofNode? <$> Tree.findChildById dir id false).answeredBy s.table
        (s.act (.forget dir)).tree).2 := by
    show ((Command.run [] ⟨dir, dir, dir⟩ (.findChildById (.raw id.raw) false)).answeredBy s.table
      (s.act (.forget dir)).tree).2 = _
    simp only [Command.run, IdSource.resolve, FileId.ofRaw?_raw]
  rw [← hsearched] at hend
  obtain ⟨hattached, c', n, hc', hn, hwrong⟩ := hend
  exact ⟨(s.act (.forget dir)).act (.search dir id),
    .act _ (.act _ .start hforget.1) ⟨⟨⟨hdir', hdir.isDirectory⟩, rfl⟩, rfl⟩,
    fun hright => hwrong (hright dir c' n hattached hc' hn)⟩

/-- Where case does not distinguish names and spellings are asked for, in every run over a table
that stays, without a search for a stray identity, all children of attached directories have the
names that the table gives to their identities there. And all children of all runs have them exactly
if no run comes to a scene where an attached directory could be searched for a stray identity.

**Proof sketch.** A step that is no search for a stray identity keeps the names, by cases on the
operation. If some run comes to a scene where such a search is possible, then follow it up to the
first one: all names are right there, and it takes two more steps to make a child of another name.
-/
theorem children_spelled_iff (config : TreeConfig) (hconfig : config.canonicalizeNames = true)
    (root : FileId) (name : String) {b : Table} (hb : b.Folds) :
    (∀ s, Reached Straight (start config root name b) s → s.Spelled) ∧
      ((∀ s, Reached Browsing (start config root name b) s → s.Spelled) ↔
        ∀ s, Reached Browsing (start config root name b) s →
          ∀ dir id, s.tree.AttachedDirectory dir → ¬ b.Stray dir.id id) := by
  have hstart : (start config root name b).tree.Spelled b := Tree.spelled_ofRoot hconfig b root name
  have hstraight : ∀ s, Reached Straight (start config root name b) s →
      s.table = b ∧ s.tree.Spelled s.table := fun s hs => spelled_of_straight hb hstart hs
  refine ⟨fun s hs => spelled_of_tree (hstraight s hs).2, fun hright => ?_, fun hwhole s hs => ?_⟩
  · have hnone : ∀ s, Reached Browsing (start config root name b) s → s.tree.Spelled b →
        ∀ dir id, s.tree.AttachedDirectory dir → ¬ b.Stray dir.id id := by
      intro s hs hspelled dir id hdir hstray
      have htable : s.table = b := table_of_browsed hs
      rw [← htable] at hb hspelled hstray
      obtain ⟨s', hs', hwrong⟩ := exists_browsed_misspelled hb hspelled hdir hstray
      exact hwrong (hright s' (hs.trans hs'))
    have hspelled : ∀ s, Reached Browsing (start config root name b) s → s.tree.Spelled b := by
      intro s hs
      induction hs with
      | start => exact hstart
      | @act s a hbefore ha ih =>
        have htable : s.table = b := table_of_browsed hbefore
        have hafter : (s.act a).table = b := table_of_browsed (.act a hbefore ha)
        rw [← hafter]
        refine spelled_act (htable ▸ hb) (htable ▸ ih) ⟨ha, ?_⟩
        rintro handles on source id rfl -
        rw [htable]
        exact hnone s hbefore ih on.dir id ha.1.1
    exact fun s hs => hnone s hs (hspelled s hs)
  · refine spelled_of_tree (hstraight s ?_).2
    induction hs with
    | start => exact .start
    | @act s a hbefore ha ih =>
      have htable : s.table = b := table_of_browsed hbefore
      refine .act a ih ⟨ha, ?_⟩
      rintro handles on source id rfl -
      rw [htable]
      exact hwhole s hbefore on.dir id ha.1.1

/-! ### A stray identity -/

namespace Strays

/-- The identity of the root. -/
def root : FileId := ⟨1, FileId.raw_one_ne_zero⟩

/-- The identity of a directory in it. -/
def directory : FileId := ⟨2, FileId.raw_two_ne_zero⟩

/-- The identity of the file in the directory. -/
def elsewhere : FileId := ⟨4, by decide⟩

/-- The identity of the file in the root. -/
def file : FileId := ⟨8, by decide⟩

/-- A table with a directory. -/
def bare : Table :=
  (Table.ofRoot .insensitive root).add root ⟨"d", some directory, some { directory := true }⟩

/-- The same table with two files, in the directory and in the root, whose names differ by case. -/
def table : Table :=
  (bare.add directory ⟨"Foo", some elsewhere, some {}⟩).add root ⟨"foo", some file, some {}⟩

/-- The table is in order. -/
theorem orderly_table : table.Orderly root := by
  have hempty : (Table.ofRoot .insensitive root).Orderly root :=
    Table.orderly_of_single nofun .nil nofun nofun nofun
  have hbare : bare.Orderly root := hempty.add rfl
    (Table.admits_of_new (by decide +kernel) (by decide +kernel) (by decide)) _
  have helsewhere : bare.Admits root directory "Foo" elsewhere :=
    Table.admits_of_new (by decide +kernel) (by decide +kernel) (by decide)
  exact (hbare.add rfl helsewhere {}).add rfl
    (Table.admits_of_new (by decide +kernel) (by decide +kernel) (by decide)) {}

/-- The tree over the table, before anything happened. -/
def first : Scene := start {} root "/" table

/-- The file in the root is found under the name of the other one. -/
theorem entryAt_variant : Table.entryAt table.policy
    [⟨"d", some directory, some { directory := true }⟩, ⟨"foo", some file, some {}⟩] "Foo" =
      some ⟨"foo", some file, some {}⟩ := by
  decide +kernel

/-- The identity of the file in the directory is stray in the root. -/
theorem stray_elsewhere : table.Stray root elsewhere :=
  ⟨"Foo", by cbv, by decide +kernel, _, _, file, {}, by decide +kernel, entryAt_variant, rfl, rfl,
    by decide⟩

/-- What is said of all runs holds of those over this table. In some of them a child has a name that
the table does not give it. -/
theorem children_spelled_iff_table :
    ({} : TreeConfig).canonicalizeNames = true ∧ table.Folds ∧
      (∀ s, Reached Straight first s → s.Spelled) ∧
      ¬ ∀ s, Reached Browsing first s → s.Spelled := by
  have hfolds := orderly_table.folds rfl
  obtain ⟨hstraight, hiff⟩ := children_spelled_iff {} rfl root "/" hfolds
  exact ⟨rfl, hfolds, hstraight, fun hall =>
    hiff.mp hall first .start first.tree.root elsewhere ⟨.root, rfl⟩ stray_elsewhere⟩

/-- The scene after the root was searched for the identity of the file in the directory. -/
def searched : Scene := first.act (.search first.tree.root elsewhere)

/-- The file in the root was taken over under the name of the other one. -/
theorem present_searched : (searched.tree.children? first.tree.root).map (fun c =>
    c.present.map fun n => (n.name, n.id)) = some [("Foo", file)] := by
  cbv

/-- It is not so that all children of all runs have the names that the table gives to their
identities, not even over tables in order. -/
theorem not_children_spelled : ¬ ∀ (config : TreeConfig) (root : FileId) (name : String)
    (b : Table), config.canonicalizeNames = true → b.policy = .insensitive → b.Orderly root →
    ∀ s, Reached Browsing (start config root name b) s → s.Spelled := by
  intro h
  have hspelled : searched.Spelled := h {} root "/" table rfl rfl orderly_table searched
    (.act _ .start ⟨⟨⟨.root, rfl⟩, rfl⟩, rfl⟩)
  have hroot : searched.tree.root = first.tree.root := by cbv
  obtain ⟨c, hc, hpresent⟩ := Option.map_eq_some_iff.mp present_searched
  have hmem : ("Foo", file) ∈ c.present.map fun n => (n.name, n.id) := by
    rw [hpresent]
    exact List.mem_singleton_self _
  obtain ⟨n, hn, hsame⟩ := List.mem_map.mp hmem
  obtain ⟨hname, -⟩ := Prod.mk.inj hsame
  have hwrong := hspelled first.tree.root c n (hroot ▸ .root) hc hn
  rw [hname] at hwrong
  exact Table.not_names_of_ne (orderly_table.folds rfl) (by decide +kernel) entryAt_variant
    (by decide) hwrong

end Strays

end Scene

end LazyTree
