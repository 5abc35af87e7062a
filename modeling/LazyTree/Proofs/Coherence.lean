import LazyTree.Proofs.DividedNames

set_option autoImplicit false

/-!
# A tree over a table that changes

A tree and a table go through any number of actions: operations of the tree, whose questions the
table answers; new files of the table, each reported at once; and files that the table loses, each
reported at once if a child is cached for it. As long as no divided name is checked, every lookup in
every attached directory answers what the table holds at that time. Checking a divided name can go
wrong, and that is the only thing that can.

## Main definitions

* `LazyTree.TreeM.answeredBy` — the end of an operation whose questions a table answers.
* `LazyTree.Scene` — a tree and a table, and the identities that are used up.
* `LazyTree.Scene.Action`, `LazyTree.Scene.Admissible`, `LazyTree.Scene.act` — what may happen, and
  what comes of it.
* `LazyTree.Scene.Reached` — the scenes that a run of actions reaches.
* `LazyTree.Scene.Right` — all lookups answer what the table holds.

## Main results

* `LazyTree.Scene.coherent_act` — what careful actions keep.
* `LazyTree.Scene.right_of_coherent` — what that is good for.
* `LazyTree.Scene.not_right_of_divided` — what a careless action breaks.
* `LazyTree.Scene.lookups_right_iff` — all lookups of all runs are right exactly if no run comes
  across a divided name.
-/

namespace LazyTree

namespace TreeM

variable {α β : Type} {b : Table}

/-- The end of an operation whose questions a table answers. -/
def answeredBy (b : Table) (act : TreeM α) (t : Tree) : Except TreeError α × Tree :=
  let (result, t, _) := (act.run t).serve (fun q t (_ : Unit) => (b.answer q, t, ())) ()
  (result, t)

/-- What always holds at the end, over a table, does hold at the end. -/
theorem answeredBy_of_always {act : TreeM α} {t : Tree} {post : Except TreeError α → Tree → Prop}
    (h : (act.run t).Always b.world post) : post (act.answeredBy b t).1 (act.answeredBy b t).2 :=
  answered_of_always (show (act.run t).Always (Answers.world b.answer) post from h)

/-- An operation that ends without a question has ended over every table. -/
theorem answeredBy_of_run {act : TreeM α} {t t' : Tree} {result : Except TreeError α}
    (h : act.run t = .done result t') : act.answeredBy b t = (result, t') := by
  rw [answeredBy, h]
  rfl

/-- An operation whose answer is mapped leaves the tree that the operation leaves. -/
theorem answeredBy_map_snd (f : α → β) (act : TreeM α) (t : Tree) :
    ((f <$> act).answeredBy b t).2 = (act.answeredBy b t).2 := by
  unfold answeredBy
  rw [run_map]
  generalize act.run t = run
  induction run with
  | done result t => cases result <;> rfl
  | ask q t resume ih => exact ih _ _

/-- What always holds of the tree at the end, over a table, does hold of the tree that is left when
the answer is mapped. -/
theorem answeredBy_map_of_always {P : Tree → Prop} (f : α → β) {act : TreeM α} {t : Tree}
    (h : (act.run t).Always b.world fun _ t' => P t') : P ((f <$> act).answeredBy b t).2 := by
  rw [answeredBy_map_snd]
  exact answeredBy_of_always h

end TreeM

/-- A step that looks, lists or forgets, and reports no change. -/
def Command.isPlain : Command → Bool
  | .lookup _ | .lookupPath _ | .cached _ | .children | .refreshChildren | .findChildById _ _
  | .refreshAndFindChild _ | .clearChildren => true
  | _ => false

/-- Reporting that a file of a directory is gone, if a child is cached for it. -/
def Tree.reportGone (dir : Node) (name : String) : TreeM Unit := do
  match ← Tree.findCached dir name with
  | .present n => let _ ← Tree.removeChild dir n
  | _ => return

/-- A tree and a table, and the identities of the files that the table has lost. -/
structure Scene where
  /-- The tree. -/
  tree : Tree
  /-- The table. -/
  table : Table
  /-- The identities of the files that the table has lost. -/
  gone : List FileId

namespace Scene

open TreeM

/-- What may happen. -/
inductive Action where
  /-- An operation of the tree. -/
  | command (handles : Handles) (on : Operands) (command : Command)
  /-- A file comes, and is reported. -/
  | create (dir : Node) (name : String) (id : FileId) (attributes : Attributes)
  /-- A file of an attached directory goes, which is reported if a child is cached for it. -/
  | delete (dir : Node) (entry : TableEntry)
  /-- A file of another directory goes. -/
  | deleteApart (d : FileId) (entry : TableEntry)
  /-- Whoever holds objects holds others. -/
  | hold (held : List Nat)

/-- A tree with nothing but its root, over a table. -/
def start (config : TreeConfig) (root : FileId) (name : String) (table : Table) : Scene :=
  ⟨.ofRoot table.policy config root name, table, []⟩

/-- What may happen next: operations on attached directories; new files there, of new names and of
identities that were never used; and the end of any file. -/
def Admissible (s : Scene) : Action → Prop
  | .command _ on command => s.tree.AttachedDirectory on.dir ∧ command.isPlain = true
  | .create dir name id _ => s.tree.AttachedDirectory dir ∧
      s.table.Admits s.tree.root.id dir.id name id ∧ id ∉ s.gone
  | .delete dir entry => s.tree.AttachedDirectory dir ∧
      ∃ es, s.table.entries? dir.id = some es ∧ entry ∈ es
  | .deleteApart d entry => (∀ dir, s.tree.AttachedDirectory dir → dir.id ≠ d) ∧
      ∃ es, s.table.entries? d = some es ∧ entry ∈ es
  | .hold _ => True

/-- What comes of an action. -/
def act (s : Scene) : Action → Scene
  | .command handles on command =>
    { s with tree := ((command.run handles on).answeredBy s.table s.tree).2 }
  | .create dir name id attributes =>
    let table := s.table.add dir.id ⟨name, some id, some attributes⟩
    let report := Tree.newChild dir id name attributes >>= Tree.addChild dir
    { s with table := table, tree := (report.answeredBy table s.tree).2 }
  | .delete dir entry =>
    let table := s.table.remove dir.id entry.name
    { table := table
      tree := ((Tree.reportGone dir entry.name).answeredBy table s.tree).2
      gone := entry.id.toList ++ s.gone }
  | .deleteApart d entry =>
    { s with table := s.table.remove d entry.name, gone := entry.id.toList ++ s.gone }
  | .hold held => { s with tree := { s.tree with held := held } }

/-- The scenes that are reached from one by actions that are allowed. -/
inductive Reached (allowed : Scene → Action → Prop) (first : Scene) : Scene → Prop where
  /-- The first one is. -/
  | start : Reached allowed first first
  /-- What comes of an action that is allowed is. -/
  | act {s : Scene} (a : Action) (before : Reached allowed first s) (ha : allowed s a) :
    Reached allowed first (s.act a)

/-- Some attached directory has a name that is divided. -/
def Divided (s : Scene) (dir : Node) (name : String) : Prop :=
  s.tree.AttachedDirectory dir ∧ s.table.Divided dir.id name

/-- What may happen next without checking a divided name. -/
def Careful (s : Scene) (a : Action) : Prop :=
  s.Admissible a ∧
    ∀ handles on name, a = .command handles on (.refreshAndFindChild name) → ¬ s.Divided on.dir name

/-- Every lookup of a name that a file can have, in every attached directory, answers what the table
holds. -/
def Right (s : Scene) : Prop :=
  ∀ dir name, s.tree.AttachedDirectory dir → isFileName name = true →
    ∃ answer, ((Tree.lookup dir name).answeredBy s.table s.tree).1 = .ok answer ∧
      answer.Tells s.table dir.id name

variable {s : Scene}

/-- Where a tree agrees with the table, all lookups are right. -/
theorem right_of_coherent (h : s.tree.Coherent s.table) : s.Right := by
  intro dir name hdir hname
  obtain ⟨answer, hresult, htells, -⟩ :=
    (answeredBy_of_always (h.lookup hdir hname)).answer
  exact ⟨answer, hresult, htells⟩

/-! ### Careful actions -/

/-- An operation that checks no divided name keeps the agreement. -/
theorem coherent_command (h : s.tree.Coherent s.table) (handles : Handles) {on : Operands}
    (hdir : s.tree.AttachedDirectory on.dir) {command : Command} (hplain : command.isPlain = true)
    (hwhole : ∀ name, command = .refreshAndFindChild name → ¬ s.table.Divided on.dir.id name) :
    ((command.run handles on).answeredBy s.table s.tree).2.Coherent s.table := by
  obtain ⟨c, hc⟩ := h.rooted.exists_children hdir
  cases command with
  | lookup name =>
    have hkeeps := h.findChild_keeps hdir name s.tree.config.canonicalizeNames
    exact answeredBy_map_of_always _ (hkeeps.mono fun _ _ hkept => hkept.1)
  | lookupPath path => exact answeredBy_map_of_always _ (h.lookupNames hdir.attached _)
  | cached name =>
    rw [Command.run, answeredBy_map_snd, answeredBy_of_run (Tree.run_findCached hc name)]
    exact h
  | children =>
    rw [Command.run, answeredBy_map_snd, answeredBy_of_run (Tree.run_children hc)]
    exact h
  | refreshChildren => exact answeredBy_map_of_always _ (h.refreshChildren hdir)
  | findChildById source cachedOnly =>
    simp only [Command.run]
    split
    · exact h
    · exact answeredBy_map_of_always _ (h.findChildById hdir _ _)
  | refreshAndFindChild name =>
    exact answeredBy_map_of_always _ (h.refreshAndFindChild hdir (hwhole name rfl))
  | clearChildren =>
    obtain ⟨result, t', -, hrun, hcoherent, -⟩ := h.clearChildren hdir
    rw [Command.run, answeredBy_map_snd, answeredBy_of_run hrun]
    exact hcoherent
  | _ => cases hplain

/-- Reporting that a file is gone, if a child is cached for it, asks nothing and keeps the agreement
with the table that has lost it. -/
theorem coherent_reportGone (h : s.tree.Coherent s.table) {dir : Node}
    (hdir : s.tree.AttachedDirectory dir) {es : List TableEntry}
    (hes : s.table.entries? dir.id = some es) {e : TableEntry} (he : e ∈ es) :
    ∃ result t', (Tree.reportGone dir e.name).run s.tree = .done result t' ∧
      t'.Coherent (s.table.remove dir.id e.name) := by
  obtain ⟨c, hc⟩ := h.rooted.exists_children hdir
  have hname := h.table.isFileName dir.id es hes e he
  have hcached : (Tree.findCached dir e.name).run s.tree =
      .done (.ok (c.ledger.answer e.name)) s.tree := by
    rw [Tree.run_findCached hc, if_pos hname, Children.find_of_isFileName (h.array hc).2 hname]
  rw [Tree.reportGone, run_bind, hcached, Run.bind_done_ok]
  by_cases hknown : ∃ n, c.ledger.fact? e.name = some (.present n)
  · obtain ⟨n, hfact⟩ := hknown
    obtain ⟨result, t', hrun, hcoherent⟩ := h.reportGone hdir.attached hc hes he hfact
    have hanswer : c.ledger.answer e.name = .present n := by
      rw [Ledger.answer, hfact]
    rw [hanswer]
    dsimp only
    rw [run_bind, hrun]
    cases result <;> exact ⟨_, t', rfl, hcoherent⟩
  · -- nothing is cached, and nothing else is attached that has the identity of the directory
    refine ⟨.ok (), s.tree, ?_, h.unreported hes he fun dir' c' n hdir' hc' hid hfact => ?_⟩
    · cases hanswer : c.ledger.answer e.name with
      | present n => exact absurd ⟨n, Ledger.answer_eq_present_iff.mp hanswer⟩ hknown
      | absent => rfl
      | unknown => rfl
    · obtain rfl := h.attached_unique hdir' hdir.attached hid
      obtain rfl : c = c' := Option.some.inj (hc.symm.trans hc')
      exact hknown ⟨n, hfact⟩

/-- Careful actions keep the agreement of the tree with the table. -/
theorem coherent_act (h : s.tree.Coherent s.table) {a : Action} (ha : s.Careful a) :
    (s.act a).tree.Coherent (s.act a).table := by
  obtain ⟨hadmissible, hwhole⟩ := ha
  cases a with
  | command handles on command =>
    obtain ⟨hdir, hplain⟩ := hadmissible
    refine coherent_command h handles hdir hplain ?_
    rintro name rfl hdivided
    exact hwhole handles on name rfl ⟨hdir, hdivided⟩
  | create dir name id attributes =>
    obtain ⟨hdir, hadmits, -⟩ := hadmissible
    obtain ⟨result, t', hrun, hcoherent⟩ := h.reportNew hdir hadmits attributes
    simp only [act, answeredBy_of_run hrun]
    exact hcoherent
  | delete dir e =>
    obtain ⟨hdir, es, hes, he⟩ := hadmissible
    obtain ⟨result, t', hrun, hcoherent⟩ := coherent_reportGone h hdir hes he
    simp only [act, answeredBy_of_run hrun]
    exact hcoherent
  | deleteApart d e =>
    obtain ⟨hapart, es, hes, he⟩ := hadmissible
    refine h.unreported hes he fun dir c n hdir hc hid => ?_
    exact absurd hid (hapart dir ⟨hdir, h.rooted.isDirectory (h.owns dir hdir) hc⟩)
  | hold held => exact h.frame _ held

/-- Every scene that careful actions reach from one that agrees does agree. -/
theorem coherent_reached (h : s.tree.Coherent s.table) {s' : Scene}
    (hs' : Reached Careful s s') : s'.tree.Coherent s'.table := by
  induction hs' with
  | start => exact h
  | act a _ ha ih => exact coherent_act ih ha

/-! ### Careless actions -/

/-- Forgetting the children of an attached directory leaves a tree in which nothing is known of the
directory. -/
theorem exists_reached_unknown (h : s.tree.Coherent s.table) {dir : Node}
    (hdir : s.tree.AttachedDirectory dir) :
    ∃ s' c, Reached Admissible s s' ∧ s'.table = s.table ∧ s'.tree.Coherent s'.table ∧
      s'.tree.Attached dir ∧ s'.tree.children? dir = some c ∧
      ∀ name, c.ledger.answer name = .unknown := by
  obtain ⟨result, t', c, hrun, hcoherent, hdir', hc, hunknown⟩ := h.clearChildren hdir
  have htree : (s.act (.command [] ⟨dir, dir, dir⟩ .clearChildren)).tree = t' := by
    refine (answeredBy_map_snd _ (Tree.clearChildren dir) s.tree).trans ?_
    rw [answeredBy_of_run hrun]
  refine ⟨s.act (.command [] ⟨dir, dir, dir⟩ .clearChildren), c, .act _ .start ⟨hdir, rfl⟩, rfl, ?_⟩
  rw [htree]
  exact ⟨hcoherent, hdir', hc, hunknown⟩

/-- Where some attached directory has a divided name, forgetting its children and checking that name
makes a lookup go wrong. -/
theorem not_right_of_divided (h : s.tree.Coherent s.table) {dir : Node} {name : String}
    (hdivided : s.Divided dir name) : ∃ s', Reached Admissible s s' ∧ ¬ s'.Right := by
  obtain ⟨hdir, hname⟩ := hdivided
  obtain ⟨s₁, c, hreached, htable, hcoherent, hdir₁, hc, hunknown⟩ := exists_reached_unknown h hdir
  have hend := answeredBy_map_of_always Command.ofNode?
    (hcoherent.refreshAndFindChild_of_divided ⟨hdir₁, hdir.isDirectory⟩ hc hunknown
      (htable ▸ hname))
  obtain ⟨hdir₂, n, hn, hlookup, hwrong⟩ := hend
  refine ⟨s₁.act (.command [] ⟨dir, dir, dir⟩ (.refreshAndFindChild name)),
    .act _ hreached ⟨⟨hdir₁, hdir.isDirectory⟩, rfl⟩, fun hright => ?_⟩
  obtain ⟨answer, hanswer, htells⟩ := hright dir n.name ⟨hdir₂, hdir.isDirectory⟩ hn
  have hfound := hanswer.symm.trans (congrArg Prod.fst (answeredBy_of_run (b := s₁.table) hlookup))
  cases hfound
  exact hwrong htells

/-! ### All runs -/

/-- What is reached from a scene that is reached is reached. -/
theorem Reached.trans {allowed : Scene → Action → Prop} {s₁ s₂ s₃ : Scene}
    (h : Reached allowed s₁ s₂) (h' : Reached allowed s₂ s₃) : Reached allowed s₁ s₃ := by
  induction h' with
  | start => exact h
  | act a _ ha ih => exact .act a ih ha

/-- In every run without a check of a divided name, all lookups of valid names in attached
directories answer what the table holds at that time. And they do so in all runs exactly if no run
comes to a scene where an attached directory has a divided name.

**Proof sketch.** Careful actions keep the agreement of the tree with the table, and that makes all
lookups right. If no run comes across a divided name, then all actions are careful. If some run does
so, then follow it up to the first such scene, which agrees still: from there it takes two more
actions to make a lookup go wrong. -/
theorem lookups_right_iff (config : TreeConfig) {root : FileId} (name : String) {b : Table}
    (hb : b.Orderly root) :
    (∀ s, Reached Careful (start config root name b) s → s.Right) ∧
      ((∀ s, Reached Admissible (start config root name b) s → s.Right) ↔
        ∀ s, Reached Admissible (start config root name b) s →
          ∀ dir divided, ¬ s.Divided dir divided) := by
  have hstart : (start config root name b).tree.Coherent (start config root name b).table :=
    Tree.coherent_ofRoot config name rfl hb
  have hcareful : ∀ s, Reached Careful (start config root name b) s → s.Right :=
    fun s hs => right_of_coherent (coherent_reached hstart hs)
  refine ⟨hcareful, fun hright => ?_, fun hwhole s hs => hcareful s ?_⟩
  · have hcoherent : ∀ s, Reached Admissible (start config root name b) s →
        s.tree.Coherent s.table := by
      intro s hs
      induction hs with
      | start => exact hstart
      | @act s a hbefore ha ih =>
        refine coherent_act ih ⟨ha, fun handles on name _ hdivided => ?_⟩
        obtain ⟨s', hs', hwrong⟩ := not_right_of_divided ih hdivided
        exact hwrong (hright s' (hbefore.trans hs'))
    intro s hs dir divided hdivided
    obtain ⟨s', hs', hwrong⟩ := not_right_of_divided (hcoherent s hs) hdivided
    exact hwrong (hright s' (hs.trans hs'))
  · induction hs with
    | start => exact .start
    | act a hbefore ha ih =>
      exact .act a ih ⟨ha, fun _ on name _ => hwhole _ hbefore on.dir name⟩

/-! ### A divided name -/

namespace Twins

/-- The root. -/
def root : FileId := ⟨1, FileId.raw_one_ne_zero⟩

/-- A table of two files whose names differ by case only: about the first one the attributes are
missing, about the second one the identity. -/
def table : Table :=
  ⟨.sensitive, [(root, [⟨"FOO", some ⟨5, by decide⟩, none⟩, ⟨"foo", none, some default⟩])], [], []⟩

/-- The table is in order. -/
theorem orderly_table : table.Orderly root := by
  refine Table.orderly_of_single ?_ ?_ ?_ ?_ ?_
  · decide +kernel
  · simp [CasePolicy.key]
  · simp
  · simp [root]
  · decide

/-- The tree over the table, before anything happened. -/
def first : Scene := start default root "/" table

/-- The check of the second name. -/
def check : Action :=
  .command [] ⟨first.tree.root, first.tree.root, first.tree.root⟩ (.refreshAndFindChild "foo")

/-- What is said of all runs holds of those over the table with a divided name. -/
theorem lookups_right_iff_table :
    table.Orderly root ∧ (∀ s, Reached Careful (start default root "/" table) s → s.Right) ∧
      ((∀ s, Reached Admissible (start default root "/" table) s → s.Right) ↔
        ∀ s, Reached Admissible (start default root "/" table) s →
          ∀ dir divided, ¬ s.Divided dir divided) :=
  ⟨orderly_table, lookups_right_iff default "/" orderly_table⟩

/-- It is not so that all lookups of all runs are right: after the second name was checked, a lookup
of the first one finds a child, though its file has no attributes. -/
theorem not_lookups_right : ¬ ∀ (config : TreeConfig) (root : FileId) (name : String) (b : Table),
    b.Orderly root → ∀ s, Reached Admissible (start config root name b) s → s.Right := by
  intro h
  have hattached : first.tree.AttachedDirectory first.tree.root := ⟨.root, rfl⟩
  have hright := h default root "/" table orderly_table (first.act check)
    (.act check .start ⟨hattached, rfl⟩)
  have hlookup : (((Tree.lookup first.tree.root "FOO").answeredBy (first.act check).table
      (first.act check).tree).1.toOption.bind Lookup.node?).isSome = true := by
    decide +kernel
  have hmissing : (first.act check).table.content? first.tree.root.id "FOO" = none := by
    decide +kernel
  have hroot : (first.act check).tree.root = first.tree.root := by
    decide +kernel
  have hstill : (first.act check).tree.AttachedDirectory first.tree.root :=
    ⟨by rw [← hroot]; exact .root, rfl⟩
  obtain ⟨answer, hanswer, htells⟩ := hright first.tree.root "FOO" hstill (by decide +kernel)
  rw [hanswer] at hlookup
  cases answer with
  | present n => exact absurd (htells.1.symm.trans hmissing) (by simp)
  | absent => cases hlookup

end Twins

end Scene

end LazyTree
