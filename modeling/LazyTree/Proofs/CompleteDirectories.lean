import LazyTree.Proofs.RepeatedLookups
import LazyTree.Proofs.Traffic

set_option autoImplicit false

/-!
# Directories whose children are all known

Once the children of a directory are known to be all there are, the directory answers by itself.
Looking a name up, in the array or with the backend at hand, and listing the directory, from the
array or anew, end in the turn in which they begin and change nothing; a name is found if a child has
it, and is missing otherwise. So it goes on, in whatever traffic, until the children are forgotten:
nothing else makes the directory incomplete, also no operation that began earlier.

## Main definitions

* `LazyTree.Traffic.AnswersAlone` — a directory answers from its array at once.

## Main results

* `LazyTree.Ledger.complete_apply` — only one change makes what is known incomplete.
* `LazyTree.Tree.custom_complete` — updates leave a directory complete, unless its children are
  forgotten.
* `LazyTree.Traffic.answersAlone` — a complete directory answers by itself.
* `LazyTree.Traffic.complete_until_cleared` — a directory that is complete stays so, and answers by
  itself, until its children are forgotten.
-/

namespace LazyTree

/-! ### Complete arrays -/

namespace Children

variable {c : Children}

/-- A complete array has no absent names. -/
theorem Tidy.absentNames_eq_nil (h : c.Tidy) (hloaded : c.allLoaded = true) :
    c.absentNames = [] := by
  obtain ⟨ps, as, hslots, -, hnone⟩ := Zones.tidy_iff.mp h
  rw [absentNames, hslots, Zones.absentNames_ofParts, hnone hloaded]

/-- A complete array tells of each name that a child has it, or that none has. -/
theorem Tidy.exists_answer (h : c.Tidy) (hloaded : c.allLoaded = true) (name : String) :
    ∃ answer : Lookup, (if isFileName name then c.find name else .absent) = answer.knowledge ∧
      ∀ n, answer = .present n ↔
        isFileName name = true ∧ n ∈ c.present ∧ c.policy.same n.name name = true := by
  split
  · next hname =>
    have hanswer (n : Node) : c.ledger.answer name = .present n ↔
        n ∈ c.present ∧ c.policy.same n.name name = true :=
      Ledger.answer_eq_present_iff.trans (h.factAt_eq_present_iff.trans
        (and_congr_right fun _ => CasePolicy.same_iff.symm))
    rw [find_of_isFileName h hname]
    cases hfound : c.ledger.answer name with
    | present n => exact ⟨.present n, rfl, fun n' => by rw [← hanswer n', hfound]; simp [hname]⟩
    | absent => exact ⟨.absent, rfl, fun n => by rw [← hanswer n, hfound]; simp⟩
    | unknown =>
      have hcomplete : c.ledger.complete = true := hloaded
      rw [Ledger.answer, hcomplete] at hfound
      split at hfound <;> cases hfound
  · next hname => exact ⟨.absent, rfl, fun n => by simp [hname]⟩

end Children

/-! ### Complete directories -/

namespace Tree

open TreeM

variable {t : Tree} {dir : Node} {c : Children}

/-- A directory that is complete stays so in every update, unless its children are forgotten. -/
theorem custom_complete (policy : CasePolicy) (dir : Node) :
    Custom policy (fun d => d.serial ≠ dir.serial) fun t t' => t.Complete dir → t'.Complete dir where
  refl _ h := h
  trans h h' hc := h' (h hc)
  make t parent id name attributes := by
    rintro ⟨c, hc, hloaded⟩
    exact ⟨c, children?_make_of_children? hc parent id name attributes, hloaded⟩
  change := by
    rintro t d c op ht hc hop hclear ⟨c', hc', hloaded⟩
    by_cases hserial : d.serial = dir.serial
    · have hclear : op ≠ .clear := fun h => hclear h hserial
      have hop : op.Admissible c.policy := by rwa [(ht.1 d c hc).1, ht.2]
      have hfollows := Children.apply_follows (ht.1 d c hc).2 hop
      rw [← children?_congr hserial, hc] at hc'
      cases hc'
      refine ⟨(c.apply op).2, ?_, ?_⟩
      · rw [← children?_congr hserial]
        exact children?_setChildren_self hc _
      · have hcomplete : (c.apply op).2.ledger.complete = true := by
          rw [hfollows.ledger]
          exact Ledger.complete_apply hclear hloaded
        exact hcomplete
    · exact ⟨c', by rw [children?_setChildren, if_neg hserial, hc'], hloaded⟩
  dirty t dirty serial := by
    rintro ⟨c, hc, hloaded⟩
    exact ⟨c, by rw [children?_setDirty, hc], hloaded⟩
  registry _ _ _ h := h
  held _ _ h := h

/-- Listing a complete directory gives the cached children at once. -/
theorem run_refreshChildren (hc : t.children? dir = some c) (hloaded : c.allLoaded = true) :
    (refreshChildren dir).run t = .done (.ok c.present) t := by
  refine (run_childrenOf_bind hc _).trans ?_
  rw [if_pos hloaded]
  rfl

/-- Looking a name up ends at once if the array tells. -/
theorem run_lookup (hc : t.children? dir = some c) {name : String} {answer : Lookup}
    (hanswer : (if isFileName name then c.find name else .absent) = answer.knowledge) :
    (lookup dir name).run t = .done (.ok answer) t := by
  rw [lookup, run_bind, run_get, Run.bind_done_ok, run_findChild, hc]
  dsimp only
  rw [hanswer]
  cases answer <;> rfl

end Tree

namespace Traffic

/-- A directory answers from its array at once: to list it gives the children in the array, to look a
name up gives the child there that has it, if there is one, and neither asks or changes anything. -/
structure AnswersAlone (s : Traffic) (dir : Node) (c : Children) : Prop where
  /-- The array lists the children. -/
  children : ∀ handles (on : Operands), on.dir.serial = dir.serial →
    s.turn (.begin handles on .children) = ([.ok (.nodes c.present)], s)
  /-- So does a listing anew. -/
  refreshChildren : ∀ handles (on : Operands), on.dir.serial = dir.serial →
    s.turn (.begin handles on .refreshChildren) = ([.ok (.nodes c.present)], s)
  /-- The array tells of each name that a child has it, or that none has, and so does a lookup. -/
  names : ∀ name, ∃ answer : Lookup,
    (∀ n, answer = .present n ↔
      isFileName name = true ∧ n ∈ c.present ∧ c.policy.same n.name name = true) ∧
    ∀ handles (on : Operands), on.dir.serial = dir.serial →
      s.turn (.begin handles on (.lookup name)) = ([.ok (Command.ofLookup answer)], s) ∧
      s.turn (.begin handles on (.cached name)) = ([.ok (Command.ofLookup answer)], s)

/-- An operation that ends at once with a mapped answer, and leaves the tree as it is, has a turn that
changes nothing. -/
theorem turn_begin_map {α : Type} {s : Traffic} {handles : Handles} {on : Operands}
    {command : Command} {f : α → StepReply Node} {act : TreeM α}
    (hcommand : command.run handles on = f <$> act) {a : α}
    (hact : act.run s.tree = .done (.ok a) s.tree) :
    s.turn (.begin handles on command) = ([.ok (f a)], s) := by
  rw [turn, hcommand, TreeM.run_map, hact]
  rfl

/-- A complete directory answers by itself. -/
theorem answersAlone {s : Traffic} {dir : Node} {c : Children} (hc : s.tree.children? dir = some c)
    (htidy : c.Tidy) (hloaded : c.allLoaded = true) : s.AnswersAlone dir c where
  children handles on hserial := by
    have hc := (Tree.children?_congr hserial).trans hc
    exact turn_begin_map rfl (Tree.run_children hc)
  refreshChildren handles on hserial := by
    have hc := (Tree.children?_congr hserial).trans hc
    exact turn_begin_map rfl (Tree.run_refreshChildren hc hloaded)
  names name := by
    obtain ⟨answer, hanswer, hpresent⟩ := htidy.exists_answer hloaded name
    refine ⟨answer, hpresent, fun handles on hserial => ?_⟩
    have hc := (Tree.children?_congr hserial).trans hc
    have hcached : (Tree.findCached on.dir name).run s.tree =
        .done (.ok answer.knowledge) s.tree := hanswer ▸ Tree.run_findCached hc name
    have hreply : Command.ofKnowledge answer.knowledge = Command.ofLookup answer := by
      cases answer <;> rfl
    exact ⟨turn_begin_map rfl (Tree.run_lookup hc hanswer), hreply ▸ turn_begin_map rfl hcached⟩

/-- A directory that is complete at some stage stays so until its children are forgotten: as long as
no turn does that, it has no absent names, and answers by itself, whatever else began earlier or
begins meanwhile, and whatever it is answered.

**Proof sketch.** Of the changes of an array only one takes from what is known that it is complete:
the others keep the flag or set it. So completeness is a move of all updates but that one, for an
operation that was under way before as for any other, and by induction it is one of any number of
turns. Arrays are tidy throughout, and a tidy array that is complete holds children alone. -/
theorem complete_until_cleared (policy : CasePolicy) (config : TreeConfig) (id : FileId)
    (name : String) (before after : List Turn) {dir : Node}
    (hcomplete : ((start policy config id name).run before).2.tree.Complete dir)
    (hafter : ∀ next ∈ after, ∀ cleared ∈ next.cleared?, cleared.serial ≠ dir.serial) :
    let s := ((start policy config id name).run (before ++ after)).2
    ∃ c, s.tree.children? dir = some c ∧ c.policy = policy ∧ c.allLoaded = true ∧
      c.absentNames = [] ∧ s.AnswersAlone dir c := by
  intro s
  have hkind := Tree.custom_complete policy dir
  have hbefore : GoesWell policy _ ((start policy config id name).run before) :=
    (orderly_start config id name).run hkind before
  have hs : s = (((start policy config id name).run before).2.run after).2 := by
    rw [← congrArg Prod.snd (run_append (start policy config id name) before after)]
  obtain ⟨c, hc, hloaded⟩ : s.tree.Complete dir := by
    rw [hs]
    exact hbefore.orderly.moved_run hkind hafter hcomplete
  have hlast : GoesWell policy _ (((start policy config id name).run before).2.run after) :=
    hbefore.orderly.run hkind after
  obtain ⟨htidy, hpolicy⟩ := hlast.orderly.tidy
  rw [← hs] at htidy hpolicy
  obtain ⟨hsame, hctidy⟩ := htidy dir c hc
  exact ⟨c, hc, hsame.trans hpolicy, hloaded, hctidy.absentNames_eq_nil hloaded,
    answersAlone hc hctidy hloaded⟩

/-! ### A lookup that waits while a directory is listed

A lookup has begun when the directory is listed. Then the file appears for which it asks, the lookup
adds it, and the file that was listed goes. -/

namespace ListedMeanwhile

/-- The root of the tree. -/
def root : Node :=
  ⟨0, ⟨1, FileId.raw_one_ne_zero⟩, "root", none, { directory := true }⟩

/-- The file that is listed. -/
def listed : Node :=
  ⟨1, ⟨2, FileId.raw_two_ne_zero⟩, "b", some root.id, {}⟩

/-- The backend while the directory is listed. -/
def table : Table :=
  (Table.ofRoot .insensitive root.id).add root.id ⟨"b", some listed.id, some {}⟩

/-- The backend after another file appeared. -/
def grown : Table :=
  table.add root.id ⟨"a", some ⟨3, by decide⟩, some {}⟩

/-- An operation on the root and the file begins. -/
def begins (command : Command) : Turn :=
  .begin [] ⟨root, root, listed⟩ command

/-- The directory is listed while a lookup waits. -/
def before : List Turn :=
  [begins (.lookup "A"), begins .refreshChildren, .answer 0 table.answer, .answer 0 table.answer]

/-- The lookup ends, and the file goes. -/
def after : List Turn :=
  [.answer 0 grown.answer, .answer 0 grown.answer, .answer 0 grown.answer, begins .removeChild]

/-- In the end the directory holds the other file alone, and answers by itself. -/
theorem complete_until_cleared_overtaken :
    let s := ((start .insensitive {} root.id "root").run (before ++ after)).2
    ((start .insensitive {} root.id "root").run before).2.tree.Complete root ∧
      ∃ c, s.tree.children? root = some c ∧ c.present.map Node.name = ["a"] ∧
        c.allLoaded = true ∧ c.absentNames = [] ∧ s.AnswersAlone root c := by
  intro s
  have hloaded : (((start .insensitive {} root.id "root").run before).2.tree.children? root).any
      Children.allLoaded = true := by decide +kernel
  have hcomplete : ((start .insensitive {} root.id "root").run before).2.tree.Complete root :=
    (Option.any_eq_true Children.allLoaded _).mp hloaded
  obtain ⟨c, hc, -, hkept, habsent, hanswers⟩ := complete_until_cleared .insensitive {} root.id
    "root" before after hcomplete (by simp [after, begins, Turn.cleared?])
  have hnames : (s.tree.children? root).map (fun c => c.present.map Node.name) = some ["a"] := by
    decide +kernel
  rw [hc] at hnames
  exact ⟨hcomplete, c, hc, Option.some.inj hnames, hkept, habsent, hanswers⟩

end ListedMeanwhile

end Traffic

end LazyTree
