import Mathlib
import LazyTree.Proofs.OvertakenListings

set_option autoImplicit false

/-!
# Failures of the backend

A lookup, a listing and a search for an identity ask the backend several questions, and each of
them may be the one that fails. By then the operation may have made objects, but it has changed no
array, no mark and no entry of the registry: recording and installing come behind the last question,
and do not fail for the backend. So a tree is after a failure what it was before, or what others
have made of it meanwhile.

## Main definitions

* `LazyTree.TreeM.FailsBy` — what an operation did itself before the backend failed it.
* `LazyTree.TreeM.Unfailing` — an operation that the backend cannot fail.
* `LazyTree.Tree.Untouched` — all objects and the registry are as before.

## Main results

* `LazyTree.TreeM.FailsBy.bind`, `LazyTree.TreeM.FailsBy.andThen` — failures of operations that are
  put together.
* `LazyTree.Tree.failure_untouched` — a failure of the backend leaves nothing behind.
-/

namespace LazyTree

namespace TreeM

variable {α β : Type}

/-! ### Operations that the backend cannot fail -/

/-- An operation never ends with a failure of the backend. -/
def Unfailing (act : TreeM α) : Prop :=
  ∀ t exchanges e last, ¬ (act.run t).Took exchanges (.error (.backend e)) last

/-- Answering does not fail. -/
theorem Unfailing.pure (a : α) : Unfailing (pure a : TreeM α) := by
  intro t exchanges e last htook
  cases (Run.took_done_iff.mp htook).2.1

/-- Reading the tree does not fail. -/
theorem Unfailing.get : Unfailing (get : TreeM Tree) := by
  intro t exchanges e last htook
  cases (Run.took_done_iff.mp htook).2.1

/-- Changing the tree does not fail. -/
theorem Unfailing.modifyGet (f : Tree → α × Tree) : Unfailing (modifyGet f : TreeM α) := by
  intro t exchanges e last htook
  cases (Run.took_done_iff.mp htook).2.1

/-- A value that is missing is no failure of the backend, unless it is made one. -/
theorem Unfailing.require {failure : TreeError} (h : ∀ e, failure ≠ .backend e) (a : Option α) :
    Unfailing (require failure a) := by
  intro t exchanges e last htook
  cases a with
  | none => exact h e (Except.error.inj (Run.took_done_iff.mp htook).2.1).symm
  | some a => cases (Run.took_done_iff.mp htook).2.1

/-- The backend cannot fail two operations, one after the other, if it can fail neither. -/
theorem Unfailing.bind {x : TreeM α} {f : α → TreeM β} (hx : Unfailing x)
    (hf : ∀ a, Unfailing (f a)) : Unfailing (x >>= f) := by
  intro t exchanges e last htook
  rcases Run.took_bind htook with ⟨a, t', front, back, -, -, hback⟩ | ⟨_, ⟨⟩, hfailed⟩
  · exact hf a _ _ _ _ hback
  · exact hx _ _ _ _ hfailed

/-- Holding objects does not fail. -/
theorem Unfailing.holding {act : TreeM α} (hact : Unfailing act) (nodes : List Node) :
    Unfailing (holding nodes act) := by
  intro t exchanges e last htook
  obtain ⟨t', hinner, -⟩ := Run.took_settle htook
  exact hact _ _ _ _ hinner

/-! ### What is done before a failure -/

/-- Whatever an operation that the backend failed has done itself, it did by moves of one kind. -/
def FailsBy (move : Tree → Tree → Prop) (act : TreeM α) : Prop :=
  ∀ t exchanges e last, (act.run t).Took exchanges (.error (.backend e)) last →
    Run.Linked move t exchanges last

variable {move : Tree → Tree → Prop}

/-- What the backend cannot fail has done nothing before a failure. -/
theorem Unfailing.failsBy {act : TreeM α} (h : Unfailing act) : FailsBy move act :=
  fun t exchanges e last htook => absurd htook (h t exchanges e last)

/-- What the backend cannot fail may do anything behind an operation. -/
theorem FailsBy.andThen {x : TreeM α} {f : α → TreeM β} (hx : FailsBy move x)
    (hf : ∀ a, Unfailing (f a)) : FailsBy move (x >>= f) := by
  intro t exchanges e last htook
  rcases Run.took_bind htook with ⟨a, t', front, back, -, -, hback⟩ | ⟨_, ⟨⟩, hfailed⟩
  · exact absurd hback (hf a _ _ _ _)
  · exact hx _ _ _ _ hfailed

variable [Trans move move move]

/-- If the backend fails the second of two operations, then the first one has made its moves, and the
second one has done what it does before a failure. -/
theorem FailsBy.bind {x : TreeM α} {f : α → TreeM β} (hx : Moves move x)
    (hf : ∀ a, FailsBy move (f a)) : FailsBy move (x >>= f) := by
  intro t exchanges e last htook
  rcases Run.took_bind htook with ⟨a, t', front, back, rfl, hfront, hback⟩ | ⟨_, ⟨⟩, hfailed⟩
  · exact (hx _ _ _ _ hfront).append (hf a _ _ _ _ hback)
  · exact hx _ _ _ _ hfailed

/-- Holding objects is a move, and so is releasing them after a failure. -/
theorem FailsBy.holding {nodes : List Node} {act : TreeM α} (hact : FailsBy move act)
    (hhold : ∀ t : Tree, move t (t.hold nodes)) (hrelease : ∀ t : Tree, move t (t.release nodes)) :
    FailsBy move (holding nodes act) := by
  intro t exchanges e last htook
  obtain ⟨t', hinner, rfl⟩ := Run.took_settle (f := (·.release nodes)) htook
  exact ((hact _ _ _ _ hinner).head (hhold t)).tail (hrelease t')

end TreeM

/-- A step that looks a name up, lists a directory, or searches for an identity. -/
def Command.looks : Command → Bool
  | .lookup _ | .refreshChildren | .findChildById _ _ => true
  | _ => false

namespace Tree

open TreeM

variable {t t' last : Tree} {exchanges : List Exchange}

/-- All objects of a tree are as before, with their arrays, flags, counts and marks, and so is the
registry. There may be more objects. -/
structure Untouched (t t' : Tree) : Prop where
  /-- The objects are as before. -/
  cells : ∀ n cell, t.cell? n = some cell → t'.cell? n = some cell
  /-- So is the registry. -/
  registry : t'.registry = t.registry

/-- Making objects touches nothing. -/
theorem Made.untouched (h : Made t t') : Untouched t t' := by
  induction h with
  | refl t => exact ⟨fun _ _ hcell => hcell, rfl⟩
  | @make t t' dir id name attributes _ ih =>
    refine ⟨fun n cell hcell => ih.cells n cell ?_, ih.registry⟩
    have hserial : n.serial ≠ t.cells.size := by
      rintro hserial
      rw [cell?, hserial, Array.getElem?_eq_none (Nat.le_refl _)] at hcell
      cases hcell
    rwa [cell?_make_of_lt t dir id name attributes hserial]
  | held held _ ih => exact ⟨ih.cells, ih.registry⟩

/-! ### What cannot fail -/

/-- Reading an array moves nothing. -/
theorem moves_childrenOf (dir : Node) : Moves Made (childrenOf dir) := by
  refine .of_done fun t => ?_
  unfold childrenOf
  rw [run_bind, run_get, Run.bind_done_ok]
  cases t.children? dir with
  | none => exact ⟨_, t, rfl, .refl t⟩
  | some c => exact ⟨_, t, rfl, .refl t⟩

/-- The backend cannot fail a change of an array. -/
theorem unfailing_change {α : Type} (dir : Node) (f : Children → Children.Change α) :
    Unfailing (Tree.change dir f) := by
  intro t exchanges e last htook
  rw [run_change] at htook
  split at htook
  · cases (Run.took_done_iff.mp htook).2.1
  · next c _ =>
    have hresult := (Run.took_done_iff.mp htook).2.1
    cases hanswer : (f c).1 with
    | ok a =>
      rw [hanswer] at hresult
      cases hresult
    | error broken =>
      rw [hanswer] at hresult
      cases hresult

/-- Nor can it fail the recording of an answer. -/
theorem unfailing_recordAnswer (dir : Node) (name query : String) (id : Option FileId)
    (attributes : Option Attributes) : Unfailing (recordAnswer dir name query id attributes) := by
  have habsent : Unfailing (recordAnswer dir name query none none) := by
    refine .bind (unfailing_change dir _) fun knowledge => ?_
    cases knowledge <;> exact .pure _
  cases id with
  | none => exact habsent
  | some id =>
    cases attributes with
    | none => exact habsent
    | some attributes =>
      refine .bind (.modifyGet _) fun child => .bind (unfailing_change dir _) fun knowledge => ?_
      cases knowledge with
      | present node => exact .bind (.modifyGet _) fun _ => .pure _
      | absent => exact .pure _
      | unknown => exact .pure _

/-- Nor the removal of entries. -/
theorem unfailing_unregisterSubtrees (nodes : List Node) :
    Unfailing (unregisterSubtrees nodes) := by
  induction nodes with
  | nil => exact .pure _
  | cons n nodes ih =>
    exact .bind .get fun _ => .bind (.require (fun _ h => by cases h) _) fun _ =>
      .bind (.modifyGet _) fun _ => ih

/-- Nor the installation of nodes. -/
theorem unfailing_installListing (dir : Node) (cached merged : List Node) (generation : Nat) :
    Unfailing (installListing dir cached merged generation) := by
  refine .bind (unfailing_change dir _) fun installed => ?_
  split
  · exact .bind (.modifyGet _) fun _ => unfailing_unregisterSubtrees _
  · exact .pure _

/-! ### Whole operations -/

/-- Asking for a name has done nothing before the backend failed it. -/
theorem failsBy_askFor (dir : Node) (name query : String) (policy : CasePolicy) :
    FailsBy Made (askFor dir name query policy) := by
  refine .bind (.ask _) fun id => ?_
  cases id with
  | none => exact (unfailing_recordAnswer dir name query none none).failsBy
  | some id => exact .bind (.ask _) fun attributes =>
      (unfailing_recordAnswer dir name query (some id) attributes).failsBy

/-- Nor has a lookup. -/
theorem failsBy_findChild (dir : Node) (name : String) (canonicalize : Bool) :
    FailsBy Made (findChild dir name canonicalize) := by
  intro t exchanges e last htook
  rw [run_findChild] at htook
  split at htook
  · cases (Run.took_done_iff.mp htook).2.1
  · split at htook
    · cases (Run.took_done_iff.mp htook).2.1
    · cases (Run.took_done_iff.mp htook).2.1
    · split at htook
      · exact FailsBy.bind (.ask (.canonical dir.id name))
          (fun query => failsBy_askFor dir name query t.policy) t exchanges e last htook
      · exact failsBy_askFor dir name name t.policy t exchanges e last htook

/-- Nor has one as the tree is set. -/
theorem failsBy_lookup (dir : Node) (name : String) : FailsBy Made (lookup dir name) :=
  .bind (.of_done fun t => ⟨_, t, rfl, .refl t⟩) fun t =>
    failsBy_findChild dir name t.config.canonicalizeNames

/-- A listing has made objects at most before the backend failed it. -/
theorem failsBy_refreshChildren (dir : Node) : FailsBy Made (refreshChildren dir) := by
  refine .bind (moves_childrenOf dir) fun c => ?_
  split
  · exact (Unfailing.pure _).failsBy
  · refine .bind (.ask _) fun listing => .bind (.of_done fun t => ⟨_, t, rfl, .refl t⟩) fun t =>
      .bind (moves_childrenOf dir) fun now => .holding (.bind (moves_mergeListing dir _ _)
        fun merged => ?_) (fun t => .held _ (.refl _)) (fun t => .held _ (.refl _))
    have hinstall := unfailing_installListing dir now.present merged c.generation
    exact (Unfailing.bind (hinstall.holding merged) fun _ => .pure merged).failsBy

/-- A search for an identity has done nothing. -/
theorem failsBy_findChildById (dir : Node) (id : FileId) (cachedOnly : Bool) :
    FailsBy Made (findChildById dir id cachedOnly) := by
  refine .bind (moves_childrenOf dir) fun c => ?_
  split
  · exact (Unfailing.pure _).failsBy
  · split
    · exact (Unfailing.pure _).failsBy
    · refine .bind (.ask _) fun name => ?_
      cases name with
      | none => exact (Unfailing.pure _).failsBy
      | some name => exact (failsBy_findChild dir name false).andThen fun _ => .pure _

/-- If the backend fails a lookup, a listing or a search for an identity, then whichever question it
failed, and whatever happened while the questions were open, the operation itself has left all
objects and the registry as they were: between the beginning and its first question, between the
questions, and behind the last one. -/
theorem failure_untouched {command : Command} (hcommand : command.looks = true)
    (handles : Handles) (on : Operands) {e : BackendError}
    (htook : ((command.run handles on).run t).Took exchanges (.error (.backend e)) last) :
    Run.Linked Untouched t exchanges last := by
  have hfails : FailsBy Made (command.run handles on) := by
    cases command with
    | lookup name =>
      exact ((failsBy_lookup on.dir name).andThen fun answer => .pure _ : FailsBy Made (_ >>= _))
    | refreshChildren => exact (failsBy_refreshChildren on.dir).andThen fun _ => .pure _
    | findChildById source cachedOnly =>
      simp only [Command.run]
      split
      · exact (Unfailing.pure _).failsBy
      · exact (failsBy_findChildById on.dir _ cachedOnly).andThen fun _ => .pure _
    | _ => cases hcommand
  exact (hfails t exchanges e last htook).mono fun _ _ h => h.untouched

/-! ### A listing that fails halfway

A directory with two files is listed. When the listing asks for the attributes of the first file,
another operation looks a third file up. Then the question for the attributes of the second file
fails. -/

namespace Halfway

/-- The root of the tree. -/
def root : Node :=
  ⟨0, ⟨1, FileId.raw_one_ne_zero⟩, "root", none, { directory := true }⟩

/-- The backend, which lists two files, and knows a third one. -/
def table : Table :=
  ⟨.sensitive, [(root.id, [⟨"a", FileId.ofRaw? 2, some {}⟩, ⟨"b", FileId.ofRaw? 3, some {}⟩,
    ⟨"c", FileId.ofRaw? 4, some {}⟩])], [], []⟩

/-- The tree before the listing. -/
def start : Tree :=
  ofRoot .sensitive { markNewFilesDirty := true } root.id "root"

/-- Answers from the table while nothing else happens. -/
def quiet (q : Query) (t : Tree) (_ : Unit) : Except BackendError q.Reply × Tree × Unit :=
  (table.answer q, t, ())

/-- The tree after the third file was looked up. -/
def looked (t : Tree) : Tree :=
  ((((Command.lookup "c").run [] ⟨root, root, root⟩).run t).serve quiet ()).2.1

/-- Answers from the table, while the third file is looked up during the question for the first one;
fails for the second one. -/
def failing (q : Query) (t : Tree) (_ : Unit) : Except BackendError q.Reply × Tree × Unit :=
  if q = .attributes root.id "b" then (.error .idsExhausted, t, ())
  else (table.answer q, if q = .attributes root.id "a" then looked t else t, ())

/-- The listing, at its beginning. -/
def listing : Run (StepReply Node) :=
  (Command.refreshChildren.run [] ⟨root, root, root⟩).run start

/-- The listing fails after a node was made for the first file. Apart from what the lookup did, all
objects and the registry are untouched, so that the directory has the third file only. -/
theorem failure_untouched_halfway :
    Run.Linked Untouched start (listing.exchanges failing ()) (listing.serve failing ()).2.1 ∧
      (listing.serve failing ()).2.1.cells.size = 3 ∧
      ((listing.serve failing ()).2.1.children? root).map (fun c => c.present.map Node.name) =
        some ["c"] := by
  have hfailed : (listing.serve failing ()).1 = .error (.backend .idsExhausted) := by cbv
  have htook := Run.took_serve failing listing ()
  rw [hfailed] at htook
  exact ⟨failure_untouched rfl _ _ htook, by cbv, by cbv⟩

end Halfway

end Tree

end LazyTree
