import LazyTree.Proofs.Conduct

set_option autoImplicit false

/-!
# Traffic on a tree

Operations on a tree overlap. Any number of them may be under way at once, each waiting for the
backend; they get their answers in any order, or never, and the answers may be anything. At each turn
an operation begins, or one that waits gets its answer, and then it goes on until it ends or waits
again; or objects get other holders.

All operations conduct themselves, and so does all traffic: from the tree that holds nothing but its
root on, no array ever breaks a rule, and every list of children is in the order of the names.

## Main definitions

* `LazyTree.Traffic` — a tree and the operations on it that wait.
* `LazyTree.Turn` — what happens next.
* `LazyTree.Traffic.turn`, `LazyTree.Traffic.run` — one turn, and any number of them.
* `LazyTree.Traffic.Orderly` — the tree is tidy, and all operations that wait conduct themselves.

## Main results

* `LazyTree.Traffic.exists_run_of_happens` — whatever may happen to a tree is traffic.
* `LazyTree.Traffic.Orderly.turn`, `LazyTree.Traffic.Orderly.run` — traffic goes well.
* `LazyTree.Traffic.Orderly.moved_turn`, `LazyTree.Traffic.Orderly.moved_run` — and makes moves of one
  kind.
* `LazyTree.Traffic.consistent` — no array breaks a rule, and all lists are in order.
-/

namespace LazyTree

/-- How an operation ended. -/
abbrev Ending := Except TreeError (StepReply Node)

/-- An operation that waits for an answer. -/
structure Waiting where
  /-- What it asked. -/
  query : Query
  /-- How it goes on, with the answer and the tree that it finds then. -/
  resume : Except BackendError query.Reply → Tree → Run (StepReply Node)

/-- A tree and the operations on it that are under way. -/
structure Traffic where
  /-- The tree. -/
  tree : Tree
  /-- The operations that wait, the latest first. -/
  waiting : List Waiting

/-- What happens next. -/
inductive Turn where
  /-- An operation begins. -/
  | begin (handles : Handles) (on : Operands) (command : Command)
  /-- An operation that waits gets its answer, given what would be answered to any question. -/
  | answer (index : Nat) (reply : (q : Query) → Except BackendError q.Reply)
  /-- Other objects are held. -/
  | hold (held : List Nat)

/-- The directory whose children are forgotten, if that is what happens next. -/
def Turn.cleared? : Turn → Option Node
  | begin _ on .clearChildren => some on.dir
  | _ => none

namespace Traffic

/-- A tree that holds nothing but its root, and nothing under way. -/
def start (policy : CasePolicy) (config : TreeConfig) (id : FileId) (name : String) : Traffic :=
  ⟨.ofRoot policy config id name, []⟩

/-- An operation goes on until it ends or waits. -/
def proceed (waiting : List Waiting) : Run (StepReply Node) → List Ending × Traffic
  | .done outcome t => ([outcome], ⟨t, waiting⟩)
  | .ask q t resume => ([], ⟨t, ⟨q, resume⟩ :: waiting⟩)

/-- A turn, with how the operation ended that took it, if it did. -/
def turn (s : Traffic) : Turn → List Ending × Traffic
  | .begin handles on command => proceed s.waiting ((command.run handles on).run s.tree)
  | .answer index reply =>
    match s.waiting[index]? with
    | some w => proceed (s.waiting.eraseIdx index) (w.resume (reply w.query) s.tree)
    | none => ([], s)
  | .hold held => ([], { s with tree := { s.tree with held := held } })

/-- Turns, one after the other, with how operations ended meanwhile. -/
def run (s : Traffic) : List Turn → List Ending × Traffic
  | [] => ([], s)
  | next :: turns =>
    let now := s.turn next
    let later := now.2.run turns
    (now.1 ++ later.1, later.2)

/-- Some turns after others. -/
theorem run_append (s : Traffic) (turns turns' : List Turn) :
    s.run (turns ++ turns') =
      ((s.run turns).1 ++ ((s.run turns).2.run turns').1, ((s.run turns).2.run turns').2) := by
  induction turns generalizing s with
  | nil => rfl
  | cons next turns ih =>
    rw [List.cons_append, run, run, ih]
    simp only [List.append_assoc]

/-! ### Nested traffic -/

/-- If what happens in the exchanges of an operation is traffic, then so is the operation. -/
theorem exists_run_of_took {operation : Run (StepReply Node)} {exchanges : List Exchange}
    {outcome : Ending} {last : Tree} (htook : operation.Took exchanges outcome last)
    (waiting : List Waiting)
    (hmeanwhile : ∀ x ∈ exchanges, ∀ waiting, ∃ turns, ((⟨x.asked, waiting⟩ : Traffic).run turns).2 =
      ⟨x.resumed, waiting⟩) :
    ∃ turns, ((proceed waiting operation).2.run turns).2 = ⟨last, waiting⟩ ∧
      outcome ∈ (proceed waiting operation).1 ++ ((proceed waiting operation).2.run turns).1 := by
  induction htook with
  | done outcome t => exact ⟨[], rfl, List.mem_cons_self⟩
  | @ask q t resume reply t' exchanges outcome last _ ih =>
    obtain ⟨hfirst, hrest⟩ := List.forall_mem_cons.mp hmeanwhile
    obtain ⟨before, hbefore⟩ := hfirst (⟨q, resume⟩ :: waiting)
    obtain ⟨after, hafter, hmem⟩ := ih hrest
    let replies : (q : Query) → Except BackendError q.Reply := fun q' =>
      if h : q = q' then h ▸ reply else .error .idsExhausted
    have hreply : replies q = reply := by simp [replies]
    have hturn : (⟨t', ⟨q, resume⟩ :: waiting⟩ : Traffic).turn (.answer 0 replies) =
        proceed waiting (resume reply t') := by
      rw [← hreply]
      rfl
    refine ⟨before ++ .answer 0 replies :: after, ?_⟩
    dsimp only [proceed] at hbefore ⊢
    rw [run_append, hbefore, run, hturn]
    exact ⟨hafter, List.mem_append_right _ (List.mem_append_right _ hmem)⟩

/-- Whatever may happen to a tree is traffic that leaves waiting what waited before. -/
theorem exists_run_of_happens {t t' : Tree} (h : Tree.Happens t t') (waiting : List Waiting) :
    ∃ turns, ((⟨t, waiting⟩ : Traffic).run turns).2 = ⟨t', waiting⟩ := by
  induction h generalizing waiting with
  | refl t => exact ⟨[], rfl⟩
  | held held _ ih =>
    obtain ⟨turns, hturns⟩ := ih waiting
    exact ⟨.hold held :: turns, hturns⟩
  | command handles on command took _ _ hmeanwhile ih =>
    obtain ⟨first, hfirst, -⟩ := exists_run_of_took took waiting fun x hx => hmeanwhile x hx
    obtain ⟨rest, hrest⟩ := ih waiting
    refine ⟨.begin handles on command :: first ++ rest, ?_⟩
    rw [run_append, run, turn]
    dsimp only
    rw [hfirst, hrest]

/-! ### Orderly traffic -/

section Orderly

variable {policy : CasePolicy} {forgets : Node → Prop} {move : Tree → Tree → Prop}

/-- The tree is tidy, and all operations that wait conduct themselves. -/
structure Orderly (policy : CasePolicy) (move : Tree → Tree → Prop) (s : Traffic) : Prop where
  /-- The tree is tidy. -/
  tidy : s.tree.TidyUnder policy
  /-- The operations conduct themselves, whatever they are answered. -/
  conduct : ∀ w ∈ s.waiting, ∀ reply t, t.TidyUnder policy →
    (w.resume reply t).Conducts (Tree.TidyUnder policy) move (StepReply.InOrder policy) t

/-- At the start traffic is orderly. -/
theorem orderly_start (config : TreeConfig) (id : FileId) (name : String) :
    (start policy config id name).Orderly policy move :=
  ⟨⟨Tree.tidy_ofRoot policy config id name, rfl⟩, fun _ hw => nomatch hw⟩

/-- What comes of traffic: it stays orderly, and operations ended well. -/
structure GoesWell (policy : CasePolicy) (move : Tree → Tree → Prop)
    (after : List Ending × Traffic) : Prop where
  /-- It stays orderly. -/
  orderly : after.2.Orderly policy move
  /-- Operations ended well. -/
  ended : ∀ outcome ∈ after.1, EndsWell (StepReply.InOrder policy) outcome

/-- Where nothing ended, traffic goes well if it is orderly. -/
theorem Orderly.goesWell {s : Traffic} (hs : s.Orderly policy move) :
    GoesWell policy move ([], s) :=
  ⟨hs, fun _ ho => nomatch ho⟩

section Proceed

variable {operation : Run (StepReply Node)} {waiting : List Waiting} {t : Tree}

/-- An operation that conducts itself goes on well, beside others that do. -/
theorem goesWell_proceed
    (hwaiting : ∀ w ∈ waiting, ∀ reply t, t.TidyUnder policy →
      (w.resume reply t).Conducts (Tree.TidyUnder policy) move (StepReply.InOrder policy) t)
    (h : operation.Conducts (Tree.TidyUnder policy) move (StepReply.InOrder policy) t) :
    GoesWell policy move (proceed waiting operation) := by
  cases operation with
  | done outcome t' => exact ⟨⟨h.1, hwaiting⟩, List.forall_mem_singleton.mpr h.2.2⟩
  | ask q t' resume => exact Orderly.goesWell ⟨h.1, List.forall_mem_cons.mpr ⟨h.2.2, hwaiting⟩⟩

/-- What it does until it ends or waits is a move. -/
theorem moved_proceed
    (h : operation.Conducts (Tree.TidyUnder policy) move (StepReply.InOrder policy) t) :
    move t (proceed waiting operation).2.tree := by
  cases operation with
  | done outcome t' => exact h.2.1
  | ask q t' resume => exact h.2.1

end Proceed

/-- Everything that is done is a move of the kind that has them all. -/
theorem custom_any (policy : CasePolicy) : Tree.Custom policy (fun _ => True) fun _ _ => True where
  refl _ := trivial
  trans _ _ := trivial
  make _ _ _ _ _ := trivial
  change _ _ _ _ := trivial
  dirty _ _ _ := trivial
  registry _ _ _ := trivial
  held _ _ := trivial

/-- A turn of orderly traffic goes well. To forget the children of a directory may be no move of the
kind, but it is over at once. -/
theorem Orderly.turn (h : Tree.Custom policy forgets move) {s : Traffic}
    (hs : s.Orderly policy move) (next : Turn) : GoesWell policy move (s.turn next) := by
  cases next with
  | begin handles on command =>
    by_cases hclear : command = .clearChildren
    · obtain ⟨outcome, t, hrun⟩ : ∃ outcome t, (command.run handles on).run s.tree =
          .done outcome t := by
        obtain ⟨result, t, hrun⟩ := Tree.run_clearChildren on.dir s.tree
        rw [hclear, Command.run, TreeM.run_map, hrun]
        cases result <;> exact ⟨_, _, rfl⟩
      have hconduct := (custom_any policy).command handles on command (fun _ => trivial) s.tree
        hs.tidy
      rw [hrun] at hconduct
      rw [Traffic.turn, hrun]
      exact ⟨⟨hconduct.1, hs.conduct⟩, List.forall_mem_singleton.mpr hconduct.2.2⟩
    · exact goesWell_proceed hs.conduct
        (h.command handles on command (fun hc => absurd hc hclear) s.tree hs.tidy)
  | answer index reply =>
    rw [Traffic.turn]
    split
    · next w hw =>
      exact goesWell_proceed (fun w' hw' => hs.conduct w' (List.mem_of_mem_eraseIdx hw'))
        (hs.conduct w (List.mem_of_getElem? hw) _ _ hs.tidy)
    · exact hs.goesWell
  | hold held => exact Orderly.goesWell ⟨hs.tidy.update (.held s.tree held), hs.conduct⟩

/-- A turn of orderly traffic is a move, if it forgets children only where that is one. -/
theorem Orderly.moved_turn (h : Tree.Custom policy forgets move) {s : Traffic}
    (hs : s.Orderly policy move) {next : Turn} (hnext : ∀ dir ∈ next.cleared?, forgets dir) :
    move s.tree (s.turn next).2.tree := by
  cases next with
  | begin handles on command =>
    refine moved_proceed (h.command handles on command ?_ s.tree hs.tidy)
    rintro rfl
    exact hnext on.dir rfl
  | answer index reply =>
    rw [Traffic.turn]
    split
    · next w hw => exact moved_proceed (hs.conduct w (List.mem_of_getElem? hw) _ _ hs.tidy)
    · exact h.refl _
  | hold held => exact h.held _ held

/-- Any number of turns goes well. -/
theorem Orderly.run (h : Tree.Custom policy forgets move) {s : Traffic}
    (hs : s.Orderly policy move) (turns : List Turn) : GoesWell policy move (s.run turns) := by
  induction turns generalizing s with
  | nil => exact hs.goesWell
  | cons next turns ih =>
    have hnow := hs.turn h next
    have hlater := ih hnow.orderly
    exact ⟨hlater.orderly, List.forall_mem_append.mpr ⟨hnow.ended, hlater.ended⟩⟩

/-- Any number of turns is a move, if they forget children only where that is one. -/
theorem Orderly.moved_run (h : Tree.Custom policy forgets move) {s : Traffic}
    (hs : s.Orderly policy move) {turns : List Turn}
    (hturns : ∀ next ∈ turns, ∀ dir ∈ next.cleared?, forgets dir) :
    move s.tree (s.run turns).2.tree := by
  induction turns generalizing s with
  | nil => exact h.refl _
  | cons next turns ih =>
    obtain ⟨hnext, hturns⟩ := List.forall_mem_cons.mp hturns
    exact h.trans (hs.moved_turn h hnext) (ih (hs.turn h next).orderly hturns)

end Orderly

/-- No backend and no race makes an array break a rule: from the tree that holds nothing but its root
on, whatever operations begin, in whatever order they get whatever answers, and whatever is held, all
arrays pass the check, no operation ends with the failure that an array would break a rule, and every
list of nodes that one answers is in strictly ascending order.

**Proof sketch.** A listing is sorted and freed from repetitions before it is merged, and merging
keeps some of its names, in its order, under whatever spelling; so what is installed or answered is
in ascending order, and no change is ever refused in a tidy tree. This is the conduct of one
operation from one answer to the next. Whoever waits conducts itself from any tidy tree on, so turns
of other operations do not matter, and the rest is by induction on the turns. -/
theorem consistent (policy : CasePolicy) (config : TreeConfig) (id : FileId) (name : String)
    (turns : List Turn) :
    let after := (start policy config id name).run turns
    (∀ dir c, after.2.tree.children? dir = some c →
      c.policy = policy ∧ c.inconsistency? = none) ∧
    ∀ outcome ∈ after.1, (∀ broken, outcome ≠ .error (.inconsistent broken)) ∧
      ∀ nodes, outcome = .ok (.nodes nodes) → Ascending policy nodes := by
  intro after
  have hafter : GoesWell policy _ after :=
    (orderly_start config id name).run (custom_any policy) turns
  obtain ⟨htidy, hpolicy⟩ := hafter.orderly.tidy
  refine ⟨fun dir c hc => ?_, fun outcome houtcome => ⟨?_, ?_⟩⟩
  · obtain ⟨hsame, hctidy⟩ := htidy dir c hc
    exact ⟨hsame.trans hpolicy, Zones.Tidy.inconsistency?_eq_none hctidy⟩
  · have hends := hafter.ended outcome houtcome
    rintro broken rfl
    exact hends broken rfl
  · have hends := hafter.ended outcome houtcome
    rintro nodes rfl
    exact hends

end Traffic

end LazyTree
