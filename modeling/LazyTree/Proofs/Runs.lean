import LazyTree.Tree.Run

set_option autoImplicit false

/-!
# What holds at the end of a run

A run stops at each question to the backend, and goes on with whatever answer and whatever tree it
finds then. So what holds at its end depends on what may happen while a question is open. Here that
is a relation of the question, the tree when it is asked, the answer, and the tree with which the
run goes on.

## Main definitions

* `LazyTree.World` — what may happen while questions are open.
* `LazyTree.Answers`, `LazyTree.Answers.world` — a backend that always gives the same answers.
* `LazyTree.Run.Always` — what holds at the end of a run, whatever happens in a world.
* `LazyTree.Exchange`, `LazyTree.Run.Took` — a question with what happened, and the run that took
  some exchanges to its end.
* `LazyTree.Run.exchanges` — the exchanges of a run whose questions a server answers.
* `LazyTree.Run.Linked` — what happens between the exchanges of a run.
* `LazyTree.TreeM.run` — the run of an operation from a tree on.
* `LazyTree.TreeM.answered` — the end of an operation, given the answers of the backend.
* `LazyTree.TreeM.logged` — the same with the questions that were asked.
* `LazyTree.TreeM.Moves` — what an operation does itself, between its questions.
* `LazyTree.TreeM.Keeps` — an operation keeps a property of trees, if whatever else happens does.

## Main results

* `LazyTree.Run.always_bind_iff`, `LazyTree.Run.always_settle_iff` — operations are taken apart.
* `LazyTree.Run.Took.always` — what always holds at the end does hold at the end of each run.
* `LazyTree.Run.took_bind` — the exchanges of two runs, one after the other.
* `LazyTree.Run.serve_bind` — two runs are served one after the other.
* `LazyTree.TreeM.Moves.bind` — operations make their moves one after the other.
* `LazyTree.TreeM.Keeps.bind`, `LazyTree.TreeM.Keeps.holding` — operations that keep a property are
  put together.
-/

namespace LazyTree

/-- What may happen while a question is open: the question, the tree when it is asked, its answer,
and the tree when the answer comes. -/
abbrev World :=
  (q : Query) → Tree → Except BackendError q.Reply → Tree → Prop

/-- A backend that always gives the same answers. -/
abbrev Answers :=
  (q : Query) → Except BackendError q.Reply

/-- The backend gives these answers, and nothing else happens meanwhile. -/
def Answers.world (answers : Answers) : World :=
  fun q t reply t' => reply = answers q ∧ t' = t

/-- A question of a run, with what happened while it was open. -/
structure Exchange where
  /-- The question. -/
  query : Query
  /-- The tree when it was asked. -/
  asked : Tree
  /-- Its answer. -/
  reply : Except BackendError query.Reply
  /-- The tree when the answer came. -/
  resumed : Tree

namespace Run

variable {α β : Type}

/-- What holds at the end of a run, whatever happens in a world. -/
def Always (w : World) (post : Except TreeError α → Tree → Prop) : Run α → Prop
  | done result t => post result t
  | ask q t resume => ∀ reply t', w q t reply t' → (resume reply t').Always w post

/-- What has to hold where a run ends, if another one goes on from there. -/
def Next (w : World) (next : α → Tree → Run β) (post : Except TreeError β → Tree → Prop) :
    Except TreeError α → Tree → Prop
  | .ok a, t => (next a t).Always w post
  | .error e, t => post (.error e) t

/-- A run takes some exchanges to its end. -/
inductive Took : Run α → List Exchange → Except TreeError α → Tree → Prop where
  /-- It has ended. -/
  | done (result : Except TreeError α) (t : Tree) : Took (.done result t) [] result t
  /-- It goes on from the tree that it finds with the answer. -/
  | ask {q : Query} {t : Tree} {resume : Except BackendError q.Reply → Tree → Run α}
      {reply : Except BackendError q.Reply} {t' : Tree} {exchanges : List Exchange}
      {result : Except TreeError α} {last : Tree}
      (rest : Took (resume reply t') exchanges result last) :
      Took (.ask q t resume) (⟨q, t, reply, t'⟩ :: exchanges) result last

/-- What has ended goes on with its answer. -/
@[simp] theorem bind_done_ok (a : α) (t : Tree) (next : α → Tree → Run β) :
    (done (.ok a) t).bind next = next a t :=
  rfl

/-- What has failed does not go on. -/
@[simp] theorem bind_done_error (e : TreeError) (t : Tree) (next : α → Tree → Run β) :
    (done (.error e) t).bind next = done (.error e) t :=
  rfl

/-- The exchanges of a run whose questions a server answers. -/
def exchanges {σ : Type}
    (server : (q : Query) → Tree → σ → Except BackendError q.Reply × Tree × σ) :
    Run α → σ → List Exchange
  | done _ _, _ => []
  | ask q t resume, s =>
    let (reply, t', s) := server q t s
    ⟨q, t, reply, t'⟩ :: (resume reply t').exchanges server s

/-- A run whose questions a server answers takes these exchanges to its end. -/
theorem took_serve {σ : Type}
    (server : (q : Query) → Tree → σ → Except BackendError q.Reply × Tree × σ) (run : Run α)
    (s : σ) :
    run.Took (run.exchanges server s) (run.serve server s).1 (run.serve server s).2.1 := by
  induction run generalizing s with
  | done result t => exact .done result t
  | ask q t resume ih => exact .ask (ih _ _ _)

/-- Each exchange of a served run is what the server does with a question, at some tree and in some
state. -/
theorem exists_of_mem_exchanges {σ : Type}
    {server : (q : Query) → Tree → σ → Except BackendError q.Reply × Tree × σ} {run : Run α}
    {s : σ} {x : Exchange} (hx : x ∈ run.exchanges server s) :
    ∃ s, x.reply = (server x.query x.asked s).1 ∧ x.resumed = (server x.query x.asked s).2.1 := by
  induction run generalizing s with
  | done result t => cases hx
  | ask q t resume ih =>
    rcases List.mem_cons.mp hx with rfl | hx
    · exact ⟨s, rfl, rfl⟩
    · exact ih _ _ hx

/-! ### Serving one run after the other -/

section Serve

variable {σ : Type} {server : (q : Query) → Tree → σ → Except BackendError q.Reply × Tree × σ}

/-- Two runs, one after the other, are served one after the other. -/
theorem serve_bind (run : Run α) (next : α → Tree → Run β) (s : σ) :
    (run.bind next).serve server s = match run.serve server s with
      | (.ok a, t, s) => (next a t).serve server s
      | (.error e, t, s) => (.error e, t, s) := by
  induction run generalizing s with
  | done result t => cases result <;> rfl
  | ask q t resume ih => exact ih _ _ _

/-- A run whose last tree is changed is served like it. -/
theorem serve_settle (f : Tree → Tree) (run : Run α) (s : σ) :
    (run.settle f).serve server s =
      ((run.serve server s).1, f (run.serve server s).2.1, (run.serve server s).2.2) := by
  induction run generalizing s with
  | done result t => rfl
  | ask q t resume ih => exact ih _ _ _

end Serve

variable {w : World} {post post' : Except TreeError α → Tree → Prop}

/-- More may hold at the end than what is asked for. -/
theorem Always.mono {run : Run α} (h : run.Always w post)
    (hpost : ∀ result t, post result t → post' result t) : run.Always w post' := by
  induction run with
  | done result t => exact hpost result t h
  | ask q t resume ih => exact fun reply t' hw => ih reply t' (h reply t' hw)

/-- What always holds at the end, in two respects, does so in both. -/
theorem Always.and {run : Run α} (h : run.Always w post) (h' : run.Always w post') :
    run.Always w fun result t => post result t ∧ post' result t := by
  induction run with
  | done result t => exact ⟨h, h'⟩
  | ask q t resume ih => exact fun reply t' hw => ih reply t' (h reply t' hw) (h' reply t' hw)

/-- What always holds at the end does so if less may happen. -/
theorem Always.of_world {w' : World} {run : Run α} (h : run.Always w post)
    (hw : ∀ q t reply t', w' q t reply t' → w q t reply t') : run.Always w' post := by
  induction run with
  | done result t => exact h
  | ask q t resume ih => exact fun reply t' hw' => ih reply t' (h reply t' (hw q t reply t' hw'))

/-- What always holds at the end of two runs, one after the other. -/
theorem always_bind_iff {run : Run α} {next : α → Tree → Run β}
    {post : Except TreeError β → Tree → Prop} :
    (run.bind next).Always w post ↔ run.Always w (Next w next post) := by
  induction run with
  | done result t => cases result <;> rfl
  | ask q t resume ih =>
    exact forall_congr' fun reply => forall_congr' fun t' => imp_congr_right fun _ => ih reply t'

/-- What always holds at the end, after a change there. -/
theorem always_settle_iff {run : Run α} {f : Tree → Tree} :
    (run.settle f).Always w post ↔ run.Always w fun result t => post result (f t) := by
  induction run with
  | done result t => rfl
  | ask q t resume ih =>
    exact forall_congr' fun reply => forall_congr' fun t' => imp_congr_right fun _ => ih reply t'

/-- A run that has ended took no exchanges. -/
theorem took_done_iff {result result' : Except TreeError α} {t t' : Tree}
    {exchanges : List Exchange} :
    (done result t).Took exchanges result' t' ↔ exchanges = [] ∧ result' = result ∧ t' = t := by
  constructor
  · intro h
    cases h
    exact ⟨rfl, rfl, rfl⟩
  · rintro ⟨rfl, rfl, rfl⟩
    exact .done result' t'

/-- Two runs, one after the other, took the exchanges of the one and then those of the other, unless
the first one failed. -/
theorem took_bind {run : Run α} {next : α → Tree → Run β} {exchanges : List Exchange}
    {result : Except TreeError β} {last : Tree} (h : (run.bind next).Took exchanges result last) :
    (∃ a t front back, exchanges = front ++ back ∧ run.Took front (.ok a) t ∧
      (next a t).Took back result last) ∨
      ∃ e, result = .error e ∧ run.Took exchanges (.error e) last := by
  induction run generalizing exchanges with
  | done first t =>
    cases first with
    | ok a => exact .inl ⟨a, t, [], exchanges, rfl, .done _ _, h⟩
    | error e =>
      obtain ⟨rfl, rfl, rfl⟩ := took_done_iff.mp h
      exact .inr ⟨e, rfl, .done _ _⟩
  | ask q t resume ih =>
    cases h with
    | ask rest =>
      rcases ih _ _ rest with ⟨a, t', front, back, rfl, hfront, hback⟩ | ⟨e, rfl, hfailed⟩
      · exact .inl ⟨a, t', _ :: front, back, rfl, .ask hfront, hback⟩
      · exact .inr ⟨e, rfl, .ask hfailed⟩

/-- A run whose last tree is changed took the exchanges of the run. -/
theorem took_settle {run : Run α} {f : Tree → Tree} {exchanges : List Exchange}
    {result : Except TreeError α} {last : Tree} (h : (run.settle f).Took exchanges result last) :
    ∃ t, run.Took exchanges result t ∧ last = f t := by
  induction run generalizing exchanges with
  | done first t =>
    obtain ⟨rfl, rfl, rfl⟩ := took_done_iff.mp h
    exact ⟨t, .done _ _, rfl⟩
  | ask q t resume ih =>
    cases h with
    | ask rest =>
      obtain ⟨t', htook, rfl⟩ := ih _ _ rest
      exact ⟨t', .ask htook, rfl⟩

/-- What always holds at the end does hold at the end of a run that took exchanges of the world. -/
theorem Took.always {run : Run α} {exchanges : List Exchange} {result : Except TreeError α}
    {t : Tree} (h : run.Took exchanges result t) (hrun : run.Always w post)
    (hw : ∀ x ∈ exchanges, w x.query x.asked x.reply x.resumed) : post result t := by
  induction h with
  | done result t => exact hrun
  | ask rest ih =>
    obtain ⟨hfirst, hrest⟩ := List.forall_mem_cons.mp hw
    exact ih (hrun _ _ hfirst) hrest

/-! ### What a run does between its questions -/

/-- Apart from what happens in the exchanges, a tree becomes another by moves of one kind. -/
def Linked (move : Tree → Tree → Prop) : Tree → List Exchange → Tree → Prop
  | t, [], last => move t last
  | t, x :: rest, last => move t x.asked ∧ Linked move x.resumed rest last

variable {move : Tree → Tree → Prop} {t t' last : Tree} {exchanges : List Exchange}

/-- Moves of one kind are moves of another that has them all. -/
theorem Linked.mono {move' : Tree → Tree → Prop} (h : Linked move t exchanges last)
    (hmove : ∀ a b, move a b → move' a b) : Linked move' t exchanges last := by
  induction exchanges generalizing t with
  | nil => exact hmove _ _ h
  | cons x rest ih => exact ⟨hmove _ _ h.1, ih h.2⟩

/-- The first tree may come about by a move. -/
theorem Linked.head [Trans move move move] (hfirst : move t t')
    (h : Linked move t' exchanges last) : Linked move t exchanges last := by
  cases exchanges with
  | nil =>
    have hsecond : move t' last := h
    exact (Trans.trans hfirst hsecond : move t last)
  | cons x rest => exact ⟨Trans.trans hfirst h.1, h.2⟩

/-- One list of exchanges may follow another. -/
theorem Linked.append [Trans move move move] {front back : List Exchange}
    (hfront : Linked move t front t') (hback : Linked move t' back last) :
    Linked move t (front ++ back) last := by
  induction front generalizing t with
  | nil => exact hback.head hfront
  | cons x rest ih => exact ⟨hfront.1, ih hfront.2⟩

/-- The last tree may go on by a move. -/
theorem Linked.tail [Trans move move move] (h : Linked move t exchanges t')
    (hlast : move t' last) : Linked move t exchanges last := by
  have happend : Linked move t (exchanges ++ []) last := h.append hlast
  rwa [List.append_nil] at happend

end Run

namespace TreeM

variable {α β : Type}

/-- The run of an operation from a tree on. -/
def run (act : TreeM α) (t : Tree) : Run α :=
  act t

/-! ### Operations taken apart -/

/-- An operation that only answers ends at once. -/
@[simp] theorem run_pure (a : α) (t : Tree) : (pure a : TreeM α).run t = .done (.ok a) t := rfl

/-- Two operations, one after the other, run one after the other. -/
@[simp] theorem run_bind (x : TreeM α) (f : α → TreeM β) (t : Tree) :
    (x >>= f).run t = (x.run t).bind fun a => (f a).run :=
  rfl

/-- An operation whose answer is mapped ends with that answer. -/
@[simp] theorem run_map (f : α → β) (x : TreeM α) (t : Tree) :
    (f <$> x).run t = (x.run t).bind fun a => (pure (f a) : TreeM β).run :=
  rfl

/-- Reading the tree ends at once. -/
@[simp] theorem run_get (t : Tree) : (get : TreeM Tree).run t = .done (.ok t) t := rfl

/-- Changing the tree ends at once. -/
@[simp] theorem run_modifyGet (f : Tree → α × Tree) (t : Tree) :
    (modifyGet f : TreeM α).run t = .done (.ok (f t).1) (f t).2 :=
  rfl

/-- Changing the tree without an answer ends at once. -/
@[simp] theorem run_modify (f : Tree → Tree) (t : Tree) :
    (modify f : TreeM Unit).run t = .done (.ok ()) (f t) :=
  rfl

/-- Failing ends at once. -/
@[simp] theorem run_fail (e : TreeError) (t : Tree) :
    (fail e : TreeM α).run t = .done (.error e) t :=
  rfl

/-- A value that is there ends the demand for it. -/
@[simp] theorem run_require_some (e : TreeError) (a : α) (t : Tree) :
    (require e (some a)).run t = .done (.ok a) t :=
  rfl

/-- A value that is missing fails the demand for it. -/
@[simp] theorem run_require_none (e : TreeError) (t : Tree) :
    (require e (none : Option α)).run t = .done (.error e) t :=
  rfl

/-- Objects are held until the end of an operation. -/
theorem run_holding (nodes : List Node) (act : TreeM α) (t : Tree) :
    (holding nodes act).run t = (act.run (t.hold nodes)).settle (·.release nodes) :=
  rfl

/-- A property of trees holds after two operations, one after the other, if the first one leads to
it, and the second one leads from it to it. -/
theorem always_then {w : World} {P : Tree → Prop} {x : TreeM α} {f : α → TreeM β} {t : Tree}
    (hx : (x.run t).Always w fun _ t' => P t')
    (hf : ∀ a t', P t' → ((f a).run t').Always w fun _ t'' => P t'') :
    ((x >>= f).run t).Always w fun _ t'' => P t'' := by
  rw [run_bind, Run.always_bind_iff]
  refine hx.mono fun result t' h => ?_
  cases result with
  | ok a => exact hf a t' h
  | error e => exact h

/-- What always holds after a question, for either kind of answer. -/
theorem always_ask_bind_iff {w : World} {q : Query} {f : q.Reply → TreeM β} {t : Tree}
    {post : Except TreeError β → Tree → Prop} :
    ((ask q >>= f).run t).Always w post ↔
      (∀ reply t', w q t (.ok reply) t' → ((f reply).run t').Always w post) ∧
        ∀ e t', w q t (.error e) t' → post (.error (.backend e)) t' := by
  rw [run_bind, Run.always_bind_iff]
  constructor
  · exact fun h => ⟨fun reply t' hw => h (.ok reply) t' hw, fun e t' hw => h (.error e) t' hw⟩
  · rintro ⟨hok, herror⟩ reply t' hw
    cases reply with
    | ok reply => exact hok reply t' hw
    | error e => exact herror e t' hw

/-- An operation that begins with a question goes on with the answer that the backend always gives,
and from the same tree if nothing else happens. -/
theorem always_told {answers : Answers} {q : Query} {reply : q.Reply} (hq : answers q = .ok reply)
    {f : q.Reply → TreeM β} {t : Tree} {post : Except TreeError β → Tree → Prop} :
    ((ask q >>= f).run t).Always answers.world post ↔
      ((f reply).run t).Always answers.world post := by
  rw [always_ask_bind_iff]
  constructor
  · exact fun h => h.1 reply t ⟨hq.symm, rfl⟩
  · refine fun h => ⟨?_, ?_⟩
    · rintro reply' t' ⟨hreply, rfl⟩
      rw [hq] at hreply
      cases hreply
      exact h
    · rintro e t' ⟨hreply, -⟩
      rw [hq] at hreply
      cases hreply

/-- The end of an operation to which the backend gives its answers, while nothing else happens. -/
def answered (answers : Answers) (act : TreeM α) (t : Tree) : Except TreeError α × Tree :=
  let (result, t, _) := (act.run t).serve (fun q t (_ : Unit) => (answers q, t, ())) ()
  (result, t)

/-- What always holds at the end, given the answers of the backend, does hold at the end. -/
theorem answered_of_always {answers : Answers} {act : TreeM α} {t : Tree}
    {post : Except TreeError α → Tree → Prop} (h : (act.run t).Always answers.world post) :
    post (act.answered answers t).1 (act.answered answers t).2 := by
  refine (Run.took_serve _ (act.run t) ()).always h fun x hx => ?_
  obtain ⟨_, hreply, hresumed⟩ := Run.exists_of_mem_exchanges hx
  exact ⟨hreply, hresumed⟩

/-- A backend gives its answers, and remembers what it was asked. -/
def logging (answers : Answers) (q : Query) (t : Tree) (asked : List Query) :
    Except BackendError q.Reply × Tree × List Query :=
  (answers q, t, asked ++ [q])

/-- The end of an operation to which the backend gives its answers, while nothing else happens, and
what it was asked. -/
def logged (answers : Answers) (act : TreeM α) (t : Tree) :
    Except TreeError α × Tree × List Query :=
  (act.run t).serve (logging answers) []

/-- An operation that begins with a question is served its answer first. -/
theorem serve_ask_bind {answers : Answers} {q : Query} {reply : q.Reply}
    (hq : answers q = .ok reply) (f : q.Reply → TreeM β) (t : Tree) (asked : List Query) :
    ((ask q >>= f).run t).serve (logging answers) asked =
      ((f reply).run t).serve (logging answers) (asked ++ [q]) := by
  rw [run_bind, Run.serve_bind]
  simp only [run, ask, Run.serve, logging, hq]

/-- A run that begins with a question took an exchange for it first. If that did not fail, it went
on with the answer. -/
theorem took_ask_bind {q : Query} {f : q.Reply → TreeM β} {t last : Tree}
    {exchanges : List Exchange} {result : Except TreeError β}
    (h : ((ask q >>= f).run t).Took exchanges result last)
    (hok : ∀ x ∈ exchanges, x.reply.isOk = true) :
    ∃ reply t' rest, exchanges = ⟨q, t, .ok reply, t'⟩ :: rest ∧
      ((f reply).run t').Took rest result last := by
  cases h with
  | @ask _ _ _ reply t' rest _ _ h =>
    cases reply with
    | ok reply => exact ⟨reply, t', rest, rfl, h⟩
    | error e => cases hok _ List.mem_cons_self

/-- A run that begins with a question and did not fail took an exchange for it first, and went on
with the answer. -/
theorem took_ask_bind_ok {q : Query} {f : q.Reply → TreeM β} {t last : Tree}
    {exchanges : List Exchange} {b : β}
    (h : ((ask q >>= f).run t).Took exchanges (.ok b) last) :
    ∃ reply t' rest, exchanges = ⟨q, t, .ok reply, t'⟩ :: rest ∧
      ((f reply).run t').Took rest (.ok b) last := by
  cases h with
  | @ask _ _ _ reply t' rest _ _ h =>
    cases reply with
    | ok reply => exact ⟨reply, t', rest, rfl, h⟩
    | error e => cases h

/-! ### Moves -/

/-- Whatever an operation does itself, it does by moves of one kind. -/
def Moves (move : Tree → Tree → Prop) (act : TreeM α) : Prop :=
  ∀ t exchanges result last, (act.run t).Took exchanges result last →
    Run.Linked move t exchanges last

section Moves

variable {move : Tree → Tree → Prop}

/-- An operation that ends at once makes a move. -/
theorem Moves.of_done {act : TreeM α}
    (h : ∀ t, ∃ result t', act.run t = .done result t' ∧ move t t') : Moves move act := by
  intro t exchanges result last htook
  obtain ⟨result', t', hrun, hmove⟩ := h t
  rw [hrun, Run.took_done_iff] at htook
  obtain ⟨rfl, rfl, rfl⟩ := htook
  exact hmove

/-- Answering moves nothing. -/
theorem Moves.pure [Std.Refl move] (a : α) : Moves move (pure a : TreeM α) :=
  .of_done fun t => ⟨_, t, rfl, Std.Refl.refl t⟩

/-- Asking moves nothing. -/
theorem Moves.ask [Std.Refl move] (q : Query) : Moves move (ask q) := by
  intro t exchanges result last htook
  cases htook with
  | @ask _ _ _ reply t' rest _ _ h =>
    cases reply with
    | ok reply =>
      obtain ⟨rfl, -, rfl⟩ := Run.took_done_iff.mp h
      exact ⟨Std.Refl.refl t, Std.Refl.refl last⟩
    | error e =>
      obtain ⟨rfl, -, rfl⟩ := Run.took_done_iff.mp h
      exact ⟨Std.Refl.refl t, Std.Refl.refl last⟩

variable [Trans move move move]

/-- Operations make their moves one after the other. -/
theorem Moves.bind {x : TreeM α} {f : α → TreeM β} (hx : Moves move x)
    (hf : ∀ a, Moves move (f a)) : Moves move (x >>= f) := by
  intro t exchanges result last htook
  rcases Run.took_bind htook with ⟨a, t', front, back, rfl, hfront, hback⟩ | ⟨e, -, hfailed⟩
  · exact (hx _ _ _ _ hfront).append (hf a _ _ _ _ hback)
  · exact hx _ _ _ _ hfailed

/-- Holding objects is a move, and so is releasing them. -/
theorem Moves.holding {nodes : List Node} {act : TreeM α} (hact : Moves move act)
    (hhold : ∀ t : Tree, move t (t.hold nodes)) (hrelease : ∀ t : Tree, move t (t.release nodes)) :
    Moves move (holding nodes act) := by
  intro t exchanges result last htook
  rw [run_holding] at htook
  obtain ⟨t', hinner, rfl⟩ := Run.took_settle htook
  exact ((hact _ _ _ _ hinner).head (hhold t)).tail (hrelease t')

end Moves

/-! ### Keeping a property -/

/-- Whatever else happens keeps a property of trees. -/
def keeping (P : Tree → Prop) : World :=
  fun _ t _ t' => P t → P t'

/-- An operation keeps a property of trees, also where it is asking, if whatever else happens
does. -/
def Keeps (P : Tree → Prop) (act : TreeM α) : Prop :=
  ∀ t, P t → (act.run t).Always (keeping P) fun _ t' => P t'

variable {P : Tree → Prop}

/-- Answering keeps everything. -/
theorem Keeps.pure (a : α) : Keeps P (pure a : TreeM α) :=
  fun _ h => h

/-- Failing keeps everything. -/
theorem Keeps.fail (e : TreeError) : Keeps P (fail e : TreeM α) :=
  fun _ h => h

/-- Reading the tree keeps everything. -/
theorem Keeps.get : Keeps P (get : TreeM Tree) :=
  fun _ h => h

/-- A change keeps what it keeps. -/
theorem Keeps.modifyGet {f : Tree → α × Tree} (hf : ∀ t, P t → P (f t).2) :
    Keeps P (modifyGet f : TreeM α) :=
  hf

/-- A change without an answer keeps what it keeps. -/
theorem Keeps.modify {f : Tree → Tree} (hf : ∀ t, P t → P (f t)) :
    Keeps P (modify f : TreeM Unit) :=
  hf

/-- A question keeps what is kept while it is open. -/
theorem Keeps.ask (q : Query) : Keeps P (ask q) := by
  intro t h reply t' hw
  cases reply <;> exact hw h

/-- Going on with a value keeps everything. -/
theorem Keeps.require (e : TreeError) (a : Option α) : Keeps P (require e a) := by
  cases a with
  | none => exact .fail e
  | some a => exact .pure a

/-- Operations that keep a property, one after the other. -/
theorem Keeps.bind {x : TreeM α} {f : α → TreeM β} (hx : Keeps P x) (hf : ∀ a, Keeps P (f a)) :
    Keeps P (x >>= f) := by
  intro t h
  rw [run_bind, Run.always_bind_iff]
  refine (hx t h).mono fun result t' h' => ?_
  cases result with
  | ok a => exact hf a t' h'
  | error e => exact h'

/-- An operation whose answer is mapped keeps what the operation keeps. -/
theorem Keeps.map {x : TreeM α} (f : α → β) (hx : Keeps P x) : Keeps P (f <$> x) :=
  Keeps.bind (f := fun a => Pure.pure (f a)) hx fun a => .pure (f a)

/-- Holding objects keeps what does not depend on who holds them. -/
theorem Keeps.holding {nodes : List Node} {act : TreeM α} (hact : Keeps P act)
    (hhold : ∀ t, P t → P (t.hold nodes)) (hrelease : ∀ t, P t → P (t.release nodes)) :
    Keeps P (holding nodes act) := by
  intro t h
  rw [run_holding, Run.always_settle_iff]
  exact (hact _ (hhold t h)).mono fun _ t' h' => hrelease t' h'

end TreeM

end LazyTree
