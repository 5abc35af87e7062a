import LazyTree.Proofs.Routine

set_option autoImplicit false

/-!
# Operations under way at the same time

Any number of clients look names up in a directory and list it. A schedule says whose turn it is,
and each turn is one step of a routine, so everything that can happen between any two steps of one
client is the steps of others. What holds in the end is argued client by client. Everybody may rely
on it that a property of trees holds at all times, and that trees only ever become larger in some
order; and everybody has to keep to that with each step of their own.

## Main definitions

* `LazyTree.Client`, `LazyTree.System` — an operation under way, and all of them with their tree.
* `LazyTree.System.run` — the turns of a schedule.
* `LazyTree.Discipline` — what everybody may rely on and has to keep to.
* `LazyTree.Discipline.Safe` — a routine keeps to it, and what it ends with.

## Main results

* `LazyTree.Discipline.Safe.bind`, `LazyTree.Discipline.Safe.remember` — how routines are put
  together, and what they do not forget.
* `LazyTree.Discipline.allSafe_run` — all clients keep to it under every schedule.
-/

namespace LazyTree

/-- The listing that a change of an array installs, if that is what it does. -/
def Children.Op.installed? : (op : Children.Op) → Except TreeError op.Answer → Option (List Node)
  | .install listing _, .ok true => some listing
  | _, _ => none

namespace Routine

variable {α : Type}

/-- One step of a routine on a tree: the steps that are left, the tree afterwards, and the listing
that was installed, if one was. -/
def advance (answers : Answers) (dir : Node) :
    Routine α → Tree → Routine α × Tree × Option (List Node)
  | done result, t => (done result, t, none)
  | work f next, t => (next t, f t, none)
  | change op next, t =>
    (next (t.changed dir op).1, (t.changed dir op).2, op.installed? (t.changed dir op).1)
  | ask q next, t => (next (answers q), t, none)

end Routine

/-- What a client wants of a directory. -/
inductive Task where
  /-- To look a name up. -/
  | lookup (name : String)
  /-- To list all children. -/
  | listing
deriving DecidableEq

/-- A client, with the steps that are left. -/
inductive Client where
  /-- It looks a name up. -/
  | lookup (name : String) (rest : Routine Lookup)
  /-- It lists all children. -/
  | listing (rest : Routine (List Node))

/-- A client with a task, at its beginning. -/
def Task.client (dir : Node) : Task → Client
  | lookup name => .lookup name (.lookup dir name)
  | listing => .listing (.refreshChildren dir)

/-- One step of a client. -/
def Client.advance (answers : Answers) (dir : Node) :
    Client → Tree → Client × Tree × Option (List Node)
  | lookup name rest, t =>
    let (rest, t, installed) := rest.advance answers dir t
    (.lookup name rest, t, installed)
  | listing rest, t =>
    let (rest, t, installed) := rest.advance answers dir t
    (.listing rest, t, installed)

/-- A tree and those who work on one of its directories. -/
structure System where
  /-- The tree. -/
  tree : Tree
  /-- The clients. -/
  clients : List Client
  /-- The listings that were installed, the latest first. -/
  installed : List (List Node)

namespace System

/-- Clients with tasks, at the beginning. -/
def start (t : Tree) (dir : Node) (tasks : List Task) : System :=
  ⟨t, tasks.map (Task.client dir), []⟩

/-- It is the turn of a client. -/
def turn (answers : Answers) (dir : Node) (s : System) (i : Nat) : System :=
  match s.clients[i]? with
  | none => s
  | some client =>
    let (client, t, installed) := client.advance answers dir s.tree
    ⟨t, s.clients.set i client, installed.toList ++ s.installed⟩

/-- The turns of a schedule, one after the other. -/
def run (answers : Answers) (dir : Node) (s : System) (schedule : List Nat) : System :=
  schedule.foldl (turn answers dir) s

end System

/-- What everybody may rely on and has to keep to. -/
structure Discipline where
  /-- The answers of the backend. -/
  answers : Answers
  /-- The directory that all this is about. -/
  dir : Node
  /-- What holds of the tree at all times. -/
  valid : Tree → Prop
  /-- How the tree becomes larger. -/
  grows : Tree → Tree → Prop
  /-- It may stay as it is. -/
  refl : ∀ t, grows t t
  /-- It may become larger and larger. -/
  trans : ∀ {t t' t'' : Tree}, grows t t' → grows t' t'' → grows t t''

namespace Discipline

variable (D : Discipline) {α β : Type}

/-- A change that keeps to the discipline. -/
def Keeps (f : Tree → Tree) : Prop :=
  ∀ t, D.valid t → D.valid (f t) ∧ D.grows t (f t)

/-- A routine keeps to the discipline from a tree on, however the tree becomes larger in between,
and what it answers is right from then on. It may fail at any time. -/
def Safe (post : α → Tree → Prop) : Routine α → Tree → Prop
  | .done (.ok a), t => ∀ t', D.valid t' → D.grows t t' → post a t'
  | .done (.error _), _ => True
  | .work f next, t => ∀ t', D.valid t' → D.grows t t' →
    (D.valid (f t') ∧ D.grows t' (f t')) ∧ Safe post (next t') (f t')
  | .change op next, t => ∀ t', D.valid t' → D.grows t t' →
    (D.valid (t'.changed D.dir op).2 ∧ D.grows t' (t'.changed D.dir op).2) ∧
      Safe post (next (t'.changed D.dir op).1) (t'.changed D.dir op).2
  | .ask q next, t => ∀ t', D.valid t' → D.grows t t' → Safe post (next (D.answers q)) t'

variable {D} {post post' : α → Tree → Prop} {r : Routine α} {t t' : Tree}

/-- A routine that keeps to the discipline does so from every larger tree. -/
theorem Safe.later (h : D.Safe post r t) (hgrows : D.grows t t') : D.Safe post r t' := by
  cases r with
  | done result =>
    cases result with
    | ok a => exact fun t'' hvalid hlater => h t'' hvalid (D.trans hgrows hlater)
    | error e => trivial
  | work f next => exact fun t'' hvalid hlater => h t'' hvalid (D.trans hgrows hlater)
  | change op next => exact fun t'' hvalid hlater => h t'' hvalid (D.trans hgrows hlater)
  | ask q next => exact fun t'' hvalid hlater => h t'' hvalid (D.trans hgrows hlater)

/-- Less may be known of an answer. -/
theorem Safe.mono (h : D.Safe post r t)
    (hpost : ∀ a t', D.valid t' → post a t' → post' a t') : D.Safe post' r t := by
  induction r generalizing t with
  | done result =>
    cases result with
    | ok a => exact fun t' hvalid hgrows => hpost a t' hvalid (h t' hvalid hgrows)
    | error e => trivial
  | work f next ih =>
    exact fun t' hvalid hgrows => (h t' hvalid hgrows).imp_right (ih t')
  | change op next ih =>
    exact fun t' hvalid hgrows => (h t' hvalid hgrows).imp_right (ih _)
  | ask q next ih => exact fun t' hvalid hgrows => ih _ (h t' hvalid hgrows)

/-- What stays right while the tree becomes larger is not forgotten on the way. -/
theorem Safe.remember {known : Tree → Prop} (h : D.Safe post r t) (hknown : known t)
    (hstays : ∀ t t', D.grows t t' → known t → known t') :
    D.Safe (fun a t => post a t ∧ known t) r t := by
  induction r generalizing t with
  | done result =>
    cases result with
    | ok a => exact fun t' hvalid hgrows => ⟨h t' hvalid hgrows, hstays _ _ hgrows hknown⟩
    | error e => trivial
  | work f next ih =>
    intro t' hvalid hgrows
    obtain ⟨hkeeps, hnext⟩ := h t' hvalid hgrows
    exact ⟨hkeeps, ih t' hnext (hstays _ _ (D.trans hgrows hkeeps.2) hknown)⟩
  | change op next ih =>
    intro t' hvalid hgrows
    obtain ⟨hkeeps, hnext⟩ := h t' hvalid hgrows
    exact ⟨hkeeps, ih _ hnext (hstays _ _ (D.trans hgrows hkeeps.2) hknown)⟩
  | ask q next ih =>
    exact fun t' hvalid hgrows => ih _ (h t' hvalid hgrows) (hstays _ _ hgrows hknown)

/-- Routines that keep to the discipline do so one after the other. -/
theorem Safe.bind {f : α → Routine β} {post' : β → Tree → Prop} (h : D.Safe post r t)
    (hf : ∀ a t', D.valid t' → post a t' → D.Safe post' (f a) t') (hvalid : D.valid t) :
    D.Safe post' (r >>= f) t := by
  show D.Safe post' (r.bind f) t
  induction r generalizing t with
  | done result =>
    cases result with
    | ok a => exact hf a t hvalid (h t hvalid (D.refl t))
    | error e => trivial
  | work g next ih =>
    intro t' hvalid' hgrows
    obtain ⟨hkeeps, hnext⟩ := h t' hvalid' hgrows
    exact ⟨hkeeps, ih t' hnext hkeeps.1⟩
  | change op next ih =>
    intro t' hvalid' hgrows
    obtain ⟨hkeeps, hnext⟩ := h t' hvalid' hgrows
    exact ⟨hkeeps, ih _ hnext hkeeps.1⟩
  | ask q next ih =>
    exact fun t' hvalid' hgrows => ih _ ((h t' hvalid' hgrows).later (D.refl t')) hvalid'

/-- Nothing need be known of the first of two routines but that it keeps to the discipline. -/
theorem Safe.andThen {f : α → Routine β} {post' : β → Tree → Prop}
    (h : D.Safe (fun _ _ => True) r t) (hf : ∀ a t', D.valid t' → D.Safe post' (f a) t')
    (hvalid : D.valid t) : D.Safe post' (r >>= f) t :=
  h.bind (fun a t' hvalid' _ => hf a t' hvalid') hvalid

/-- A change at the end of a routine may keep to the discipline as well. -/
theorem Safe.settle {f : Tree → Tree} (h : D.Safe post r t) (hf : D.Keeps f) :
    D.Safe post (r.settle f) t := by
  induction r generalizing t with
  | done result =>
    intro t' hvalid hgrows
    refine ⟨hf t' hvalid, ?_⟩
    exact h.later (D.trans hgrows (hf t' hvalid).2)
  | work g next ih => exact fun t' hvalid hgrows => (h t' hvalid hgrows).imp_right (ih t')
  | change op next ih => exact fun t' hvalid hgrows => (h t' hvalid hgrows).imp_right (ih _)
  | ask q next ih => exact fun t' hvalid hgrows => ih _ (h t' hvalid hgrows)

/-- An answer that is right from then on may be given. -/
theorem safe_pure {a : α} (h : ∀ t', D.valid t' → D.grows t t' → post a t') :
    D.Safe post (pure a) t :=
  h

/-- A demand that is met goes on. -/
theorem safe_require {e : TreeError} {o : Option α}
    (h : ∀ a, o = some a → ∀ t', D.valid t' → D.grows t t' → post a t') :
    D.Safe post (.require e o) t := by
  cases o with
  | none => trivial
  | some a => exact h a rfl

/-- What reads the tree goes on with a larger one. -/
theorem safe_look_bind {f : Tree → Routine α}
    (h : ∀ t', D.valid t' → D.grows t t' → D.Safe post (f t') t') :
    D.Safe post (Routine.look >>= f) t :=
  fun t' hvalid hgrows => ⟨⟨hvalid, D.refl t'⟩, h t' hvalid hgrows⟩

/-- What works on the tree has to keep to the discipline. -/
theorem safe_workOn_bind {g : Tree → β × Tree} {f : β → Routine α}
    (hg : D.Keeps fun t => (g t).2)
    (h : ∀ t', D.valid t' → D.grows t t' → D.Safe post (f (g t').1) (g t').2) :
    D.Safe post (Routine.workOn g >>= f) t :=
  fun t' hvalid hgrows => ⟨hg t' hvalid, h t' hvalid hgrows⟩

/-- What asks the backend goes on with its answer. -/
theorem safe_inquire_bind {q : Query} {f : q.Reply → Routine α}
    (h : ∀ reply, D.answers q = .ok reply → D.Safe post (f reply) t) :
    D.Safe post (Routine.inquire q >>= f) t := by
  intro t' hvalid hgrows
  cases hreply : D.answers q with
  | ok reply => exact (h reply hreply).later hgrows
  | error e => trivial

/-- What changes the array has to keep to the discipline, and goes on with the answer. -/
theorem safe_alter_bind (op : Children.Op) {f : op.Answer → Routine α}
    (h : ∀ t' c, D.valid t' → D.grows t t' → t'.children? D.dir = some c →
      ∃ answer, (c.apply op).1 = .ok answer ∧
        D.valid (t'.setChildren D.dir (c.apply op).2) ∧
        D.grows t' (t'.setChildren D.dir (c.apply op).2) ∧
        D.Safe post (f answer) (t'.setChildren D.dir (c.apply op).2)) :
    D.Safe post (Routine.alter op >>= f) t := by
  intro t' hvalid hgrows
  show (D.valid (t'.changed D.dir op).2 ∧ D.grows t' (t'.changed D.dir op).2) ∧
    D.Safe post (Routine.bind (.done (t'.changed D.dir op).1) f) (t'.changed D.dir op).2
  rw [Tree.changed]
  cases hc : t'.children? D.dir with
  | none => exact ⟨⟨hvalid, D.refl t'⟩, trivial⟩
  | some c =>
    obtain ⟨answer, hanswer, hvalid', hgrows', hsafe⟩ := h t' c hvalid hgrows hc
    dsimp only
    rw [hanswer]
    exact ⟨⟨hvalid', hgrows'⟩, hsafe⟩

/-- What holds objects has to keep to the discipline. -/
theorem safe_holding {nodes : List Node} {act : Routine α} (hhold : D.Keeps (·.hold nodes))
    (hrelease : D.Keeps (·.release nodes))
    (h : ∀ t', D.valid t' → D.grows t t' → D.Safe post act (t'.hold nodes)) :
    D.Safe post (.holding nodes act) t :=
  fun t' hvalid hgrows => ⟨hhold t' hvalid, (h t' hvalid hgrows).settle hrelease⟩

/-! ### All clients -/

/-- A client keeps to the discipline, and the answer of a lookup is right. -/
def ClientSafe (D : Discipline) (post : String → Lookup → Tree → Prop) (client : Client)
    (t : Tree) : Prop :=
  match client with
  | .lookup name rest => D.Safe (post name) rest t
  | .listing rest => D.Safe (fun _ _ => True) rest t

/-- All clients keep to the discipline. -/
structure AllSafe (D : Discipline) (post : String → Lookup → Tree → Prop) (s : System) : Prop where
  /-- What holds of the tree at all times holds. -/
  valid : D.valid s.tree
  /-- Each client keeps to the discipline. -/
  clients : ∀ client ∈ s.clients, D.ClientSafe post client s.tree

/-- A step of a routine that keeps to the discipline does, and so do the steps that are left. -/
theorem Safe.advance (h : D.Safe post r t) (hvalid : D.valid t) :
    (D.valid (r.advance D.answers D.dir t).2.1 ∧ D.grows t (r.advance D.answers D.dir t).2.1) ∧
      D.Safe post (r.advance D.answers D.dir t).1 (r.advance D.answers D.dir t).2.1 := by
  cases r with
  | done result => exact ⟨⟨hvalid, D.refl t⟩, h⟩
  | work f next => exact h t hvalid (D.refl t)
  | change op next => exact h t hvalid (D.refl t)
  | ask q next => exact ⟨⟨hvalid, D.refl t⟩, h t hvalid (D.refl t)⟩

variable {lookups : String → Lookup → Tree → Prop} {s : System}

/-- Whoever's turn it is, the tree becomes larger, and all clients keep to the discipline. -/
theorem allSafe_turn (h : D.AllSafe lookups s) (i : Nat) :
    D.grows s.tree (s.turn D.answers D.dir i).tree ∧
      D.AllSafe lookups (s.turn D.answers D.dir i) := by
  rw [System.turn]
  cases hclient : s.clients[i]? with
  | none => exact ⟨D.refl _, h⟩
  | some client =>
    have hsafe := h.clients client (List.mem_of_getElem? hclient)
    have hadvance : (D.valid (client.advance D.answers D.dir s.tree).2.1 ∧
        D.grows s.tree (client.advance D.answers D.dir s.tree).2.1) ∧
        D.ClientSafe lookups (client.advance D.answers D.dir s.tree).1
          (client.advance D.answers D.dir s.tree).2.1 := by
      cases client with
      | lookup name rest => exact Safe.advance hsafe h.valid
      | listing rest => exact Safe.advance hsafe h.valid
    obtain ⟨⟨hvalid, hgrows⟩, hnext⟩ := hadvance
    refine ⟨hgrows, hvalid, fun other hother => ?_⟩
    rcases List.mem_or_eq_of_mem_set hother with hother | rfl
    · cases other with
      | lookup name rest => exact Safe.later (h.clients _ hother) hgrows
      | listing rest => exact Safe.later (h.clients _ hother) hgrows
    · exact hnext

/-- Under every schedule the tree becomes larger, and all clients keep to the discipline. -/
theorem allSafe_run (h : D.AllSafe lookups s) (schedule : List Nat) :
    D.grows s.tree (s.run D.answers D.dir schedule).tree ∧
      D.AllSafe lookups (s.run D.answers D.dir schedule) := by
  induction schedule generalizing s with
  | nil => exact ⟨D.refl _, h⟩
  | cons i schedule ih =>
    obtain ⟨hfirst, hsafe⟩ := allSafe_turn h i
    obtain ⟨hrest, hsafe⟩ := ih hsafe
    exact ⟨D.trans hfirst hrest, hsafe⟩

end Discipline

end LazyTree
