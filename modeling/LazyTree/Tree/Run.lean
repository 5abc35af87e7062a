import LazyTree.Backend.Query
import LazyTree.Tree.Store

set_option autoImplicit false

/-!
# Operations on a tree as resumable runs

An operation on a tree works on the store and, now and then, asks the backend. While a question
is open nothing of the tree is locked: anything may happen to the tree before the answer comes.
So a run stops at each question, shows the tree as it is at that moment, and goes on with the
answer and whatever tree it finds then.

## Main definitions

* `LazyTree.TreeError` — why an operation fails.
* `LazyTree.Run` — a run: its end, or an open question and how the run goes on.
* `LazyTree.TreeM` — operations, a monad over the store.
* `LazyTree.TreeM.holding` — an operation during which some objects are held.
* `LazyTree.Run.serve` — the end of a run whose questions a server answers.
-/

namespace LazyTree

/-- Why an operation on a tree fails. -/
inductive TreeError where
  /-- The backend failed. -/
  | backend (error : BackendError)
  /-- A node that is no directory has no children. -/
  | notADirectory (id : FileId)
  /-- Nothing alive stands for the identity of an ancestor. -/
  | detached (id : FileId)
  /-- The new array of a directory would break a rule. -/
  | inconsistent (broken : Inconsistency)
  /-- The ancestors or descendants of a node have no end. -/
  | endless (id : FileId)
deriving DecidableEq

namespace TreeError

/-- The word for a failure. -/
def kind : TreeError → String
  | backend error => "Backend." ++ error.kind
  | notADirectory _ => "NotADirectory"
  | detached _ => "Detached"
  | inconsistent _ => "Inconsistent"
  | endless _ => "Endless"

/-- The wording of a failure, given how identities are shown. -/
def messageWith (label : FileId → String) : TreeError → String
  | backend error => "backend error: " ++ error.messageWith label
  | notADirectory id => label id ++ " is not a directory"
  | detached id => "node " ++ label id ++ " is not attached to the tree"
  | inconsistent broken => "children array is inconsistent: " ++ broken.message
  | endless id => "node " ++ label id ++ " lies on an endless path"

end TreeError

/-- A run of an operation. -/
inductive Run (α : Type) where
  /-- The run has ended, and leaves a tree. -/
  | done (result : Except TreeError α) (tree : Tree)
  /-- The run waits for an answer, to go on from the tree that it finds then. -/
  | ask (query : Query) (tree : Tree)
      (resume : Except BackendError query.Reply → Tree → Run α)

namespace Run

variable {α β σ : Type}

/-- Goes on with the result of a run. A failure ends both. -/
def bind : Run α → (α → Tree → Run β) → Run β
  | done (.ok a) t, next => next a t
  | done (.error e) t, _ => done (.error e) t
  | ask q t resume, next => ask q t fun reply t => (resume reply t).bind next

/-- Changes the tree that a run leaves, however it ends. -/
def settle (f : Tree → Tree) : Run α → Run α
  | done result t => done result (f t)
  | ask q t resume => ask q t fun reply t => (resume reply t).settle f

/-- The end of a run. The server answers each question; it sees the tree, may change it, and
carries a state of its own from one question to the next. -/
def serve (server : (q : Query) → Tree → σ → Except BackendError q.Reply × Tree × σ) :
    Run α → σ → Except TreeError α × Tree × σ
  | done result t, s => (result, t, s)
  | ask q t resume, s =>
    let (reply, t, s) := server q t s
    (resume reply t).serve server s

end Run

/-- An operation on a tree. -/
def TreeM (α : Type) := Tree → Run α

namespace TreeM

variable {α β : Type}

instance : Monad TreeM where
  pure a := fun t => .done (.ok a) t
  bind x f := fun t => (x t).bind f

instance : MonadStateOf Tree TreeM where
  get := fun t => .done (.ok t) t
  set t := fun _ => .done (.ok ()) t
  modifyGet f := fun t => .done (.ok (f t).1) (f t).2

/-- Fails. -/
def fail (e : TreeError) : TreeM α :=
  fun t => .done (.error e) t

/-- Asks the backend. Its failure is a failure of the operation. -/
def ask (q : Query) : TreeM q.Reply :=
  fun t => .ask q t fun
    | .ok reply, t => .done (.ok reply) t
    | .error e, t => .done (.error (.backend e)) t

/-- Goes on with a value, if there is one, and fails otherwise. -/
def require (e : TreeError) : Option α → TreeM α
  | some a => pure a
  | none => fail e

/-- Holds some objects for the duration of an operation. -/
def holding (nodes : List Node) (act : TreeM α) : TreeM α :=
  fun t => (act (t.hold nodes)).settle (·.release nodes)

end TreeM

end LazyTree
