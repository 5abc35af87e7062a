import LazyTree.Proofs.Updates

set_option autoImplicit false

/-!
# Operations step by step

A run of an operation shows the tree only where the operation asks the backend. Operations that are
under way at the same time interleave more finely than that: others may come between any two
accesses to the tree. A routine is an operation taken apart into such accesses. Each of them is
atomic: a piece of work on the tree, a change of the array of the directory that the operation is
about, or a question to the backend. Lookups and listings are written as routines; if nobody comes
in between, a routine does what the operation does.

## Main definitions

* `LazyTree.Routine` — an operation on a directory, step by step.
* `LazyTree.Routine.op` — the operation, if nobody comes in between.
* `LazyTree.Routine.lookup`, `LazyTree.Routine.refreshChildren` — looking a name up and listing the
  directory, step by step.

## Main results

* `LazyTree.Routine.op_lookup`, `LazyTree.Routine.op_refreshChildren` — they are the operations of
  the tree.
-/

namespace LazyTree

open TreeM

/-- An operation on a directory, step by step. -/
inductive Routine (α : Type) where
  /-- It has ended. -/
  | done (result : Except TreeError α)
  /-- It changes the tree, and goes on with what it found there before. -/
  | work (f : Tree → Tree) (next : Tree → Routine α)
  /-- It changes the array of the directory, and goes on with the answer. -/
  | change (op : Children.Op) (next : Except TreeError op.Answer → Routine α)
  /-- It asks the backend, and goes on with the answer. -/
  | ask (q : Query) (next : Except BackendError q.Reply → Routine α)

/-- A change of the array of a directory, with its answer. -/
def Tree.changed (t : Tree) (dir : Node) (op : Children.Op) : Except TreeError op.Answer × Tree :=
  match t.children? dir with
  | none => (.error (.notADirectory dir.id), t)
  | some c => ((c.apply op).1.mapError .inconsistent, t.setChildren dir (c.apply op).2)

namespace Routine

variable {α β : Type}

/-- Goes on with the result of a routine. A failure ends both. -/
def bind : Routine α → (α → Routine β) → Routine β
  | done (.ok a), f => f a
  | done (.error e), _ => done (.error e)
  | work g next, f => work g fun t => (next t).bind f
  | change op next, f => change op fun answer => (next answer).bind f
  | ask q next, f => ask q fun reply => (next reply).bind f

/-- Changes the tree at the end of a routine, however it ends. -/
def settle (f : Tree → Tree) : Routine α → Routine α
  | done result => work f fun _ => done result
  | work g next => work g fun t => (next t).settle f
  | change op next => change op fun answer => (next answer).settle f
  | ask q next => ask q fun reply => (next reply).settle f

instance : Monad Routine where
  pure a := done (.ok a)
  bind := bind

/-- Fails. -/
def fail (e : TreeError) : Routine α :=
  done (.error e)

/-- Reads the tree. -/
def look : Routine Tree :=
  work id fun t => done (.ok t)

/-- Changes the tree, and answers. -/
def workOn (f : Tree → α × Tree) : Routine α :=
  work (fun t => (f t).2) fun t => done (.ok (f t).1)

/-- Changes the array of the directory. -/
def alter (op : Children.Op) : Routine op.Answer :=
  change op done

/-- Asks the backend. Its failure is a failure of the routine. -/
def inquire (q : Query) : Routine q.Reply :=
  ask q fun
    | .ok reply => done (.ok reply)
    | .error e => done (.error (.backend e))

/-- Goes on with a value, if there is one, and fails otherwise. -/
def require (e : TreeError) : Option α → Routine α
  | some a => pure a
  | none => fail e

/-- Holds some objects for the duration of a routine. -/
def holding (nodes : List Node) (act : Routine α) : Routine α :=
  work (·.hold nodes) fun _ => act.settle (·.release nodes)

/-! ### Lookups -/

/-- Reads what is known about the children of a directory. -/
def childrenOf (dir : Node) : Routine Children := do
  require (.notADirectory dir.id) ((← look).children? dir)

/-- Looks a name up in the array alone. -/
def findCached (dir : Node) (name : String) : Routine Knowledge := do
  let c ← childrenOf dir
  return if isFileName name then c.find name else .absent

/-- Records what the backend said about a name, unless the array knows better by now. -/
def recordAnswer (dir : Node) (name query : String) (id : Option FileId)
    (attributes : Option Attributes) : Routine Lookup := do
  match id, attributes with
  | some id, some attributes =>
    let child ← workOn (·.make dir id query attributes)
    match ← alter (.insertIfUnknown child) with
    | .present node =>
      workOn fun t => ((), t.register node)
      return .present node
    | _ => return .absent
  | _, _ =>
    match ← alter (.insertAbsent name) with
    | .present node => return .present node
    | _ => return .absent

/-- Asks the backend for a name under a spelling, and records the answer. -/
def askFor (dir : Node) (name query : String) (policy : CasePolicy) : Routine Lookup := do
  match ← inquire (.resolve dir.id query policy) with
  | some id => recordAnswer dir name query (some id) (← inquire (.attributes dir.id query))
  | none => recordAnswer dir name query none none

/-- Looks a name up: the array is searched, the backend is asked, and its answer is recorded. -/
def lookup (dir : Node) (name : String) : Routine Lookup := do
  let canonicalize := (← look).config.canonicalizeNames
  match ← findCached dir name with
  | .present node => return .present node
  | .absent => return .absent
  | .unknown =>
    let policy := (← look).policy
    if canonicalize && !policy.isSensitive then
      let query ← inquire (.canonical dir.id name)
      askFor dir name query policy
    else askFor dir name name policy

/-! ### Listings -/

/-- Merges an entry of a listing with the cached child of its name. -/
def mergeEntry (dir : Node) (entry : Listed) (candidate : Option Node)
    (rest : Routine (List Node)) : Routine (List Node) :=
  match candidate.filter (·.id = entry.id) with
  | some node => return node :: (← rest)
  | none => do
    match ← inquire (.attributes dir.id entry.name) with
    | none => rest
    | some attributes =>
      let node ← workOn (·.make dir entry.id entry.name attributes)
      return node :: (← holding [node] rest)

/-- Merges a sorted listing with the cached children. -/
def mergeListing (dir : Node) (cached : List Node) : List Listed → Routine (List Node)
  | [] => return []
  | entry :: rest => do
    let policy := (← look).policy
    mergeEntry dir entry (Tree.passed policy cached entry).1
      (mergeListing dir (Tree.passed policy cached entry).2 rest)

/-- Drops the registry entries of some nodes and of everything cached below them. -/
def unregisterSubtrees : List Node → Routine Unit
  | [] => return
  | node :: rest => do
    let serials ← require (.endless node.id) ((← look).subtree? node)
    workOn fun t => ((), t.unregisterAll serials)
    unregisterSubtrees rest

/-- Installs a merged listing, unless the directory changed since the given generation. -/
def installListing (cached merged : List Node) (generation : Nat) : Routine Unit := do
  if ← alter (.install merged generation) then
    workOn fun t => ((), merged.foldl Tree.register t)
    unregisterSubtrees (cached.filter fun n => !merged.any (·.serial = n.serial))

/-- Lists a directory: the flag and the count are read, the backend is asked for the listing, the
cached children are read, the two are merged, and the result is installed. -/
def refreshChildren (dir : Node) : Routine (List Node) := do
  if (← childrenOf dir).allLoaded then return (← childrenOf dir).present
  let generation := (← childrenOf dir).generation
  let listing ← inquire (.list dir.id)
  let listing := Tree.sortedListing (← look).policy listing
  let cached := (← childrenOf dir).present
  holding cached do
    let merged ← mergeListing dir cached listing
    holding merged (installListing cached merged generation)
    return merged

/-! ### If nobody comes in between -/

/-- The operation on a directory that a routine is, if nobody comes in between its steps, except
while the backend is asked. -/
def op (dir : Node) : Routine α → TreeM α
  | done result => fun t => .done result t
  | work f next => fun t => (next t).op dir (f t)
  | change op next => fun t => (next (t.changed dir op).1).op dir (t.changed dir op).2
  | ask q next => fun t => .ask q t fun reply t' => (next reply).op dir t'

variable {dir : Node}

/-- What only answers does so. -/
@[simp] theorem op_pure (a : α) : (pure a : Routine α).op dir = pure a := rfl

/-- Routines one after the other are operations one after the other. -/
@[simp] theorem op_bind (x : Routine α) (f : α → Routine β) :
    (x >>= f).op dir = x.op dir >>= fun a => (f a).op dir := by
  refine funext fun t => ?_
  show (x.bind f).op dir t = (x.op dir t).bind fun a => (f a).op dir
  induction x generalizing t with
  | done result => cases result <;> rfl
  | work g next ih => exact ih t (g t)
  | change op next ih => exact ih _ _
  | ask q next ih => exact congrArg (Run.ask q t) (funext fun reply => funext fun t' => ih reply t')

/-- What is changed at the end of a routine is changed at the end of the operation. -/
theorem op_settle (f : Tree → Tree) (x : Routine α) (t : Tree) :
    (x.settle f).op dir t = (x.op dir t).settle f := by
  induction x generalizing t with
  | done result => rfl
  | work g next ih => exact ih t (g t)
  | change op next ih => exact ih _ _
  | ask q next ih => exact congrArg (Run.ask q t) (funext fun reply => funext fun t' => ih reply t')

/-- Reading the tree is an operation. -/
@[simp] theorem op_look : look.op dir = get := rfl

/-- Changing the tree is an operation. -/
@[simp] theorem op_workOn (f : Tree → α × Tree) : (workOn f).op dir = modifyGet f := rfl

/-- What begins with a change of the array is an operation that does. -/
theorem op_alter_bind (op : Children.Op) {f : op.Answer → Routine β} {g : op.Answer → TreeM β}
    (h : ∀ answer, (f answer).op dir = g answer) :
    (alter op >>= f).op dir = (Tree.change dir fun c => c.apply op) >>= g := by
  have halter : (alter op).op dir = Tree.change dir fun c => c.apply op := by
    refine funext fun t => ?_
    show Run.done (t.changed dir op).1 (t.changed dir op).2 =
      (Tree.change dir fun c => c.apply op).run t
    rw [Tree.run_change, Tree.changed]
    cases t.children? dir <;> rfl
  rw [op_bind, halter, funext h]

/-- Asking the backend is an operation. -/
theorem op_inquire (q : Query) : (inquire q).op dir = TreeM.ask q := by
  refine funext fun t => congrArg (Run.ask q t) (funext fun reply => funext fun t' => ?_)
  cases reply <;> rfl

/-- What begins with a question is an operation that does. -/
theorem op_inquire_bind (q : Query) {f : q.Reply → Routine β} {g : q.Reply → TreeM β}
    (h : ∀ reply, (f reply).op dir = g reply) :
    (inquire q >>= f).op dir = TreeM.ask q >>= g := by
  rw [op_bind, op_inquire, funext h]

/-- The demand for a value is an operation. -/
@[simp] theorem op_require (e : TreeError) (a : Option α) :
    (require e a).op dir = TreeM.require e a := by
  cases a <;> rfl

/-- Holding objects is an operation. -/
@[simp] theorem op_holding (nodes : List Node) (act : Routine α) :
    (holding nodes act).op dir = TreeM.holding nodes (act.op dir) :=
  funext fun t => op_settle (·.release nodes) act (t.hold nodes)

/-- Reading the array is an operation. -/
@[simp] theorem op_childrenOf : (childrenOf dir).op dir = Tree.childrenOf dir := by
  simp only [childrenOf, Tree.childrenOf, op_bind, op_look, op_require]

/-- Looking a name up in the array is the operation of the tree. -/
@[simp] theorem op_findCached (name : String) :
    (findCached dir name).op dir = Tree.findCached dir name := by
  simp only [findCached, Tree.findCached, op_bind, op_childrenOf, op_pure]

/-- Recording an answer is the operation of the tree. -/
theorem op_recordAnswer (name query : String) (id : Option FileId)
    (attributes : Option Attributes) : (recordAnswer dir name query id attributes).op dir =
      Tree.recordAnswer dir name query id attributes := by
  have habsent : (recordAnswer dir name query none none).op dir =
      Tree.recordAnswer dir name query none none :=
    op_alter_bind (.insertAbsent name) fun knowledge => by cases knowledge <;> rfl
  cases id with
  | none => exact habsent
  | some id =>
    cases attributes with
    | none => exact habsent
    | some attributes =>
      refine (op_bind _ _).trans (bind_congr (x := Tree.newChild dir id query attributes) ?_)
      exact fun child => op_alter_bind (.insertIfUnknown child) fun knowledge => by
        cases knowledge <;> rfl

/-- Asking for a name is the operation of the tree. -/
theorem op_askFor (name query : String) (policy : CasePolicy) :
    (askFor dir name query policy).op dir = Tree.askFor dir name query policy := by
  refine op_inquire_bind (.resolve dir.id query policy) fun id => ?_
  cases id with
  | none => exact op_recordAnswer name query none none
  | some id =>
    exact op_inquire_bind (.attributes dir.id query) fun attributes =>
      op_recordAnswer name query (some id) attributes

/-- Looking a name up is the operation of the tree. -/
theorem op_lookup (name : String) : (lookup dir name).op dir = Tree.lookup dir name := by
  refine funext fun t => ?_
  show ((lookup dir name).op dir).run t =
    (Tree.findChild dir name t.config.canonicalizeNames).run t
  rw [Tree.run_findChild]
  simp only [lookup, op_bind, op_look, op_findCached, Tree.findCached, Tree.childrenOf, run_bind,
    run_get, Run.bind_done_ok]
  cases t.children? dir with
  | none => rfl
  | some c =>
    simp only [run_require_some, Run.bind_done_ok, run_pure]
    cases (if isFileName name then c.find name else .absent : Knowledge) with
    | present node => rfl
    | absent => rfl
    | unknown =>
      simp only [op_bind, op_look, run_bind, run_get, Run.bind_done_ok]
      split
      · exact congrFun (op_inquire_bind (.canonical dir.id name) fun query =>
          op_askFor name query t.policy) t
      · rw [op_askFor]

/-- Merging a listing is the operation of the tree. -/
@[simp] theorem op_mergeListing (cached : List Node) (entries : List Listed) :
    (mergeListing dir cached entries).op dir = Tree.mergeListing dir cached entries := by
  induction entries generalizing cached with
  | nil => rfl
  | cons entry rest ih =>
    refine funext fun t => Eq.trans ?_ (Tree.run_mergeListing_cons dir cached entry rest t).symm
    show ((mergeEntry dir entry (Tree.passed t.policy cached entry).1
      (mergeListing dir (Tree.passed t.policy cached entry).2 rest)).op dir).run t = _
    refine congrArg (fun act : TreeM (List Node) => act.run t) ?_
    rw [mergeEntry, Tree.mergeEntry]
    cases (Tree.passed t.policy cached entry).1.filter (·.id = entry.id) with
    | some node => simp only [op_bind, ih, op_pure]
    | none =>
      refine op_inquire_bind (.attributes dir.id entry.name) fun attributes => ?_
      cases attributes with
      | none => exact ih _
      | some attributes =>
        simp only [op_bind, op_workOn, op_holding, ih, op_pure]
        rfl

/-- Dropping the entries of subtrees is the operation of the tree. -/
@[simp] theorem op_unregisterSubtrees (nodes : List Node) :
    (unregisterSubtrees nodes).op dir = Tree.unregisterSubtrees nodes := by
  induction nodes with
  | nil => rfl
  | cons node rest ih =>
    simp only [unregisterSubtrees, Tree.unregisterSubtrees, op_bind, op_look, op_require, op_workOn,
      ih]
    rfl

/-- Installing a listing is the operation of the tree. -/
@[simp] theorem op_installListing (cached merged : List Node) (generation : Nat) :
    (installListing cached merged generation).op dir =
      Tree.installListing dir cached merged generation := by
  refine op_alter_bind (.install merged generation) fun installed => ?_
  cases installed with
  | false => rfl
  | true =>
    simp only [if_true, op_bind, op_workOn, op_unregisterSubtrees]
    rfl

/-- Listing a directory is the operation of the tree. -/
theorem op_refreshChildren : (refreshChildren dir).op dir = Tree.refreshChildren dir := by
  refine funext fun t => ?_
  show ((refreshChildren dir).op dir).run t = (Tree.refreshChildren dir).run t
  simp only [refreshChildren, Tree.refreshChildren, op_bind, op_childrenOf, Tree.childrenOf,
    run_bind, run_get, Run.bind_done_ok]
  cases hc : t.children? dir with
  | none => rfl
  | some c =>
    simp only [run_require_some, Run.bind_done_ok]
    cases hloaded : c.allLoaded with
    | true => simp [op_bind, op_childrenOf, Tree.childrenOf, hc]
    | false =>
      simp only [Bool.false_eq_true, if_false, op_bind, op_look, op_childrenOf, op_holding,
        op_mergeListing, op_installListing, op_pure, Tree.childrenOf, run_bind, run_get,
        Run.bind_done_ok, hc, run_require_some]
      exact congrArg (fun act : TreeM (List Listed) => (act.run t).bind _)
        (op_inquire (.list dir.id))

end Routine

end LazyTree
