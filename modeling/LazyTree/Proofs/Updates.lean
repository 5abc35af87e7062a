import LazyTree.Proofs.ChildrenRuns
import LazyTree.Proofs.Runs
import LazyTree.Proofs.SortedListing
import LazyTree.Session.Step

set_option autoImplicit false

/-!
# What operations do to a tree

Whatever an operation does to the tree, it does by a few kinds of updates: it makes an object, makes
an admissible change of the array of a directory, says that an object needs a refresh, or changes
the registry or who holds what. So a property that each update keeps is kept by every operation,
whatever answers the backend gives, if it is kept by what else happens meanwhile.

## Main definitions

* `LazyTree.Tree.Update` — an update of a tree.
* `LazyTree.Tree.Stable` — a property of trees that updates keep.
* `LazyTree.Tree.Steady`, `LazyTree.Tree.Firm` — a property that lasts while no child comes, and one
  that operations keep from one question to the next.

## Main results

* `LazyTree.Tree.Stable.mergeListing_always` — the nodes for a sorted listing are in its order.
* `LazyTree.Tree.Firm.command` — every operation keeps a firm property, if listings and reports do.
* `LazyTree.Tree.always_refreshChildren` — where a listing leads, from where its parts lead.
* `LazyTree.Tree.Stable.command` — every operation keeps a stable property.
-/

namespace LazyTree.Tree

open TreeM

/-- An update of a tree. -/
inductive Update : Tree → Tree → Prop where
  /-- An object is made. -/
  | make (t : Tree) (dir : Node) (id : FileId) (name : String) (attributes : Attributes) :
    Update t (t.make dir id name attributes).2
  /-- The array of a directory is changed. -/
  | change (t : Tree) (dir : Node) (c : Children) (op : Children.Op)
    (known : t.children? dir = some c) (admissible : op.Admissible t.policy) :
    Update t (t.setChildren dir (c.apply op).2)
  /-- An object is said to need a refresh, or not. -/
  | dirty (t : Tree) (dirty : Bool) (serial : Nat) : Update t (t.setDirty dirty serial)
  /-- Identities get other entries. -/
  | registry (t : Tree) (registry : Registry) : Update t { t with registry := registry }
  /-- Objects get other holders. -/
  | held (t : Tree) (held : List Nat) : Update t { t with held := held }

/-- A property of trees with a policy that every update keeps. -/
structure Stable (policy : CasePolicy) (P : Tree → Prop) : Prop where
  /-- The trees have that policy. -/
  policy : ∀ t, P t → t.policy = policy
  /-- Every update keeps the property. -/
  update : ∀ t t', Update t t' → P t → P t'

/-! ### Registry entries -/

/-- Dropping the entry of a node changes the registry alone. -/
theorem unregister_eq (t : Tree) (n : Node) :
    t.unregister n = { t with registry := (t.unregister n).registry } := by
  unfold unregister
  split
  · rfl
  · split <;> rfl

/-- Dropping the entries of some objects changes the registry alone. -/
theorem unregisterAll_eq (t : Tree) (serials : List Nat) :
    t.unregisterAll serials = { t with registry := (t.unregisterAll serials).registry } := by
  unfold unregisterAll
  induction serials generalizing t with
  | nil => rfl
  | cons serial serials ih =>
    rw [List.foldl_cons]
    split
    · exact (ih _).trans (by rw [unregister_eq])
    · exact ih t

/-- Making nodes stand for their identities changes the registry alone. -/
theorem foldl_register_eq (t : Tree) (nodes : List Node) :
    nodes.foldl register t = { t with registry := (nodes.foldl register t).registry } := by
  induction nodes generalizing t with
  | nil => rfl
  | cons n nodes ih =>
    rw [List.foldl_cons, ih]
    rfl

/-! ### Merging a listing -/

/-- The cached child with the name of an entry, if there is one, and the cached children that are
left for the entries behind it. -/
def passed (policy : CasePolicy) (cached : List Node) (entry : Listed) :
    Option Node × List Node :=
  match cached.dropWhile fun n => policy.compare n.name entry.name == .lt with
  | n :: later => if policy.same n.name entry.name then (some n, later) else (none, n :: later)
  | [] => (none, [])

/-- Asking the backend for a name under a spelling, when the array cannot tell. -/
def askFor (dir : Node) (name query : String) (policy : CasePolicy) : TreeM Lookup := do
  match ← ask (.resolve dir.id query policy) with
  | some id => recordAnswer dir name query (some id) (← ask (.attributes dir.id query))
  | none => recordAnswer dir name query none none

/-- A lookup answers from the array, if that can tell, and asks the backend otherwise: for its
spelling, if that is wanted and case does not distinguish names, and then for the name. -/
theorem run_findChild (dir : Node) (name : String) (canonicalize : Bool) (t : Tree) :
    (findChild dir name canonicalize).run t =
      match t.children? dir with
      | none => .done (.error (.notADirectory dir.id)) t
      | some c =>
        match if isFileName name then c.find name else .absent with
        | .present node => .done (.ok (.present node)) t
        | .absent => .done (.ok .absent) t
        | .unknown =>
          if canonicalize && !t.policy.isSensitive then
            (ask (.canonical dir.id name) >>= fun query => askFor dir name query t.policy).run t
          else (askFor dir name name t.policy).run t := by
  unfold findChild findCached childrenOf
  simp only [run_bind, run_get, Run.bind_done_ok]
  cases hc : t.children? dir with
  | none => rfl
  | some c =>
    simp only [run_require_some, Run.bind_done_ok, run_pure]
    cases (if isFileName name then c.find name else .absent : Knowledge) with
    | present node => rfl
    | absent => rfl
    | unknown =>
      rw [run_bind, run_get, Run.bind_done_ok]
      dsimp only
      split
      · refine congrArg (fun f => (ask (.canonical dir.id name) >>= f).run t)
          (funext fun query => ?_)
        refine bind_congr (x := ask (.resolve dir.id query t.policy)) fun id => ?_
        cases id <;> rfl
      · refine congrArg (fun act : TreeM Lookup => act.run t) ?_
        refine bind_congr (x := ask (.resolve dir.id name t.policy)) fun id => ?_
        cases id <;> rfl

/-- A new child is made at once. -/
@[simp] theorem run_newChild (dir : Node) (id : FileId) (name : String) (attributes : Attributes)
    (t : Tree) : (newChild dir id name attributes).run t =
      .done (.ok (t.make dir id name attributes).1) (t.make dir id name attributes).2 :=
  rfl

/-- What reads the array of a directory goes on with it. -/
theorem run_childrenOf_bind {β : Type} {t : Tree} {dir : Node} {c : Children}
    (hc : t.children? dir = some c) (f : Children → TreeM β) :
    (childrenOf dir >>= f).run t = (f c).run t := by
  unfold childrenOf
  rw [run_bind, run_bind, run_get, Run.bind_done_ok, hc, run_require_some, Run.bind_done_ok]

/-- What reads the array of a node that has none fails. -/
theorem run_childrenOf_bind_none {β : Type} {t : Tree} {dir : Node} (hc : t.children? dir = none)
    (f : Children → TreeM β) :
    (childrenOf dir >>= f).run t = .done (.error (.notADirectory dir.id)) t := by
  unfold childrenOf
  rw [run_bind, run_bind, run_get, Run.bind_done_ok, hc]
  rfl

/-- The answer from the array alone is given at once. -/
theorem run_findCached {t : Tree} {dir : Node} {c : Children} (hc : t.children? dir = some c)
    (name : String) : (findCached dir name).run t =
      .done (.ok (if isFileName name then c.find name else .absent)) t :=
  run_childrenOf_bind hc _

/-- So are the cached children. -/
theorem run_children {t : Tree} {dir : Node} {c : Children} (hc : t.children? dir = some c) :
    (children dir).run t = .done (.ok c.present) t :=
  run_childrenOf_bind hc _

/-- A change of an array reads it, and leaves what the change makes of it. -/
theorem run_change {α : Type} (dir : Node) (f : Children → Children.Change α) (t : Tree) :
    (change dir f).run t =
      match t.children? dir with
      | none => .done (.error (.notADirectory dir.id)) t
      | some c => .done ((f c).1.mapError .inconsistent) (t.setChildren dir (f c).2) := by
  unfold change childrenOf
  simp only [run_bind, run_get, Run.bind_done_ok]
  cases t.children? dir with
  | none => rfl
  | some c =>
    simp only [run_require_some, Run.bind_done_ok]
    cases (f c).1 <;> rfl

/-- Merging an entry: the cached child is used again if it has the identity of the entry, and the
backend is asked otherwise. -/
def mergeEntry (dir : Node) (entry : Listed) (candidate : Option Node)
    (rest : TreeM (List Node)) : TreeM (List Node) :=
  match candidate.filter (·.id = entry.id) with
  | some node => return node :: (← rest)
  | none => do
    match ← ask (.attributes dir.id entry.name) with
    | none => rest
    | some attributes =>
      let node ← newChild dir entry.id entry.name attributes
      return node :: (← holding [node] rest)

/-- Merging goes from one entry to the next. -/
theorem run_mergeListing_cons (dir : Node) (cached : List Node) (entry : Listed)
    (rest : List Listed) (t : Tree) :
    (mergeListing dir cached (entry :: rest)).run t =
      (mergeEntry dir entry (passed t.policy cached entry).1
        (mergeListing dir (passed t.policy cached entry).2 rest)).run t := by
  rw [mergeListing]
  simp only [run_bind, run_get, Run.bind_done_ok]
  unfold passed
  cases cached.dropWhile fun n => t.policy.compare n.name entry.name == .lt with
  | nil => rfl
  | cons n later => cases t.policy.same n.name entry.name <;> rfl

/-- The cached child with the name of an entry has that name. -/
theorem passed_key {policy : CasePolicy} {cached : List Node} {entry : Listed} {n : Node}
    (h : (passed policy cached entry).1 = some n) :
    policy.key n.name = policy.key entry.name := by
  unfold passed at h
  split at h
  · split at h
    · next hsame =>
      cases h
      exact CasePolicy.same_iff.mp hsame
    · cases h
  · cases h

/-- Nodes whose names are some of those of a listing, in its order, are in ascending order if the
listing is. -/
theorem ascending_of_sublist {policy : CasePolicy} {entries : List Listed} {nodes : List Node}
    (hentries : Ascending policy entries)
    (h : (nodes.map fun n => policy.key n.name).Sublist
      (entries.map fun e => policy.key e.name)) : Ascending policy nodes := by
  have hkeys : (entries.map fun e => policy.key e.name).Pairwise
      fun a b => Ord.compare a b = .lt := List.pairwise_map.mpr hentries
  have hnodes := List.pairwise_map.mp (hkeys.sublist h)
  exact hnodes

section Keeping

variable {policy : CasePolicy} {P : Tree → Prop}

/-- The names of the nodes for a listing stand in the order of the listing. -/
theorem Stable.mergeListing_always (h : Stable policy P) (dir : Node) (entries : List Listed)
    (cached : List Node) (t : Tree) (ht : P t) :
    ((mergeListing dir cached entries).run t).Always (keeping P) fun result t' =>
      P t' ∧ ∀ merged, result = .ok merged →
        (merged.map fun n => policy.key n.name).Sublist
          (entries.map fun e => policy.key e.name) := by
  induction entries generalizing cached t with
  | nil =>
    refine ⟨ht, ?_⟩
    rintro merged ⟨⟩
    exact List.Sublist.refl _
  | cons entry rest ih =>
    have hpolicy := h.policy t ht
    rw [run_mergeListing_cons, mergeEntry]
    split
    · next node hnode =>
      -- a cached node is used again
      obtain ⟨hcandidate, -⟩ := Option.filter_eq_some_iff.mp hnode
      rw [hpolicy] at hcandidate
      have hkey := passed_key hcandidate
      rw [run_bind, Run.always_bind_iff]
      refine (ih _ t ht).mono fun result t' ⟨ht', hresult⟩ => ?_
      cases result with
      | error e => exact ⟨ht', fun merged hmerged => by cases hmerged⟩
      | ok merged =>
        refine ⟨ht', ?_⟩
        rintro nodes ⟨⟩
        rw [List.map_cons, List.map_cons, hkey]
        exact (hresult merged rfl).cons_cons _
    · refine always_ask_bind_iff.mpr ⟨fun reply t' hw => ?_, fun e t' hw =>
        ⟨hw ht, fun merged hmerged => by cases hmerged⟩⟩
      have ht' := hw ht
      cases reply with
      | none =>
        -- the child has vanished
        refine (ih _ t' ht').mono fun result t'' ⟨ht'', hresult⟩ => ⟨ht'', ?_⟩
        intro merged hmerged
        exact (hresult merged hmerged).cons _
      | some attributes =>
        -- a node is made
        let made := t'.make dir entry.id entry.name attributes
        have hmade := h.update _ _ (.make t' dir entry.id entry.name attributes) ht'
        have hheld := h.update _ _ (.held made.2 (made.2.hold [made.1]).held) hmade
        have hrest := ih (passed t.policy cached entry).2 _ hheld
        dsimp only
        rw [run_bind, run_newChild, Run.bind_done_ok, run_bind, run_holding, Run.always_bind_iff,
          Run.always_settle_iff]
        refine hrest.mono fun result t'' ⟨ht'', hresult⟩ => ?_
        have hreleased := h.update _ _ (.held t'' (t''.release [made.1]).held) ht''
        cases result with
        | error e => exact ⟨hreleased, fun merged hmerged => by cases hmerged⟩
        | ok merged =>
          refine ⟨hreleased, ?_⟩
          rintro nodes ⟨⟩
          exact (hresult merged rfl).cons_cons _

/-! ### Operations that keep a property -/

/-- Reading an array keeps everything. -/
theorem keeps_childrenOf (dir : Node) : Keeps P (childrenOf dir) :=
  .bind .get fun _ => .require _ _

/-- Looking a name up in the array keeps everything. -/
theorem keeps_findCached (dir : Node) (name : String) : Keeps P (findCached dir name) :=
  .bind (keeps_childrenOf dir) fun _ => .pure _

/-- A change of an array keeps what it keeps where there is an array. -/
theorem keeps_change {dir : Node} {op : Children.Op} (h : ∀ t c, P t → t.children? dir = some c →
    P (t.setChildren dir (c.apply op).2)) : Keeps P (change dir fun c => c.apply op) := by
  intro t ht
  rw [run_change]
  split
  · exact ht
  · next c hc => exact h t c ht hc

/-- A property of trees that lasts while no array is offered a child, and no identity gets an entry.
-/
structure Steady (P : Tree → Prop) : Prop where
  /-- Who holds objects does not matter. -/
  held : ∀ (t : Tree) held, P t → P { t with held := held }
  /-- A change of an array that offers no child keeps the property. -/
  change : ∀ dir (op : Children.Op), op.offered = [] →
    Keeps P (Tree.change dir fun c => c.apply op)
  /-- So does dropping entries. -/
  unregisterAll : ∀ t serials, P t → P (t.unregisterAll serials)

namespace Steady

variable (h : Steady P)
include h

/-- Holding objects keeps what the operation keeps. -/
theorem holding {α : Type} (nodes : List Node) {act : TreeM α} (hact : Keeps P act) :
    Keeps P (holding nodes act) :=
  hact.holding (fun t ht => h.held t _ ht) fun t ht => h.held t _ ht

/-- Dropping the entries of subtrees keeps the property. -/
theorem unregisterSubtrees (nodes : List Node) : Keeps P (unregisterSubtrees nodes) := by
  induction nodes with
  | nil => exact .pure _
  | cons n nodes ih =>
    exact .bind .get fun t => .bind (.require _ _) fun serials =>
      .bind (.modify fun t ht => h.unregisterAll t serials ht) fun _ => ih

/-- Reporting that a child went keeps the property. -/
theorem removeChild (dir child : Node) : Keeps P (removeChild dir child) := by
  refine .bind .get fun t => .bind (h.change dir (.remove child _) rfl) fun removed => ?_
  dsimp only
  split
  · exact .bind (h.unregisterSubtrees [child]) fun _ => .pure _
  · exact .pure _

/-- Forgetting the children of a directory keeps the property. -/
theorem clearChildren (dir : Node) : Keeps P (clearChildren dir) :=
  .bind (keeps_childrenOf dir) fun _ => h.holding _
    (.bind (h.change dir .clear rfl) fun _ => h.unregisterSubtrees _)

end Steady

/-- A property of trees that is kept by what operations do from one question to the next, but for
the install of a listing and the report of a child. -/
structure Firm (P : Tree → Prop) : Prop extends Steady P where
  /-- Making an object keeps the property. -/
  make : ∀ t dir id name attributes, P t → P (t.make dir id name attributes).2
  /-- So does saying that it needs a refresh. -/
  dirty : ∀ t dirty serial, P t → P (t.setDirty dirty serial)
  /-- So does recording a child that the backend told of. -/
  recordFound : ∀ dir name query id attributes,
    Keeps P (recordAnswer dir name query (some id) (some attributes))
  /-- So does adding a child that was just made. -/
  addNew : ∀ dir id name attributes, Keeps P (newChild dir id name attributes >>= addChild dir)

namespace Firm

variable (h : Firm P)
include h

/-- Recording an answer keeps the property. -/
theorem recordAnswer (dir : Node) (name query : String) (id : Option FileId)
    (attributes : Option Attributes) : Keeps P (recordAnswer dir name query id attributes) := by
  have habsent : Keeps P (Tree.recordAnswer dir name query none none) := by
    refine .bind (h.change dir (.insertAbsent name) rfl) fun knowledge => ?_
    cases knowledge <;> exact .pure _
  cases id with
  | none => exact habsent
  | some id =>
    cases attributes with
    | none => exact habsent
    | some attributes => exact h.recordFound dir name query id attributes

/-- Asking for a name keeps the property. -/
theorem askFor (dir : Node) (name query : String) (asked : CasePolicy) :
    Keeps P (askFor dir name query asked) := by
  refine .bind (.ask _) fun id => ?_
  cases id with
  | none => exact h.recordAnswer dir name query _ _
  | some id => exact .bind (.ask _) fun attributes => h.recordAnswer dir name query _ _

/-- Looking a name up keeps the property. -/
theorem findChild (dir : Node) (name : String) (canonicalize : Bool) :
    Keeps P (findChild dir name canonicalize) := by
  intro t ht
  rw [run_findChild]
  split
  · exact ht
  · split
    · exact ht
    · exact ht
    · split
      · exact Keeps.bind (.ask (.canonical dir.id name))
          (fun query => h.askFor dir name query t.policy) t ht
      · exact h.askFor dir name name _ t ht

/-- Looking a name up as the tree is set keeps the property. -/
theorem lookup (dir : Node) (name : String) : Keeps P (lookup dir name) :=
  .bind .get fun _ => h.findChild dir name _

/-- Looking a path up keeps the property. -/
theorem lookupNames (dir : Node) (names : List String) : Keeps P (lookupNames dir names) := by
  induction names generalizing dir with
  | nil => exact .pure _
  | cons name rest ih =>
    rw [Tree.lookupNames]
    split
    · refine .bind (h.holding [dir] (h.lookup dir name)) fun answer => ?_
      cases answer with
      | present next => exact ih next
      | absent => exact .pure _
    · exact .pure _

/-- Looking for an identity keeps the property. -/
theorem findChildById (dir : Node) (id : FileId) (cachedOnly : Bool) :
    Keeps P (findChildById dir id cachedOnly) := by
  refine .bind (keeps_childrenOf dir) fun c => ?_
  split
  · exact .pure _
  · split
    · exact .pure _
    · refine .bind (.ask _) fun name => ?_
      cases name with
      | none => exact .pure _
      | some name => exact .bind (h.findChild dir name false) fun _ => .pure _

/-- Adding a child that the backend has keeps the property. -/
theorem materializeCreated (dir : Node) (name : String) :
    Keeps P (materializeCreated dir name) := by
  unfold Tree.materializeCreated
  split
  · exact .pure _
  · refine .bind (.ask _) fun attributes => ?_
    cases attributes with
    | none => exact .pure _
    | some attributes =>
      refine .bind (.ask _) fun spelling => .bind .get fun t => .bind (.ask _) fun id => ?_
      cases id with
      | none => exact .pure _
      | some id => exact .map some (h.addNew dir id spelling attributes)

/-- Checking a cached child keeps the property. -/
theorem recheck (dir node : Node) : Keeps P (recheck dir node) := by
  refine .bind (.ask _) fun attributes => ?_
  cases attributes with
  | none => exact .bind (h.removeChild dir node) fun _ => .pure _
  | some attributes =>
    dsimp only
    split
    · exact .pure _
    · exact .bind (h.removeChild dir node) fun _ => h.materializeCreated dir node.name

/-- Looking a name up and checking the answer keeps the property. -/
theorem refreshAndFindChild (dir : Node) (name : String) :
    Keeps P (refreshAndFindChild dir name) := by
  refine .bind (h.findChild dir name true) fun answer => ?_
  cases answer with
  | absent => exact h.materializeCreated dir name
  | present node => exact h.holding [node] (h.recheck dir node)

/-- Merging a listing keeps the property. -/
theorem mergeListing (dir : Node) (entries : List Listed) (cached : List Node) :
    Keeps P (mergeListing dir cached entries) := by
  induction entries generalizing cached with
  | nil => exact .pure _
  | cons entry rest ih =>
    intro t ht
    rw [run_mergeListing_cons, mergeEntry]
    split
    · exact Keeps.bind (ih _) (fun _ => .pure _) t ht
    · refine Keeps.bind (.ask _) (fun attributes => ?_) t ht
      cases attributes with
      | none => exact ih _
      | some attributes =>
        exact .bind (.modifyGet fun t ht => h.make t dir _ _ attributes ht) fun node =>
          .bind (h.holding [node] (ih _)) fun _ => .pure _

/-- Saying that some objects need a refresh keeps the property. -/
theorem foldl_setDirty (dirty : Bool) (serials : List Nat) (t : Tree) (ht : P t) :
    P (serials.foldl (setDirty · dirty) t) := by
  induction serials generalizing t with
  | nil => exact ht
  | cons serial serials ih => exact ih _ (h.dirty t dirty serial ht)

/-- Every operation keeps the property, whatever answers the backend gives, if listing a directory
and reporting a child keep it. -/
theorem command {w : World} (hw : ∀ q t reply t', w q t reply t' → P t → P t') {t : Tree} (ht : P t)
    (handles : Handles) (on : Operands) {command : Command}
    (hlisted : command = .refreshChildren →
      ((refreshChildren on.dir).run t).Always w fun _ t' => P t')
    (hadded : command = .addChild →
      ((addChild on.dir on.child).run t).Always w fun _ t' => P t') :
    ((command.run handles on).run t).Always w fun _ t' => P t' := by
  have hmap : ∀ {α β : Type} {act : TreeM α} (f : α → β),
      (act.run t).Always w (fun _ t' => P t') → ((f <$> act).run t).Always w fun _ t' => P t' :=
    fun f hact => always_then (f := fun a => pure (f a)) hact fun _ _ h' => h'
  have hkeeps : ∀ {α : Type} {act : TreeM α}, Keeps P act →
      (act.run t).Always w fun _ t' => P t' := fun hact => (hact t ht).of_world hw
  cases command with
  | lookup name => exact hkeeps (.map _ (h.lookup on.dir name))
  | lookupPath path => exact hkeeps (.map _ (h.lookupNames on.dir _))
  | cached name => exact hkeeps (.map _ (keeps_findCached on.dir name))
  | children => exact hkeeps (.map _ (.bind (keeps_childrenOf on.dir) fun _ => .pure _))
  | refreshChildren => exact hmap _ (hlisted rfl)
  | newChild raw name attributes =>
    simp only [Command.run]
    split
    · exact ht
    · exact hkeeps (.map _ (.modifyGet fun t ht => h.make t on.dir _ name attributes ht))
  | addChild => exact hmap _ (hadded rfl)
  | removeChild => exact hkeeps (.map _ (h.removeChild on.dir on.child))
  | clearChildren => exact hkeeps (.map _ (h.clearChildren on.dir))
  | markAllLoaded => exact hkeeps (.map _ (h.change on.dir .markAllLoaded rfl))
  | absentNames => exact hkeeps (.map _ (.bind (keeps_childrenOf on.dir) fun _ => .pure _))
  | findChildById source cachedOnly =>
    simp only [Command.run]
    split
    · exact ht
    · exact hkeeps (.map _ (h.findChildById on.dir _ cachedOnly))
  | refreshAndFindChild name => exact hkeeps (.map _ (h.refreshAndFindChild on.dir name))
  | pathOf =>
    refine hkeeps (.map _ (.bind .get fun t => ?_))
    split
    · exact .pure _
    · exact .fail _
  | node raw =>
    simp only [Command.run]
    split
    · exact ht
    · exact hkeeps (.bind .get fun _ => .pure _)
  | mark dirty =>
    exact hkeeps (.map _ (.modify fun t ht => h.dirty t dirty on.node.serial ht))
  | markRecursively =>
    exact hkeeps (.map _ (.bind .get fun t => .bind (.require _ _) fun serials =>
      .modify fun t ht => h.foldl_setDirty true serials t ht))
  | info => exact ht
  | treeInfo => exact hkeeps (.bind .get fun _ => .pure _)
  | drop handle => exact ht

end Firm

/-- Listing a directory leads to a property that does not depend on who holds objects, if that holds
before and when the backend has answered, if merging the answer leads to it, and if installing what
was merged leads to it. -/
theorem always_refreshChildren {w : World} {t : Tree} {dir : Node}
    (hheld : ∀ (t : Tree) held, P t → P { t with held := held }) (ht : P t)
    (hasked : ∀ reply t', w (.list dir.id) t reply t' → P t')
    (hlisted : ∀ c listing t' now, t.children? dir = some c → w (.list dir.id) t (.ok listing) t' →
      t'.children? dir = some now →
      ((mergeListing dir now.present (sortedListing t'.policy listing)).run
        (t'.hold now.present)).Always w fun result t'' => P t'' ∧ ∀ merged, result = .ok merged →
          ((installListing dir now.present merged c.generation).run (t''.hold merged)).Always w
            fun _ last => P last) :
    ((refreshChildren dir).run t).Always w fun _ t' => P t' := by
  unfold refreshChildren
  cases hc : t.children? dir with
  | none =>
    rw [run_childrenOf_bind_none hc]
    exact ht
  | some c =>
    rw [run_childrenOf_bind hc]
    split
    · exact ht
    refine always_ask_bind_iff.mpr ⟨fun listing t' hw => ?_, fun e t' hw => hasked _ t' hw⟩
    rw [run_bind, run_get, Run.bind_done_ok]
    cases hnow : t'.children? dir with
    | none =>
      rw [run_childrenOf_bind_none hnow]
      exact hasked _ t' hw
    | some now =>
      rw [run_childrenOf_bind hnow, run_holding, Run.always_settle_iff, run_bind,
        Run.always_bind_iff]
      refine (hlisted c listing t' now hc hw hnow).mono fun result t'' hmerged => ?_
      cases result with
      | error e => exact hheld _ _ hmerged.1
      | ok merged =>
        have hinstalled : ((holding merged
            (installListing dir now.present merged c.generation)).run t'').Always w
              fun _ last => P last := by
          rw [run_holding, Run.always_settle_iff]
          exact (hmerged.2 merged rfl).mono fun _ last h => hheld last _ h
        refine (always_then (f := fun _ => pure merged) hinstalled fun _ _ h => h).mono ?_
        exact fun _ last h => hheld last _ h

/-! ### Operations that keep a stable property -/

namespace Stable

variable (h : Stable policy P)
include h

/-- An admissible change of an array is an update. -/
theorem change (dir : Node) (op : Children.Op) (hop : op.Admissible policy) :
    Keeps P (Tree.change dir fun c => c.apply op) :=
  keeps_change fun t c ht hc => h.update _ _ (.change t dir c op hc (by rwa [h.policy t ht])) ht

/-- Making a child is an update. -/
theorem newChild (dir : Node) (id : FileId) (name : String) (attributes : Attributes) :
    Keeps P (newChild dir id name attributes) :=
  .modifyGet fun t ht => h.update _ _ (.make t dir id name attributes) ht

/-- Making a node stand for its identity is an update. -/
theorem register (n : Node) : Keeps P (modify (·.register n)) :=
  .modify fun t ht => h.update _ _ (.registry t _) ht

/-- Reporting that a child came keeps the property. -/
theorem addChild (dir child : Node) : Keeps P (addChild dir child) :=
  .bind (h.change dir (.insert child) trivial) fun node =>
    .bind (h.register node) fun _ => .pure _

/-- Recording a child that the backend told of keeps the property. -/
theorem recordFound (dir : Node) (name query : String) (id : FileId) (attributes : Attributes) :
    Keeps P (recordAnswer dir name query (some id) (some attributes)) := by
  refine .bind (h.newChild dir id query attributes) fun child =>
    .bind (h.change dir (.insertIfUnknown child) trivial) fun knowledge => ?_
  cases knowledge with
  | present node => exact .bind (h.register node) fun _ => .pure _
  | absent => exact .pure _
  | unknown => exact .pure _

/-- What a stable property is kept by includes all that operations do. -/
theorem firm : Firm P where
  held t held ht := h.update _ _ (.held t held) ht
  change dir op hop := h.change dir op (Children.Op.admissible_of_offered hop policy)
  unregisterAll t serials ht := by
    rw [unregisterAll_eq]
    exact h.update _ _ (.registry t _) ht
  make t dir id name attributes ht := h.update _ _ (.make t dir id name attributes) ht
  dirty t dirty serial ht := h.update _ _ (.dirty t dirty serial) ht
  recordFound := h.recordFound
  addNew dir id name attributes := .bind (h.newChild dir id name attributes) (h.addChild dir)

/-- Installing nodes in the order of their names keeps the property. -/
theorem installListing (dir : Node) (cached : List Node) {merged : List Node}
    (hmerged : Ascending policy merged) (generation : Nat) :
    Keeps P (installListing dir cached merged generation) := by
  refine .bind (h.change dir (.install merged generation) hmerged) fun installed => ?_
  split
  · refine .bind (.modify ?_) fun _ => h.firm.unregisterSubtrees _
    intro t ht
    rw [foldl_register_eq]
    exact h.update _ _ (.registry t _) ht
  · exact .pure _

/-- Merging a listing and installing it keeps the property. -/
theorem mergeAndInstall (dir : Node) (entries : List Listed)
    (hentries : Ascending policy entries) (cached : List Node) (generation : Nat) :
    Keeps P (do
      let merged ← mergeListing dir cached entries
      TreeM.holding merged (Tree.installListing dir cached merged generation)
      return merged) := by
  intro t ht
  rw [run_bind, Run.always_bind_iff]
  refine (h.mergeListing_always dir entries cached t ht).mono fun result t' ⟨ht', hresult⟩ => ?_
  cases result with
  | error e => exact ht'
  | ok merged =>
    have hmerged := ascending_of_sublist hentries (hresult merged rfl)
    exact Keeps.bind (h.firm.holding merged (h.installListing dir cached hmerged generation))
      (fun _ => .pure merged) t' ht'

/-- Listing a directory keeps the property. -/
theorem refreshChildren (dir : Node) : Keeps P (refreshChildren dir) := by
  refine .bind (keeps_childrenOf dir) fun c => ?_
  split
  · exact .pure _
  · refine .bind (.ask _) fun listing => ?_
    intro t ht
    rw [run_bind, run_get, Run.bind_done_ok, h.policy t ht]
    exact Keeps.bind (keeps_childrenOf dir) (fun now => h.firm.holding _
      (h.mergeAndInstall dir _ (ascending_sortedListing policy listing) _ _)) t ht

/-- Every operation keeps a stable property, whatever answers the backend gives, if what else
happens while it asks keeps the property. -/
theorem command (handles : Handles) (on : Operands) (command : Command) :
    Keeps P (command.run handles on) := fun t ht =>
  h.firm.command (fun _ _ _ _ hw => hw) ht handles on
    (fun _ => h.refreshChildren on.dir t ht) fun _ => h.addChild on.dir on.child t ht

end Stable

end Keeping

end LazyTree.Tree
