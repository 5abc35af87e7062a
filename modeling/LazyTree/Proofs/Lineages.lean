import LazyTree.Proofs.AdmittedChildren

set_option autoImplicit false

/-!
# Who was made for whom

A node does not tell for which directory it was made: it knows the identity of the directory, but
two directories may have the same identity at different times. So this is remembered beside the
tree. A lineage says of some nodes which object they were made for. It grows with the tree: whenever
an operation makes a node, the lineage may be told of it, and nothing that it says is ever taken
back.

As long as a directory is offered only nodes that were made for it, the nodes in arrays descend from
the directories of the arrays: each of them is in the array of the object that it was made for. An
operation makes the nodes that it offers itself, found them in the array of the directory, or has
them reported. While it asks the backend, other operations may go on and add to the lineage; what
the operation knows by then stays true.

## Main definitions

* `LazyTree.Lineage` — for which objects some nodes were made.
* `LazyTree.Tree.Descended` — all nodes in arrays were made for the directories of the arrays.
* `LazyTree.Run.Rears`, `LazyTree.TreeM.Rears` — a run leaves nodes only in the arrays of what they
  were made for, if whatever else happens does.

## Main results

* `LazyTree.Run.Rears.bind`, `LazyTree.TreeM.Rears.bind` — operations are put together.
* `LazyTree.Tree.rears_mergeListing` — the nodes for a listing were made for its directory.
* `LazyTree.Tree.rears_command` — all operations are of this kind, but for reports of nodes that
  were made for another directory.
-/

namespace LazyTree

/-! ### Lineages -/

/-- For which objects some nodes were made, and how many objects there are at least. -/
structure Lineage where
  /-- The number of objects that are known of. -/
  objects : Nat
  /-- A node was made for an object. -/
  made : Nat → Node → Prop

namespace Lineage

/-- A lineage says less than another one. -/
instance : Preorder Lineage where
  le K K' := K.objects ≤ K'.objects ∧ ∀ d n, K.made d n → K'.made d n
  le_refl K := ⟨Nat.le_refl _, fun _ _ h => h⟩
  le_trans K K' K'' h h' := ⟨Nat.le_trans h.1 h'.1, fun d n hn => h'.2 d n (h.2 d n hn)⟩

/-- Nothing is known but the root. -/
def start : Lineage :=
  ⟨1, fun _ _ => False⟩

/-- A node was made for an object. -/
def add (K : Lineage) (dir : Nat) (node : Node) : Lineage :=
  ⟨K.objects, fun d n => K.made d n ∨ (d = dir ∧ n = node)⟩

/-- There are more objects than were known of. -/
def count (K : Lineage) (objects : Nat) : Lineage :=
  ⟨objects, K.made⟩

variable {K K' : Lineage}

/-- What is told of a node is added to a lineage. -/
theorem le_add (K : Lineage) (dir : Nat) (node : Node) : K ≤ K.add dir node :=
  ⟨Nat.le_refl _, fun _ _ => .inl⟩

/-- It is known of a node what it was made for, once that is told. -/
theorem made_add (K : Lineage) (dir : Nat) (node : Node) : (K.add dir node).made dir node :=
  .inr ⟨rfl, rfl⟩

end Lineage

namespace Tree

variable {policy : CasePolicy} {K K' : Lineage} {t t' : Tree} {dir n : Node} {c : Children}

/-- All nodes in arrays were made for the directories of the arrays, as a lineage says, and what it
says is true of the tree. -/
structure Descended (policy : CasePolicy) (K : Lineage) (t : Tree) : Prop where
  /-- All arrays are tidy. -/
  tidy : t.TidyUnder policy
  /-- The root is the first object. -/
  root : t.root.serial = 0
  /-- The objects that are known of are there. -/
  objects : K.objects ≤ t.cells.size
  /-- The nodes that are known of are objects. -/
  owns : ∀ d n, K.made d n → t.Owns n
  /-- They are younger than what they were made for. -/
  later : ∀ d n, K.made d n → d < n.serial
  /-- Each of them was made for one object. -/
  single : ∀ d d' n, K.made d n → K.made d' n → d = d'
  /-- Each node in an array was made for the directory. -/
  children : ∀ dir c n, t.children? dir = some c → n ∈ c.present → K.made dir.serial n

namespace Descended

/-- Who holds objects does not matter, nor does the registry. -/
theorem frame (h : t.Descended policy K) (registry : Registry) (held : List Nat) :
    ({ t with registry := registry, held := held } : Tree).Descended policy K :=
  ⟨h.tidy, h.root, h.objects, h.owns, h.later, h.single, h.children⟩

/-- An update that adds no child to any array keeps all nodes with what they were made for. -/
theorem update (h : t.Descended policy K) (hupdate : Update t t')
    (hobjects : t.cells.size ≤ t'.cells.size)
    (hkept : ∀ d c' n, t'.children? d = some c' → n ∈ c'.present → K.made d.serial n) :
    t'.Descended policy K where
  tidy := h.tidy.update hupdate
  root := by cases hupdate <;> exact h.root
  objects := Nat.le_trans h.objects hobjects
  owns d n hn := ((stable_owns t.policy n).update t t' hupdate ⟨rfl, h.owns d n hn⟩).2
  later := h.later
  single := h.single
  children := hkept

/-- Making an object keeps them. -/
theorem make (h : t.Descended policy K) (parent : Node) (id : FileId) (name : String)
    (attributes : Attributes) : (t.make parent id name attributes).2.Descended policy K := by
  refine h.update (.make t parent id name attributes) ?_ fun d c n hc hn =>
    h.children d c n (children?_of_make hc hn) hn
  simp [Tree.make]

/-- If it is made for a known object, then the lineage may be told. -/
theorem make_add (h : t.Descended policy K) (hdir : dir.serial < K.objects) (id : FileId)
    (name : String) (attributes : Attributes) :
    (t.make dir id name attributes).2.Descended policy
      (K.add dir.serial (t.make dir id name attributes).1) := by
  have hmade := h.make dir id name attributes
  have hnew : ∀ d, ¬ K.made d (t.make dir id name attributes).1 := fun d hd =>
    Nat.lt_irrefl _ (h.owns d _ hd).serial_lt
  refine ⟨hmade.tidy, h.root, hmade.objects, ?_, ?_, ?_,
    fun d c n hc hn => .inl (hmade.children d c n hc hn)⟩
  · rintro d n (hn | ⟨rfl, rfl⟩)
    · exact hmade.owns d n hn
    · exact owns_make t dir id name attributes
  · rintro d n (hn | ⟨rfl, rfl⟩)
    · exact h.later d n hn
    · exact Nat.lt_of_lt_of_le hdir h.objects
  · rintro d d' n (hn | ⟨rfl, rfl⟩) (hn' | ⟨rfl, hn'⟩)
    · exact h.single d d' n hn hn'
    · exact absurd (hn' ▸ hn) (hnew d)
    · exact absurd hn' (hnew d')
    · rfl

/-- A change of an array keeps them, if the nodes that it offers were made for the directory. -/
theorem change (h : t.Descended policy K) (hc : t.children? dir = some c) (op : Children.Op)
    (hop : op.Admissible policy) (hoffered : ∀ n ∈ op.offered, K.made dir.serial n) :
    (t.setChildren dir (c.apply op).2).Descended policy K := by
  obtain ⟨hcpolicy, hctidy⟩ := h.tidy.1 dir c hc
  have hadmissible : op.Admissible c.policy := by rwa [hcpolicy, h.tidy.2]
  refine h.update (.change t dir c op hc (h.tidy.2 ▸ hop)) ?_ fun d cd n hcd hn => ?_
  · simp [setChildren, modifyCell]
  · rw [children?_setChildren] at hcd
    split at hcd
    · next hserial =>
      obtain ⟨_, -, rfl⟩ := Option.map_eq_some_iff.mp hcd
      rw [← hserial]
      exact (Children.mem_present_or_offered hctidy hadmissible hn).elim
        (h.children dir c n hc) (hoffered n)
    · exact h.children d cd n hcd hn

/-- Saying that objects need a refresh keeps them. -/
theorem foldl_setDirty (h : t.Descended policy K) (dirty : Bool) (serials : List Nat) :
    (serials.foldl (setDirty · dirty) t).Descended policy K := by
  induction serials generalizing t with
  | nil => exact h
  | cons serial rest ih =>
    refine ih (h.update (.dirty t dirty serial) ?_ fun d c n hc hn => ?_)
    · simp [setDirty, modifyCell]
    · rw [children?_setDirty] at hc
      exact h.children d c n hc hn

/-- All objects that are there may be counted. -/
theorem count (h : t.Descended policy K) : t.Descended policy (K.count t.cells.size) :=
  ⟨h.tidy, h.root, Nat.le_refl _, h.owns, h.later, h.single, h.children⟩

end Descended

end Tree

/-! ### Runs -/

namespace Run

open Tree

variable {α β : Type} {policy : CasePolicy} {K K' : Lineage}

/-- From a lineage on, a run leaves nodes only in the arrays of what they were made for, wherever it
asks and at its end, whatever is made for whatever while it asks; and unless it fails, its answer is
of some kind. -/
def Rears (policy : CasePolicy) (ends : Lineage → α → Prop) : Run α → Lineage → Prop
  | done result t, K => ∃ K', K ≤ K' ∧ t.Descended policy K' ∧ ∀ a, result = .ok a → ends K' a
  | ask _ t resume, K => ∃ K', K ≤ K' ∧ t.Descended policy K' ∧
      ∀ reply K'' t', K' ≤ K'' → t'.Descended policy K'' → (resume reply t').Rears policy ends K''

/-- A run that answers. -/
theorem Rears.ok {ends : Lineage → α → Prop} {t : Tree} {a : α} (ht : t.Descended policy K)
    (ha : ends K a) : (done (.ok a) t).Rears policy ends K :=
  ⟨K, le_rfl, ht, fun _ h => Except.ok.inj h ▸ ha⟩

/-- A run that fails. -/
theorem Rears.error {ends : Lineage → α → Prop} {t : Tree} {e : TreeError}
    (ht : t.Descended policy K) : (done (.error e) t : Run α).Rears policy ends K :=
  ⟨K, le_rfl, ht, nofun⟩

/-- A run may begin with a lineage that says less. -/
theorem Rears.head {ends : Lineage → α → Prop} {run : Run α} (hle : K ≤ K')
    (h : run.Rears policy ends K') : run.Rears policy ends K := by
  cases run with
  | done result t =>
    obtain ⟨K'', hle', hend⟩ := h
    exact ⟨K'', hle.trans hle', hend⟩
  | ask q t resume =>
    obtain ⟨K'', hle', hask⟩ := h
    exact ⟨K'', hle.trans hle', hask⟩

/-- Other kinds of answers may be allowed. -/
theorem Rears.mono {ends ends' : Lineage → α → Prop} {run : Run α} (h : run.Rears policy ends K)
    (hends : ∀ K' a, K ≤ K' → ends K' a → ends' K' a) : run.Rears policy ends' K := by
  induction run generalizing K with
  | done result t =>
    obtain ⟨K', hle, ht, hend⟩ := h
    exact ⟨K', hle, ht, fun a ha => hends K' a hle (hend a ha)⟩
  | ask q t resume ih =>
    obtain ⟨K', hle, ht, hresume⟩ := h
    exact ⟨K', hle, ht, fun reply K'' t' hle' ht' => ih _ _ (hresume reply K'' t' hle' ht')
      fun K₃ a hlast ha => hends K₃ a (hle.trans (hle'.trans hlast)) ha⟩

/-- Two runs, one after the other. -/
theorem Rears.bind {mid : Lineage → α → Prop} {ends : Lineage → β → Prop} {run : Run α}
    {next : α → Tree → Run β} (h : run.Rears policy mid K)
    (hnext : ∀ K' a t, K ≤ K' → t.Descended policy K' → mid K' a →
      (next a t).Rears policy ends K') :
    (run.bind next).Rears policy ends K := by
  induction run generalizing K with
  | done result t =>
    obtain ⟨K', hle, ht, hend⟩ := h
    cases result with
    | ok a => exact (hnext K' a t hle ht (hend a rfl)).head hle
    | error e => exact (Rears.error ht).head hle
  | ask q t resume ih =>
    obtain ⟨K', hle, ht, hresume⟩ := h
    exact ⟨K', hle, ht, fun reply K'' t' hle' ht' => ih _ _ (hresume reply K'' t' hle' ht')
      fun K₃ a t'' hlast => hnext K₃ a t'' (hle.trans (hle'.trans hlast))⟩

/-- A run whose last tree is changed. -/
theorem Rears.settle {ends : Lineage → α → Prop} {run : Run α} {f : Tree → Tree}
    (h : run.Rears policy ends K)
    (hf : ∀ K' t, t.Descended policy K' → (f t).Descended policy K') :
    (run.settle f).Rears policy ends K := by
  induction run generalizing K with
  | done result t =>
    obtain ⟨K', hle, ht, hend⟩ := h
    exact ⟨K', hle, hf K' t ht, hend⟩
  | ask q t resume ih =>
    obtain ⟨K', hle, ht, hresume⟩ := h
    exact ⟨K', hle, ht, fun reply K'' t' hle' ht' => ih _ _ (hresume reply K'' t' hle' ht')⟩

/-- What always holds at the end of a run, as long as some property of trees lasts, does so if all
trees in question have that property. -/
theorem Rears.and_always {ends : Lineage → α → Prop} {P : Tree → Prop}
    {post : Except TreeError α → Tree → Prop} {run : Run α} (h : run.Rears policy ends K)
    (h' : run.Always (TreeM.keeping P) post) (hP : ∀ K' t, t.Descended policy K' → P t) :
    run.Rears policy (fun K' a => ends K' a ∧ ∃ t, post (.ok a) t) K := by
  induction run generalizing K with
  | done result t =>
    obtain ⟨K', hle, ht, hend⟩ := h
    refine ⟨K', hle, ht, ?_⟩
    rintro a rfl
    exact ⟨hend a rfl, t, h'⟩
  | ask q t resume ih =>
    obtain ⟨K', hle, ht, hresume⟩ := h
    exact ⟨K', hle, ht, fun reply K'' t' hle' ht' => ih _ _ (hresume reply K'' t' hle' ht')
      (h' reply t' fun _ => hP K'' t' ht')⟩

end Run

/-! ### Replies -/

/-- The nodes that a reply consists of. -/
def StepReply.members : StepReply Node → List Node
  | .node n => [n]
  | .nodes ns => ns
  | _ => []

/-- The directory for which the nodes in the reply of an operation were made, for those operations
that make nodes and answer them. -/
def Command.parent? (on : Operands) : Command → Option Node
  | .newChild _ _ _ | .refreshChildren => some on.dir
  | _ => none

/-- The nodes of a reply were made for a directory, if one is given. -/
def Lineage.Begot (K : Lineage) (parent? : Option Node) (reply : StepReply Node) : Prop :=
  ∀ dir, parent? = some dir → ∀ n ∈ reply.members, K.made dir.serial n

/-! ### Operations -/

namespace TreeM

open Tree

variable {α β : Type} {policy : CasePolicy} {K K' : Lineage}

/-- From any lineage on that says what a given one says, an operation leaves nodes only in the
arrays of what they were made for. -/
def Rears (policy : CasePolicy) (K : Lineage) (ends : Lineage → α → Prop) (act : TreeM α) : Prop :=
  ∀ K' t, K ≤ K' → t.Descended policy K' → (act.run t).Rears policy ends K'

/-- What is asked for of any answer. -/
abbrev whatever (_ : Lineage) (_ : α) : Prop :=
  True

variable {ends : Lineage → α → Prop}

/-- Other kinds of answers may be allowed. -/
theorem Rears.mono {ends' : Lineage → α → Prop} {act : TreeM α} (h : Rears policy K ends act)
    (hends : ∀ K' a, K ≤ K' → ends K' a → ends' K' a) : Rears policy K ends' act :=
  fun K' t hle ht => (h K' t hle ht).mono fun K'' a hle' => hends K'' a (hle.trans hle')

/-- Answering. -/
theorem Rears.pure {a : α} (ha : ∀ K', K ≤ K' → ends K' a) :
    Rears policy K ends (pure a : TreeM α) :=
  fun K' _ hle ht => .ok ht (ha K' hle)

/-- Failing. -/
theorem Rears.fail (e : TreeError) : Rears policy K ends (fail e : TreeM α) :=
  fun _ _ _ ht => .error ht

/-- Reading the tree. -/
theorem Rears.get : Rears policy K (fun _ t => t.policy = policy) (get : TreeM Tree) :=
  fun _ _ _ ht => .ok ht ht.tidy.2

/-- A change that moves no node to another array. -/
theorem Rears.modify {f : Tree → Tree}
    (hf : ∀ K' t, t.Descended policy K' → (f t).Descended policy K') :
    Rears policy K whatever (modify f : TreeM Unit) :=
  fun K' t _ ht => .ok (hf K' t ht) trivial

/-- Asking the backend. -/
theorem Rears.ask (q : Query) : Rears policy K whatever (ask q) := by
  refine fun K' t _ ht => ⟨K', le_rfl, ht, fun reply K'' t' _ ht' => ?_⟩
  cases reply with
  | ok reply => exact .ok ht' trivial
  | error e => exact .error ht'

/-- Going on with a value. -/
theorem Rears.require (e : TreeError) (a : Option α) : Rears policy K whatever (require e a) := by
  cases a with
  | none => exact .fail e
  | some a => exact .pure fun _ _ => trivial

/-- Operations, one after the other. -/
theorem Rears.bind {mid : Lineage → α → Prop} {ends : Lineage → β → Prop} {x : TreeM α}
    {f : α → TreeM β} (hx : Rears policy K mid x)
    (hf : ∀ K' a, K ≤ K' → mid K' a → Rears policy K' ends (f a)) :
    Rears policy K ends (x >>= f) := by
  intro K' t hle ht
  exact (hx K' t hle ht).bind fun K'' a t' hle' ht' ha =>
    hf K'' a (hle.trans hle') ha K'' t' le_rfl ht'

/-- An operation whose answer is mapped. -/
theorem Rears.map {ends : Lineage → β → Prop} (f : α → β) {x : TreeM α}
    (hx : Rears policy K (fun K' a => ends K' (f a)) x) : Rears policy K ends (f <$> x) := by
  intro K' t hle ht
  exact (hx K' t hle ht).bind fun K'' a t' _ ht' ha => .ok ht' ha

/-- Holding objects during an operation. -/
theorem Rears.holding (nodes : List Node) {act : TreeM α} (hact : Rears policy K ends act) :
    Rears policy K ends (holding nodes act) := by
  intro K' t hle ht
  rw [run_holding]
  exact (hact K' _ hle (ht.frame t.registry (t.hold nodes).held)).settle fun K'' t' ht' =>
    ht'.frame t'.registry (t'.release nodes).held

end TreeM

namespace Tree

open TreeM

variable {policy : CasePolicy} {K : Lineage} {dir : Node}

/-! ### Single updates -/

/-- Reading an array tells that there is a directory, and that the children were made for it. -/
theorem rears_childrenOf (dir : Node) : Rears policy K
    (fun K' c => dir.serial < K'.objects ∧ ∀ n ∈ c.present, K'.made dir.serial n)
    (childrenOf dir) := by
  intro K' t _ ht
  unfold childrenOf
  rw [run_bind, run_get, Run.bind_done_ok]
  cases hc : t.children? dir with
  | none => exact .error ht
  | some c =>
    exact ⟨K'.count t.cells.size, ⟨ht.objects, fun _ _ h => h⟩, ht.count, fun _ h =>
      Except.ok.inj h ▸ ⟨serial_lt_of_children? hc, fun n hn => ht.children dir c n hc hn⟩⟩

/-- Changing an array, if the nodes that it is offered were made for the directory. -/
theorem rears_change (op : Children.Op) (hop : op.Admissible policy)
    (hoffered : ∀ n ∈ op.offered, K.made dir.serial n) :
    Rears policy K whatever (change dir fun c => c.apply op) := by
  intro K' t hle ht
  cases hc : t.children? dir with
  | none =>
    rw [run_change, hc]
    exact .error ht
  | some c =>
    have hadmissible : op.Admissible c.policy := by rwa [(ht.tidy.1 dir c hc).1, ht.tidy.2]
    rw [run_change_of_tidy ht.tidy.1 hc hadmissible]
    exact .ok (ht.change hc op hop fun n hn => hle.2 _ _ (hoffered n hn)) trivial

/-- Changing an array that is offered no node. -/
theorem rears_change_of_offered (dir : Node) (op : Children.Op) (h : op.offered = []) :
    Rears policy K whatever (change dir fun c => c.apply op) :=
  rears_change op (Children.Op.admissible_of_offered h policy) fun n hn => by
    rw [h] at hn
    cases hn

/-- Making a node for an object that is known of. -/
theorem rears_newChild (hdir : dir.serial < K.objects) (id : FileId) (name : String)
    (attributes : Attributes) :
    Rears policy K (fun K' n => K'.made dir.serial n) (newChild dir id name attributes) :=
  fun _ _ hle ht => ⟨_, Lineage.le_add _ _ _,
    ht.make_add (Nat.lt_of_lt_of_le hdir hle.1) id name attributes,
    fun _ h => Except.ok.inj h ▸ Lineage.made_add _ _ _⟩

/-- Changing the registry. -/
theorem rears_registering {f : Tree → Tree}
    (hf : ∀ t, f t = { t with registry := (f t).registry }) :
    Rears policy K whatever (modify f : TreeM Unit) :=
  .modify fun _ t ht => by
    rw [hf t]
    exact ht.frame _ t.held

/-- Making a node stand for its identity. -/
theorem rears_register (n : Node) : Rears policy K whatever (modify (·.register n)) :=
  rears_registering fun _ => rfl

/-- Saying that some objects need a refresh. -/
theorem rears_marking (serials : List Nat) (dirty : Bool) :
    Rears policy K whatever (modify fun t => serials.foldl (setDirty · dirty) t : TreeM Unit) :=
  .modify fun _ _ ht => ht.foldl_setDirty dirty serials

/-! ### Lookups -/

/-- Looking a name up in the array tells that there is a directory. -/
theorem rears_findCached (dir : Node) (name : String) :
    Rears policy K (fun K' _ => dir.serial < K'.objects) (findCached dir name) :=
  .bind (rears_childrenOf dir) fun _ _ _ hdir => .pure fun _ hle => Nat.lt_of_lt_of_le hdir.1 hle.1

/-- Recording an answer. -/
theorem rears_recordAnswer (hdir : dir.serial < K.objects) (name query : String)
    (id : Option FileId) (attributes : Option Attributes) :
    Rears policy K whatever (recordAnswer dir name query id attributes) := by
  have hmissing : Rears policy K whatever (recordAnswer dir name query none none) := by
    refine .bind (rears_change_of_offered dir (.insertAbsent name) rfl) fun K' knowledge _ _ => ?_
    cases knowledge <;> exact .pure fun _ _ => trivial
  cases id with
  | none => exact hmissing
  | some id =>
    cases attributes with
    | none => exact hmissing
    | some attributes =>
      refine .bind (rears_newChild hdir id query attributes) fun K' child _ hchild =>
        .bind (rears_change (.insertIfUnknown child) trivial
          (List.forall_mem_singleton.mpr hchild)) fun K'' knowledge _ _ => ?_
      cases knowledge with
      | present node => exact .bind (rears_register node) fun _ _ _ _ => .pure fun _ _ => trivial
      | absent => exact .pure fun _ _ => trivial
      | unknown => exact .pure fun _ _ => trivial

/-- Asking for a name. -/
theorem rears_askFor (hdir : dir.serial < K.objects) (name query : String) (asked : CasePolicy) :
    Rears policy K whatever (askFor dir name query asked) := by
  refine .bind (.ask _) fun K' id hle _ => ?_
  have hdir' := Nat.lt_of_lt_of_le hdir hle.1
  cases id with
  | none => exact rears_recordAnswer hdir' name query _ _
  | some id =>
    exact .bind (.ask _) fun K'' attributes hle' _ =>
      rears_recordAnswer (Nat.lt_of_lt_of_le hdir' hle'.1) name query _ _

/-- Looking a name up. If that does not fail, there is a directory. -/
theorem rears_findChild (dir : Node) (name : String) (canonicalize : Bool) :
    Rears policy K (fun K' _ => dir.serial < K'.objects) (findChild dir name canonicalize) := by
  have hstays : ∀ {K : Lineage} {act : TreeM Lookup}, dir.serial < K.objects →
      Rears policy K whatever act → Rears policy K (fun K' _ => dir.serial < K'.objects) act :=
    fun hdir hact => hact.mono fun K' _ hle _ => Nat.lt_of_lt_of_le hdir hle.1
  intro K' t _ ht
  rw [run_findChild]
  cases hc : t.children? dir with
  | none => exact .error ht
  | some c =>
    have hdir : dir.serial < (K'.count t.cells.size).objects := serial_lt_of_children? hc
    have hle : K' ≤ K'.count t.cells.size := ⟨ht.objects, fun _ _ h => h⟩
    refine Run.Rears.head hle ?_
    have ht' := ht.count
    dsimp only
    split
    · exact .ok ht' hdir
    · exact .ok ht' hdir
    · split
      · exact hstays hdir (.bind (.ask (.canonical dir.id name)) fun K'' query hle' _ =>
          rears_askFor (Nat.lt_of_lt_of_le hdir hle'.1) name query t.policy) _ t le_rfl ht'
      · exact hstays hdir (rears_askFor hdir name name t.policy) _ t le_rfl ht'

/-- Looking a name up as the tree is set. -/
theorem rears_lookup (dir : Node) (name : String) : Rears policy K whatever (lookup dir name) :=
  .bind .get fun _ _ _ _ => (rears_findChild dir name _).mono fun _ _ _ _ => trivial

/-- Looking a path up. -/
theorem rears_lookupNames (dir : Node) (names : List String) :
    Rears policy K whatever (lookupNames dir names) := by
  induction names generalizing dir K with
  | nil => exact .pure fun _ _ => trivial
  | cons name rest ih =>
    rw [lookupNames]
    split
    · refine .bind (.holding [dir] (rears_lookup dir name)) fun K' answer _ _ => ?_
      cases answer with
      | present next => exact ih next
      | absent => exact .pure fun _ _ => trivial
    · exact .pure fun _ _ => trivial

/-- Looking for an identity. -/
theorem rears_findChildById (dir : Node) (id : FileId) (cachedOnly : Bool) :
    Rears policy K whatever (findChildById dir id cachedOnly) := by
  refine .bind (rears_childrenOf dir) fun K' c _ _ => ?_
  split
  · exact .pure fun _ _ => trivial
  · split
    · exact .pure fun _ _ => trivial
    · refine .bind (.ask _) fun K'' name _ _ => ?_
      cases name with
      | none => exact .pure fun _ _ => trivial
      | some name =>
        exact .bind (rears_findChild dir name false) fun _ _ _ _ => .pure fun _ _ => trivial

/-! ### Listings -/

/-- The nodes for a listing were made for its directory, if the cached ones were. -/
theorem rears_mergeListing (hdir : dir.serial < K.objects) (entries : List Listed)
    {cached : List Node} (hcached : ∀ n ∈ cached, K.made dir.serial n) :
    Rears policy K (fun K' merged => ∀ n ∈ merged, K'.made dir.serial n)
      (mergeListing dir cached entries) := by
  induction entries generalizing cached K with
  | nil => exact .pure fun _ _ n hn => absurd hn List.not_mem_nil
  | cons entry rest ih =>
    intro K₁ t hle ht
    rw [run_mergeListing_cons]
    obtain ⟨hcandidate, hlater⟩ := mem_of_passed t.policy cached entry
    have hlater := fun n hn => hcached n (hlater n hn)
    -- a node for the entry goes in front of the nodes for the others
    have hcons : ∀ {K' : Lineage} {n : Node} {act : TreeM (List Node)}, K'.made dir.serial n →
        Rears policy K' (fun K'' merged => ∀ n ∈ merged, K''.made dir.serial n) act →
        Rears policy K' (fun K'' merged => ∀ n ∈ merged, K''.made dir.serial n)
          (do return n :: (← act)) := fun hn hact =>
      .bind hact fun K₁ merged hmid hmerged => .pure fun K₂ hlast =>
        List.forall_mem_cons.mpr ⟨hlast.2 _ _ (hmid.2 _ _ hn),
          fun m hm => hlast.2 _ _ (hmerged m hm)⟩
    have hmerge : Rears policy K (fun K' merged => ∀ n ∈ merged, K'.made dir.serial n)
        (mergeEntry dir entry (passed t.policy cached entry).1
          (mergeListing dir (passed t.policy cached entry).2 rest)) := by
      rw [mergeEntry]
      split
      · next node hnode =>
        obtain ⟨hnode, -⟩ := Option.filter_eq_some_iff.mp hnode
        exact hcons (hcached node (hcandidate node hnode)) (ih hdir hlater)
      · refine .bind (.ask (.attributes dir.id entry.name)) fun K' attributes hle' _ => ?_
        have hdir' := Nat.lt_of_lt_of_le hdir hle'.1
        have hlater' := fun n hn => hle'.2 _ _ (hlater n hn)
        cases attributes with
        | none => exact ih hdir' hlater'
        | some attributes =>
          refine .bind (rears_newChild hdir' entry.id entry.name attributes)
            fun K'' node hle'' hnode => hcons hnode (.holding [node] ?_)
          exact ih (Nat.lt_of_lt_of_le hdir' hle''.1) fun n hn => hle''.2 _ _ (hlater' n hn)
    exact hmerge K₁ t hle ht

/-- Dropping the entries of subtrees. -/
theorem rears_unregisterSubtrees (nodes : List Node) :
    Rears policy K whatever (unregisterSubtrees nodes) := by
  induction nodes generalizing K with
  | nil => exact .pure fun _ _ => trivial
  | cons n nodes ih =>
    exact .bind .get fun _ t _ _ => .bind (.require _ _) fun _ serials _ _ =>
      .bind (rears_registering fun t => unregisterAll_eq t serials) fun _ _ _ _ => ih

/-- Installing nodes that were made for the directory, in the order of their names. -/
theorem rears_installListing (cached : List Node) {merged : List Node}
    (hascending : Ascending policy merged) (hmerged : ∀ n ∈ merged, K.made dir.serial n)
    (generation : Nat) : Rears policy K whatever (installListing dir cached merged generation) := by
  refine .bind (rears_change (.install merged generation) hascending hmerged)
    fun K' installed _ _ => ?_
  split
  · exact .bind (rears_registering fun t => foldl_register_eq t merged) fun _ _ _ _ =>
      rears_unregisterSubtrees _
  · exact .pure fun _ _ => trivial

/-- Listing a directory answers nodes that were made for it. -/
theorem rears_refreshChildren (dir : Node) :
    Rears policy K (fun K' nodes => ∀ n ∈ nodes, K'.made dir.serial n) (refreshChildren dir) := by
  refine .bind (rears_childrenOf dir) fun K₁ c _ hc => ?_
  split
  · exact .pure fun K' hle n hn => hle.2 _ _ (hc.2 n hn)
  · refine .bind (.ask _) fun K₂ listing _ _ => .bind .get fun K₃ t _ hpolicy => ?_
    rw [hpolicy]
    refine .bind (rears_childrenOf dir) fun K₄ now _ hnow => .holding _ ?_
    have hmerging : Rears policy K₄ (fun K' merged => ∀ n ∈ merged, K'.made dir.serial n)
        (mergeListing dir now.present (sortedListing policy listing)) :=
      rears_mergeListing hnow.1 _ hnow.2
    have hstable : Stable policy fun t : Tree => t.policy = policy := by
      refine ⟨fun _ h => h, fun t t' hupdate h => ?_⟩
      cases hupdate <;> exact h
    have hboth : Rears policy K₄ (fun K' merged => (∀ n ∈ merged, K'.made dir.serial n) ∧
        Ascending policy merged) (mergeListing dir now.present (sortedListing policy listing)) := by
      intro K' t hle ht
      have hsorting := hstable.mergeListing_always dir (sortedListing policy listing) now.present t
        ht.tidy.2
      refine ((hmerging K' t hle ht).and_always hsorting fun _ _ ht => ht.tidy.2).mono ?_
      rintro K'' merged - ⟨hmade, _, -, hkeys⟩
      exact ⟨hmade,
        ascending_of_sublist (ascending_sortedListing policy listing) (hkeys merged rfl)⟩
    refine .bind hboth fun K₅ merged _ hmerged => .bind (.holding merged
      (rears_installListing now.present hmerged.2 hmerged.1 c.generation)) fun K₆ _ hle _ =>
        .pure fun K' hle' n hn => hle'.2 _ _ (hle.2 _ _ (hmerged.1 n hn))

/-! ### Reports and checks -/

/-- Reporting that a child came, if it was made for the directory. -/
theorem rears_addChild {child : Node} (hchild : K.made dir.serial child) :
    Rears policy K whatever (addChild dir child) :=
  .bind (rears_change (.insert child) trivial (List.forall_mem_singleton.mpr hchild))
    fun _ node _ _ => .bind (rears_register node) fun _ _ _ _ => .pure fun _ _ => trivial

/-- Reporting that a child went. -/
theorem rears_removeChild (dir child : Node) :
    Rears policy K whatever (removeChild dir child) := by
  refine .bind .get fun _ t _ _ =>
    .bind (rears_change_of_offered dir (.remove child _) rfl) fun _ removed _ _ => ?_
  dsimp only
  split
  · exact .bind (rears_unregisterSubtrees [child]) fun _ _ _ _ => .pure fun _ _ => trivial
  · exact .pure fun _ _ => trivial

/-- Forgetting the children of a directory. -/
theorem rears_clearChildren (dir : Node) : Rears policy K whatever (clearChildren dir) :=
  .bind (rears_childrenOf dir) fun _ _ _ _ => .holding _
    (.bind (rears_change_of_offered dir .clear rfl) fun _ _ _ _ => rears_unregisterSubtrees _)

/-- Adding a child that the backend has. -/
theorem rears_materializeCreated (hdir : dir.serial < K.objects) (name : String) :
    Rears policy K whatever (materializeCreated dir name) := by
  unfold materializeCreated
  split
  · exact .pure fun _ _ => trivial
  · refine .bind (.ask _) fun K₁ attributes hle₁ _ => ?_
    cases attributes with
    | none => exact .pure fun _ _ => trivial
    | some attributes =>
      refine .bind (.ask _) fun K₂ spelling hle₂ _ => .bind .get fun K₃ t hle₃ _ =>
        .bind (.ask _) fun K₄ id hle₄ _ => ?_
      cases id with
      | none => exact .pure fun _ _ => trivial
      | some id =>
        have hle : K ≤ K₄ := hle₁.trans (hle₂.trans (hle₃.trans hle₄))
        exact .bind (rears_newChild (Nat.lt_of_lt_of_le hdir hle.1) id spelling attributes)
          fun K₅ child _ hchild => .bind (rears_addChild hchild) fun _ _ _ _ =>
            .pure fun _ _ => trivial

/-- Checking a cached child. -/
theorem rears_recheck (hdir : dir.serial < K.objects) (node : Node) :
    Rears policy K whatever (recheck dir node) := by
  refine .bind (.ask _) fun K₁ attributes hle₁ _ => ?_
  cases attributes with
  | none => exact .bind (rears_removeChild dir node) fun _ _ _ _ => .pure fun _ _ => trivial
  | some attributes =>
    dsimp only
    split
    · exact .pure fun _ _ => trivial
    · exact .bind (rears_removeChild dir node) fun K₂ _ hle₂ _ =>
        rears_materializeCreated (Nat.lt_of_lt_of_le hdir (hle₁.trans hle₂).1) node.name

/-- Looking a name up and checking the answer. -/
theorem rears_refreshAndFindChild (dir : Node) (name : String) :
    Rears policy K whatever (refreshAndFindChild dir name) := by
  refine .bind (rears_findChild dir name true) fun K' answer _ hdir => ?_
  cases answer with
  | absent => exact rears_materializeCreated hdir name
  | present node => exact .holding [node] (rears_recheck hdir node)

/-- Finding the path of a node. -/
theorem rears_pathOf (node : Node) : Rears policy K whatever (pathOf node) := by
  refine .bind .get fun _ t _ _ => ?_
  split
  · exact .pure fun _ _ => trivial
  · exact .fail _

/-! ### All operations -/

/-- All operations leave nodes only in the arrays of what they were made for, if a child that is
reported was made for the directory. Where nothing but new nodes or the nodes of a listing are
answered, they were made for the directory. -/
theorem rears_command (handles : Handles) {on : Operands} (hdir : on.dir.serial < K.objects)
    (command : Command)
    (hadded : command = .addChild → K.made on.dir.serial on.child) :
    Rears policy K (fun K' reply => K'.Begot (command.parent? on) reply)
      (command.run handles on) := by
  -- most operations do not say for which directory their nodes were made
  have hsilent : ∀ {command : Command} {act : TreeM (StepReply Node)}, command.parent? on = none →
      Rears policy K whatever act →
      Rears policy K (fun K' reply => K'.Begot (command.parent? on) reply) act :=
    fun hnone hact => hact.mono fun K' reply _ _ dir hsome _ _ => by
      rw [hnone] at hsome
      cases hsome
  have hmap : ∀ {α : Type} {ends : Lineage → α → Prop} {act : TreeM α} (f : α → StepReply Node),
      Rears policy K ends act → Rears policy K whatever (f <$> act) :=
    fun f hact => .map f (hact.mono fun _ _ _ _ => trivial)
  have hpure : ∀ {K' : Lineage} {α : Type} (a : α), Rears policy K' whatever (pure a) :=
    fun _ => .pure fun _ _ => trivial
  cases command with
  | lookup name => exact hsilent rfl (hmap _ (rears_lookup on.dir name))
  | lookupPath path => exact hsilent rfl (hmap _ (rears_lookupNames on.dir _))
  | cached name => exact hsilent rfl (hmap _ (rears_findCached on.dir name))
  | children =>
    exact hsilent rfl (hmap _ (.bind (rears_childrenOf on.dir) fun _ _ _ _ =>
      hpure _))
  | refreshChildren =>
    refine .map _ ((rears_refreshChildren on.dir).mono fun K' nodes _ hnodes => ?_)
    rintro _ ⟨⟩
    exact hnodes
  | newChild raw name attributes =>
    simp only [Command.run]
    split
    · exact .pure fun _ _ _ _ n hn => absurd hn List.not_mem_nil
    · refine .map _ ((rears_newChild hdir _ name attributes).mono fun K' node _ hnode => ?_)
      rintro _ ⟨⟩
      exact List.forall_mem_singleton.mpr hnode
  | addChild => exact hsilent rfl (hmap _ (rears_addChild (hadded rfl)))
  | removeChild => exact hsilent rfl (hmap _ (rears_removeChild on.dir on.child))
  | clearChildren => exact hsilent rfl (hmap _ (rears_clearChildren on.dir))
  | markAllLoaded =>
    exact hsilent rfl (hmap _ (rears_change_of_offered on.dir .markAllLoaded rfl))
  | absentNames =>
    exact hsilent rfl (hmap _ (.bind (rears_childrenOf on.dir) fun _ _ _ _ =>
      hpure _))
  | findChildById source cachedOnly =>
    refine hsilent rfl ?_
    simp only [Command.run]
    split
    · exact .pure fun _ _ => trivial
    · exact hmap _ (rears_findChildById on.dir _ cachedOnly)
  | refreshAndFindChild name => exact hsilent rfl (hmap _ (rears_refreshAndFindChild on.dir name))
  | pathOf => exact hsilent rfl (hmap _ (rears_pathOf on.node))
  | node raw =>
    refine hsilent rfl ?_
    simp only [Command.run]
    split
    · exact .pure fun _ _ => trivial
    · exact .bind .get fun _ _ _ _ => .pure fun _ _ => trivial
  | mark dirty => exact hsilent rfl (hmap _ (rears_marking [on.node.serial] dirty))
  | markRecursively =>
    exact hsilent rfl (hmap _ (.bind .get fun _ _ _ _ => .bind (.require _ _) fun _ serials _ _ =>
      rears_marking serials true))
  | info => exact hsilent rfl (.pure fun _ _ => trivial)
  | treeInfo => exact hsilent rfl (.bind .get fun _ _ _ _ => .pure fun _ _ => trivial)
  | drop handle => exact hsilent rfl (.pure fun _ _ => trivial)

end Tree

end LazyTree
