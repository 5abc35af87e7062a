import LazyTree.Proofs.RegistryEntries

set_option autoImplicit false

/-!
# How operations conduct themselves

Whatever an operation does to a tidy tree between its questions, it does by updates, none of which is
refused; and where it answers a list of nodes, the list is in the order of the names. This is told
here once for all operations, for any kind of moves that the updates are. Only one update is singled
out: to forget the children of a directory, which only the operation of that name does.

## Main definitions

* `LazyTree.Run.Conducts` — what a run does itself, and what it ends with.
* `LazyTree.Tree.TidyUnder` — a tree with a policy is tidy.
* `LazyTree.TreeM.Conduct` — what an operation does itself in tidy trees.
* `LazyTree.Tree.Custom` — updates are moves of one kind.

## Main results

* `LazyTree.Run.Conducts.bind`, `LazyTree.TreeM.Conduct.bind` — the conduct of what is put together.
* `LazyTree.Tree.Custom.command` — the conduct of all operations.
* `LazyTree.Tree.Happens.proper` — whatever happens, no identity gets two entries.
-/

namespace LazyTree

/-! ### Runs -/

/-- If a reply is a list of nodes, then they are in the order of their names. -/
def StepReply.InOrder (policy : CasePolicy) : StepReply Node → Prop
  | .nodes ns => Ascending policy ns
  | _ => True

/-- Why a step has no identity is no list. -/
theorem IdSource.inOrder_of_resolve {policy : CasePolicy} {handles : Handles} {source : IdSource}
    {reply : StepReply Node} (h : source.resolve handles = .error reply) :
    reply.InOrder policy := by
  cases source with
  | raw number =>
    rw [resolve] at h
    split at h <;> cases h
    exact trivial
  | handle name =>
    rw [resolve] at h
    split at h <;> cases h
    exact trivial

/-- No array breaks a rule on the way from a node to the root. -/
theorem Tree.climb_ne_inconsistent {t : Tree} {steps : Nat} {n : Node} {e : TreeError}
    (h : t.climb steps n = .error e) (broken : Inconsistency) : e ≠ .inconsistent broken := by
  fun_induction climb t steps n with
  | case1 => cases h
  | case2 =>
    cases h
    nofun
  | case3 =>
    cases h
    nofun
  | case4 n id _ parent _ steps ih =>
    cases hparent : t.climb steps parent with
    | ok names =>
      rw [hparent] at h
      cases h
    | error e' =>
      rw [hparent] at h
      cases h
      exact ih hparent

/-- An operation ends well: with an answer of one kind, or with a failure other than that an array
would break a rule. -/
def EndsWell {α : Type} (ends : α → Prop) : Except TreeError α → Prop
  | .ok a => ends a
  | .error e => ∀ broken, e ≠ .inconsistent broken

namespace Run

variable {α β : Type} {good : Tree → Prop} {move : Tree → Tree → Prop}

/-- What a run does from a tree on, if whatever else happens keeps a property of trees: it keeps the
property, makes moves of one kind between its questions, and ends well. -/
def Conducts (good : Tree → Prop) (move : Tree → Tree → Prop) (ends : α → Prop) :
    Run α → Tree → Prop
  | done result t', t => good t' ∧ move t t' ∧ EndsWell ends result
  | ask _ t' resume, t => good t' ∧ move t t' ∧
      ∀ reply t'', good t'' → (resume reply t'').Conducts good move ends t''

/-- A run may make a move first. -/
theorem Conducts.head {ends : α → Prop} {run : Run α} {t t' : Tree}
    (htrans : ∀ {a b c}, move a b → move b c → move a c) (hmove : move t t')
    (h : run.Conducts good move ends t') : run.Conducts good move ends t := by
  cases run with
  | done result t'' => exact ⟨h.1, htrans hmove h.2.1, h.2.2⟩
  | ask q t'' resume => exact ⟨h.1, htrans hmove h.2.1, h.2.2⟩

/-- More kinds of answers may be allowed. -/
theorem Conducts.mono {ends ends' : α → Prop} {run : Run α} {t : Tree}
    (h : run.Conducts good move ends t) (hends : ∀ a, ends a → ends' a) :
    run.Conducts good move ends' t := by
  induction run generalizing t with
  | done result t' =>
    refine ⟨h.1, h.2.1, ?_⟩
    cases result with
    | ok a => exact hends a h.2.2
    | error e => exact h.2.2
  | ask q t' resume ih => exact ⟨h.1, h.2.1, fun reply t'' ht'' => ih _ _ (h.2.2 reply t'' ht'')⟩

/-- Two runs, one after the other. -/
theorem Conducts.bind {mid : α → Prop} {ends : β → Prop} {run : Run α}
    {next : α → Tree → Run β} {t : Tree}
    (htrans : ∀ {a b c}, move a b → move b c → move a c) (h : run.Conducts good move mid t)
    (hnext : ∀ a, mid a → ∀ t', good t' → (next a t').Conducts good move ends t') :
    (run.bind next).Conducts good move ends t := by
  induction run generalizing t with
  | done result t' =>
    obtain ⟨hgood, hmove, hend⟩ := h
    cases result with
    | ok a => exact (hnext a hend t' hgood).head htrans hmove
    | error e => exact ⟨hgood, hmove, hend⟩
  | ask q t' resume ih => exact ⟨h.1, h.2.1, fun reply t'' ht'' => ih _ _ (h.2.2 reply t'' ht'')⟩

/-- The tree may make a last move. -/
theorem Conducts.settle {ends : α → Prop} {run : Run α} {f : Tree → Tree} {t : Tree}
    (htrans : ∀ {a b c}, move a b → move b c → move a c) (h : run.Conducts good move ends t)
    (hf : ∀ t', good t' → good (f t') ∧ move t' (f t')) :
    (run.settle f).Conducts good move ends t := by
  induction run generalizing t with
  | done result t' =>
    obtain ⟨hgood, hmove, hend⟩ := h
    exact ⟨(hf t' hgood).1, htrans hmove (hf t' hgood).2, hend⟩
  | ask q t' resume ih => exact ⟨h.1, h.2.1, fun reply t'' ht'' => ih _ _ (h.2.2 reply t'' ht'')⟩

end Run

namespace Tree

/-- A tree with a policy is tidy. -/
def TidyUnder (policy : CasePolicy) (t : Tree) : Prop :=
  t.Tidy ∧ t.policy = policy

/-- An update keeps a tree tidy. -/
theorem TidyUnder.update {policy : CasePolicy} {t t' : Tree} (h : t.TidyUnder policy)
    (hupdate : Update t t') : t'.TidyUnder policy := by
  obtain ⟨htidy, hlater⟩ := (stable_tidy t).update _ _ hupdate ⟨h.1, .refl t⟩
  exact ⟨htidy, hlater.policy.trans h.2⟩

/-- The updates of tidy trees are moves of one kind, except that children may be forgotten in some
directories only. -/
structure Custom (policy : CasePolicy) (forgets : Node → Prop) (move : Tree → Tree → Prop) :
    Prop where
  /-- To do nothing is such a move. -/
  refl : ∀ t, move t t
  /-- Two moves make one. -/
  trans : ∀ {t t' t''}, move t t' → move t' t'' → move t t''
  /-- So is to make an object. -/
  make : ∀ t dir id name attributes, move t (t.make dir id name attributes).2
  /-- So are the changes of arrays. -/
  change : ∀ {t dir c op}, t.TidyUnder policy → t.children? dir = some c → op.Admissible policy →
    (op = .clear → forgets dir) → move t (t.setChildren dir (c.apply op).2)
  /-- So is to say that an object needs a refresh, or not. -/
  dirty : ∀ t dirty serial, move t (t.setDirty dirty serial)
  /-- So is to change the registry, where no identity gets two entries. -/
  registry : ∀ (t : Tree) (registry : Registry), (t.registry.Proper → registry.Proper) →
    move t { t with registry := registry }
  /-- So is to change who holds what. -/
  held : ∀ t held, move t { t with held := held }

end Tree

namespace TreeM

open LazyTree.Tree

variable {α β : Type} {policy : CasePolicy} {forgets : Node → Prop} {move : Tree → Tree → Prop}

/-- What an operation does itself in tidy trees: it makes moves of one kind and leaves them tidy, and
it ends well. -/
def Conduct (policy : CasePolicy) (move : Tree → Tree → Prop) (ends : α → Prop) (act : TreeM α) :
    Prop :=
  ∀ t, t.TidyUnder policy → (act.run t).Conducts (TidyUnder policy) move ends t

/-- What is asked for of any answer. -/
abbrev anything (_ : α) : Prop :=
  True

variable {ends : α → Prop}

/-- More kinds of answers may be allowed. -/
theorem Conduct.mono {ends' : α → Prop} {act : TreeM α} (h : Conduct policy move ends act)
    (hends : ∀ a, ends a → ends' a) : Conduct policy move ends' act :=
  fun t ht => (h t ht).mono hends

/-- The conduct of an operation that asks nothing. -/
theorem Conduct.of_done {act : TreeM α}
    (hact : ∀ t, t.TidyUnder policy →
      ∃ result t', act.run t = .done result t' ∧ t'.TidyUnder policy ∧ move t t' ∧
        EndsWell ends result) : Conduct policy move ends act := by
  intro t ht
  obtain ⟨result, t', hrun, hafter⟩ := hact t ht
  rw [hrun]
  exact hafter

section Custom

variable (h : Custom policy forgets move)
include h

/-- Answering does nothing. -/
theorem Conduct.pure {a : α} (ha : ends a) : Conduct policy move ends (pure a : TreeM α) :=
  fun t ht => ⟨ht, h.refl t, ha⟩

/-- Failing does nothing, and is well unless an array would break a rule. -/
theorem Conduct.fail {e : TreeError} (he : ∀ broken, e ≠ .inconsistent broken) :
    Conduct policy move ends (fail e : TreeM α) :=
  fun t ht => ⟨ht, h.refl t, he⟩

/-- Reading the tree answers a tidy one. -/
theorem Conduct.get : Conduct policy move (TidyUnder policy) (get : TreeM Tree) :=
  fun t ht => ⟨ht, h.refl t, ht⟩

/-- Asking does nothing. -/
theorem Conduct.ask (q : Query) : Conduct policy move anything (ask q) := by
  refine fun t ht => ⟨ht, h.refl t, fun reply t' ht' => ?_⟩
  cases reply with
  | ok reply => exact ⟨ht', h.refl t', trivial⟩
  | error e => exact ⟨ht', h.refl t', nofun⟩

/-- Going on with a value does nothing. -/
theorem Conduct.require {e : TreeError} (he : ∀ broken, e ≠ .inconsistent broken) {a : Option α}
    (ha : ∀ b, a = some b → ends b) : Conduct policy move ends (require e a) := by
  cases a with
  | none => exact .fail h he
  | some b => exact .pure h (ha b rfl)

/-- Operations, one after the other. -/
theorem Conduct.bind {mid : α → Prop} {ends : β → Prop} {x : TreeM α} {f : α → TreeM β}
    (hx : Conduct policy move mid x) (hf : ∀ a, mid a → Conduct policy move ends (f a)) :
    Conduct policy move ends (x >>= f) :=
  fun t ht => (hx t ht).bind h.trans hf

/-- An operation whose answer is mapped. -/
theorem Conduct.map {ends : β → Prop} {x : TreeM α} (f : α → β)
    (hx : Conduct policy move (fun a => ends (f a)) x) : Conduct policy move ends (f <$> x) :=
  Conduct.bind h (f := fun a => Pure.pure (f a)) hx fun _ ha => .pure h ha

/-- Holding objects during an operation. -/
theorem Conduct.holding (nodes : List Node) {act : TreeM α} (hact : Conduct policy move ends act) :
    Conduct policy move ends (holding nodes act) := by
  intro t ht
  rw [run_holding]
  refine Run.Conducts.settle h.trans ?_ fun t' ht' =>
    ⟨ht'.update (.held t' _), h.held t' (t'.release nodes).held⟩
  exact (hact _ (ht.update (.held t _))).head h.trans (h.held t (t.hold nodes).held)

end Custom

end TreeM

namespace Tree.Custom

open TreeM

variable {policy : CasePolicy} {forgets : Node → Prop} {move : Tree → Tree → Prop}
  (h : Custom policy forgets move)
include h

/-! ### Single updates -/

/-- Reading an array answers a tidy one. -/
theorem childrenOf (dir : Node) :
    Conduct policy move (fun c => c.Tidy ∧ c.policy = policy) (childrenOf dir) := by
  refine .bind h (.get h) fun t ht => .require h ?_ fun c hc => ?_
  · exact nofun
  · obtain ⟨hpolicy, htidy⟩ := ht.1 dir c hc
    exact ⟨htidy, hpolicy.trans ht.2⟩

/-- Looking a name up in the array does nothing. -/
theorem findCached (dir : Node) (name : String) :
    Conduct policy move anything (findCached dir name) :=
  .bind h (h.childrenOf dir) fun _ _ => .pure h trivial

/-- A change of an array is not refused. -/
theorem changing (dir : Node) (op : Children.Op) (hop : op.Admissible policy)
    (hclear : op = .clear → forgets dir) :
    Conduct policy move anything (Tree.change dir fun c => c.apply op) := by
  refine .of_done fun t ht => ?_
  cases hc : t.children? dir with
  | none =>
    rw [run_change, hc]
    exact ⟨_, t, rfl, ht, h.refl t, nofun⟩
  | some c =>
    have hadmissible : op.Admissible c.policy := by rwa [(ht.1 dir c hc).1, ht.2]
    rw [run_change_of_tidy ht.1 hc hadmissible]
    exact ⟨_, _, rfl, ht.update (.change t dir c op hc (ht.2 ▸ hop)), h.change ht hc hop hclear,
      trivial⟩

/-- Making a child of some name is a move. -/
theorem newChild (dir : Node) (id : FileId) (name : String) (attributes : Attributes) :
    Conduct policy move (fun node => node.name = name) (newChild dir id name attributes) :=
  fun t ht => ⟨ht.update (.make t dir id name attributes), h.make t dir id name attributes, rfl⟩

/-- A change of the registry alone is a move, if no identity gets two entries. -/
theorem registering {f : Tree → Tree} (hf : ∀ t, f t = { t with registry := (f t).registry })
    (hproper : ∀ t, t.registry.Proper → (f t).registry.Proper) :
    Conduct policy move anything (modify f : TreeM Unit) := by
  refine .of_done fun t ht => ⟨_, f t, rfl, ?_, ?_, trivial⟩
  · rw [hf t]
    exact ht.update (.registry t _)
  · rw [hf t]
    exact h.registry t _ (hproper t)

/-- Making a node stand for its identity is a move. -/
theorem register (n : Node) : Conduct policy move anything (modify (·.register n)) :=
  h.registering (fun _ => rfl) fun _ ht => ht.put n

/-- Saying that some objects need a refresh is a move. -/
theorem marking (serials : List Nat) (dirty : Bool) : Conduct policy move anything
    (modify fun t => serials.foldl (setDirty · dirty) t : TreeM Unit) := by
  intro t ht
  have hafter : (serials.foldl (setDirty · dirty) t).TidyUnder policy ∧
      move t (serials.foldl (setDirty · dirty) t) := by
    induction serials generalizing t with
    | nil => exact ⟨ht, h.refl t⟩
    | cons serial serials ih =>
      obtain ⟨hgood, hmove⟩ := ih _ (ht.update (.dirty t dirty serial))
      exact ⟨hgood, h.trans (h.dirty t dirty serial) hmove⟩
  exact ⟨hafter.1, hafter.2, trivial⟩

/-! ### Lookups -/

/-- Recording an answer makes moves. -/
theorem recordAnswer (dir : Node) (name query : String) (id : Option FileId)
    (attributes : Option Attributes) :
    Conduct policy move anything (recordAnswer dir name query id attributes) := by
  have habsent : Conduct policy move anything (Tree.recordAnswer dir name query none none) := by
    refine .bind h (h.changing dir (.insertAbsent name) trivial nofun) fun knowledge _ => ?_
    cases knowledge <;> exact .pure h trivial
  cases id with
  | none => exact habsent
  | some id =>
    cases attributes with
    | none => exact habsent
    | some attributes =>
      refine .bind h (h.newChild dir id query attributes) fun child _ =>
        .bind h (h.changing dir (.insertIfUnknown child) trivial nofun) fun knowledge _ => ?_
      cases knowledge with
      | present node => exact .bind h (h.register node) fun _ _ => .pure h trivial
      | absent => exact .pure h trivial
      | unknown => exact .pure h trivial

/-- Asking for a name makes moves. -/
theorem askFor (dir : Node) (name query : String) (asked : CasePolicy) :
    Conduct policy move anything (askFor dir name query asked) := by
  refine .bind h (.ask h _) fun id _ => ?_
  cases id with
  | none => exact h.recordAnswer dir name query _ _
  | some id =>
    exact .bind h (.ask h _) fun attributes _ => h.recordAnswer dir name query _ _

/-- Looking a name up makes moves. -/
theorem findChild (dir : Node) (name : String) (canonicalize : Bool) :
    Conduct policy move anything (findChild dir name canonicalize) := by
  intro t ht
  rw [run_findChild]
  split
  · exact ⟨ht, h.refl t, nofun⟩
  · split
    · exact ⟨ht, h.refl t, trivial⟩
    · exact ⟨ht, h.refl t, trivial⟩
    · split
      · exact Conduct.bind h (.ask h (.canonical dir.id name))
          (fun query _ => h.askFor dir name query t.policy) t ht
      · exact h.askFor dir name name _ t ht

/-- Looking a name up as the tree is set makes moves. -/
theorem lookup (dir : Node) (name : String) : Conduct policy move anything (lookup dir name) :=
  .bind h (.get h) fun _ _ => h.findChild dir name _

/-- Looking a path up makes moves. -/
theorem lookupNames (dir : Node) (names : List String) :
    Conduct policy move anything (lookupNames dir names) := by
  induction names generalizing dir with
  | nil => exact .pure h trivial
  | cons name rest ih =>
    rw [Tree.lookupNames]
    split
    · refine .bind h (.holding h [dir] (h.lookup dir name)) fun answer _ => ?_
      cases answer with
      | present next => exact ih next
      | absent => exact .pure h trivial
    · exact .pure h trivial

/-- Looking for an identity makes moves. -/
theorem findChildById (dir : Node) (id : FileId) (cachedOnly : Bool) :
    Conduct policy move anything (findChildById dir id cachedOnly) := by
  refine .bind h (h.childrenOf dir) fun c _ => ?_
  split
  · exact .pure h trivial
  · split
    · exact .pure h trivial
    · refine .bind h (.ask h _) fun name _ => ?_
      cases name with
      | none => exact .pure h trivial
      | some name => exact .bind h (h.findChild dir name false) fun _ _ => .pure h trivial

/-! ### Listings -/

/-- The nodes for a listing stand in the order of the listing. -/
theorem mergeListing (dir : Node) (entries : List Listed) (cached : List Node) :
    Conduct policy move (fun merged => (merged.map fun n => policy.key n.name).Sublist
      (entries.map fun e => policy.key e.name)) (mergeListing dir cached entries) := by
  induction entries generalizing cached with
  | nil => exact .pure h (List.Sublist.refl _)
  | cons entry rest ih =>
    intro t ht
    rw [run_mergeListing_cons, mergeEntry, ht.2]
    have hrest := ih (passed policy cached entry).2
    split
    · next node hnode =>
      -- a cached node is used again
      obtain ⟨hcandidate, -⟩ := Option.filter_eq_some_iff.mp hnode
      have hkey := passed_key hcandidate
      refine Conduct.bind h hrest (fun merged hmerged => .pure h ?_) t ht
      rw [List.map_cons, List.map_cons, hkey]
      exact hmerged.cons_cons _
    · refine Conduct.bind h (.ask h (.attributes dir.id entry.name)) (fun attributes _ => ?_) t ht
      cases attributes with
      | none =>
        -- the child has vanished
        exact hrest.mono fun merged hmerged => hmerged.cons _
      | some attributes =>
        refine .bind h (h.newChild dir entry.id entry.name attributes) fun node hname =>
          .bind h (.holding h [node] hrest) fun merged hmerged => .pure h ?_
        rw [List.map_cons, List.map_cons, hname]
        exact hmerged.cons_cons _

/-- Dropping the entries of subtrees makes moves. -/
theorem unregisterSubtrees (nodes : List Node) :
    Conduct policy move anything (unregisterSubtrees nodes) := by
  induction nodes with
  | nil => exact .pure h trivial
  | cons n nodes ih =>
    refine .bind h (.get h) fun t _ => .bind h (.require h ?_ fun _ _ => trivial) fun serials _ =>
      .bind h (h.registering (fun t => unregisterAll_eq t serials)
        fun t ht => ht.sublist (sublist_unregisterAll t serials)) fun _ _ => ih
    exact nofun

/-- Installing nodes in the order of their names makes moves. -/
theorem installListing (dir : Node) (cached : List Node) {merged : List Node}
    (hmerged : Ascending policy merged) (generation : Nat) :
    Conduct policy move anything (installListing dir cached merged generation) := by
  refine .bind h (h.changing dir (.install merged generation) hmerged nofun)
    fun installed _ => ?_
  split
  · exact .bind h (h.registering (fun t => foldl_register_eq t merged)
      fun _ ht => proper_foldl_register ht) fun _ _ => h.unregisterSubtrees _
  · exact .pure h trivial

/-- All children of a directory are answered in the order of their names. -/
theorem refreshChildren (dir : Node) :
    Conduct policy move (Ascending policy) (refreshChildren dir) := by
  refine .bind h (h.childrenOf dir) fun c hc => ?_
  split
  · exact .pure h (hc.2 ▸ hc.1.ascending_present)
  · refine .bind h (.ask h _) fun listing _ => .bind h (.get h) fun t ht => ?_
    rw [ht.2]
    refine .bind h (h.childrenOf dir) fun now _ => .holding h _ ?_
    refine .bind h (h.mergeListing dir _ _) fun merged hmerged => ?_
    have hmerged := ascending_of_sublist (ascending_sortedListing policy listing) hmerged
    exact .bind h (.holding h merged (h.installListing dir _ hmerged _)) fun _ _ => .pure h hmerged

/-! ### Reported changes -/

/-- Reporting that a child came makes moves. -/
theorem addChild (dir child : Node) : Conduct policy move anything (addChild dir child) :=
  .bind h (h.changing dir (.insert child) trivial nofun) fun node _ =>
    .bind h (h.register node) fun _ _ => .pure h trivial

/-- Reporting that a child went makes moves. -/
theorem removeChild (dir child : Node) : Conduct policy move anything (removeChild dir child) := by
  refine .bind h (.get h) fun t _ =>
    .bind h (h.changing dir (.remove child _) trivial nofun) fun removed _ => ?_
  dsimp only
  split
  · exact .bind h (h.unregisterSubtrees [child]) fun _ _ => .pure h trivial
  · exact .pure h trivial

/-- Forgetting the children of a directory makes moves, if they may be forgotten there. -/
theorem clearChildren (dir : Node) (hdir : forgets dir) :
    Conduct policy move anything (clearChildren dir) :=
  .bind h (h.childrenOf dir) fun _ _ => .holding h _
    (.bind h (h.changing dir .clear trivial fun _ => hdir)
      fun _ _ => h.unregisterSubtrees _)

/-- Adding a child that the backend has makes moves. -/
theorem materializeCreated (dir : Node) (name : String) :
    Conduct policy move anything (materializeCreated dir name) := by
  unfold Tree.materializeCreated
  split
  · exact .pure h trivial
  · refine .bind h (.ask h _) fun attributes _ => ?_
    cases attributes with
    | none => exact .pure h trivial
    | some attributes =>
      refine .bind h (.ask h _) fun spelling _ => .bind h (.get h) fun t _ =>
        .bind h (.ask h _) fun id _ => ?_
      cases id with
      | none => exact .pure h trivial
      | some id =>
        exact .bind h (h.newChild dir id spelling attributes) fun child _ =>
          .bind h (h.addChild dir child) fun _ _ => .pure h trivial

/-- Checking a cached child makes moves. -/
theorem recheck (dir node : Node) : Conduct policy move anything (recheck dir node) := by
  refine .bind h (.ask h _) fun attributes _ => ?_
  cases attributes with
  | none => exact .bind h (h.removeChild dir node) fun _ _ => .pure h trivial
  | some attributes =>
    dsimp only
    split
    · exact .pure h trivial
    · exact .bind h (h.removeChild dir node) fun _ _ => h.materializeCreated dir node.name

/-- Looking a name up and checking the answer makes moves. -/
theorem refreshAndFindChild (dir : Node) (name : String) :
    Conduct policy move anything (refreshAndFindChild dir name) := by
  refine .bind h (h.findChild dir name true) fun answer _ => ?_
  cases answer with
  | absent => exact h.materializeCreated dir name
  | present node => exact .holding h [node] (h.recheck dir node)

/-! ### All operations -/

/-- The conduct of all operations: whatever the backend answers, and whatever else happens to a tidy
tree meanwhile, no change of an array is refused, and lists of nodes are in the order of the names. -/
theorem command (handles : Handles) (on : Operands) (command : Command)
    (hclear : command = .clearChildren → forgets on.dir) :
    Conduct policy move (StepReply.InOrder policy) (command.run handles on) := by
  cases command with
  | lookup name =>
    refine .map h _ ((h.lookup on.dir name).mono fun answer _ => ?_)
    cases answer <;> exact trivial
  | lookupPath path =>
    refine .map h _ ((h.lookupNames on.dir _).mono fun answer _ => ?_)
    cases answer <;> exact trivial
  | cached name =>
    refine .map h _ ((h.findCached on.dir name).mono fun knowledge _ => ?_)
    cases knowledge <;> exact trivial
  | children =>
    exact .map h _ (.bind h (h.childrenOf on.dir) fun c hc =>
      .pure h (hc.2 ▸ hc.1.ascending_present))
  | refreshChildren => exact .map h _ (h.refreshChildren on.dir)
  | newChild raw name attributes =>
    simp only [Command.run]
    split
    · exact .pure h trivial
    · exact .map h _ ((h.newChild on.dir _ name attributes).mono fun _ _ => trivial)
  | addChild => exact .map h _ (h.addChild on.dir on.child)
  | removeChild => exact .map h _ (h.removeChild on.dir on.child)
  | clearChildren => exact .map h _ (h.clearChildren on.dir (hclear rfl))
  | markAllLoaded => exact .map h _ (h.changing on.dir .markAllLoaded trivial fun hc => by cases hc)
  | absentNames => exact .map h _ (.bind h (h.childrenOf on.dir) fun _ _ => .pure h trivial)
  | findChildById source cachedOnly =>
    simp only [Command.run]
    split
    · next hresolve => exact .pure h (IdSource.inOrder_of_resolve hresolve)
    · refine .map h _ ((h.findChildById on.dir _ cachedOnly).mono fun node _ => ?_)
      cases node <;> exact trivial
  | refreshAndFindChild name =>
    refine .map h _ ((h.refreshAndFindChild on.dir name).mono fun node _ => ?_)
    cases node <;> exact trivial
  | pathOf =>
    refine .map h _ (.bind h (.get h) fun t _ => ?_)
    split
    · exact .pure h trivial
    · next hclimb => exact .fail h (climb_ne_inconsistent hclimb)
  | node raw =>
    simp only [Command.run]
    split
    · exact .pure h trivial
    · refine .bind h (.get h) fun t _ => .pure h ?_
      cases t.node? _ <;> exact trivial
  | mark dirty => exact .map h _ (h.marking [on.node.serial] dirty)
  | markRecursively =>
    refine .map h _ (.bind h (.get h) fun t _ => .bind h (.require h ?_ fun _ _ => trivial)
      fun serials _ => h.marking serials true)
    rintro broken ⟨⟩
  | info => exact .pure h trivial
  | treeInfo => exact .bind h (.get h) fun _ _ => .pure h trivial
  | drop handle => exact .pure h trivial

end Tree.Custom

/-! ### What every history keeps -/

namespace Run

/-- A run that conducts itself keeps a property of the trees in question that its moves keep, if
whatever else happens does. -/
theorem Conducts.keeps {α : Type} {good P : Tree → Prop} {ends : α → Prop} {run : Run α}
    {t last : Tree} {exchanges : List Exchange} {result : Except TreeError α}
    (h : run.Conducts good (fun t t' => P t → P t') ends t) (ht : P t)
    (htook : run.Took exchanges result last)
    (hworld : ∀ x ∈ exchanges, good x.asked → P x.asked → good x.resumed ∧ P x.resumed) :
    good last ∧ P last := by
  induction htook generalizing t with
  | done result last => exact ⟨h.1, h.2.1 ht⟩
  | ask rest ih =>
    obtain ⟨hgood, hmove, hresume⟩ := h
    obtain ⟨hfirst, hrest⟩ := List.forall_mem_cons.mp hworld
    obtain ⟨hgood', hP'⟩ := hfirst hgood (hmove ht)
    exact ih (hresume _ _ hgood') hP' hrest

end Run

namespace Tree

/-- The moves of tidy trees that give no identity two entries. -/
theorem custom_proper (policy : CasePolicy) :
    Custom policy (fun _ => True) fun t t' => t.registry.Proper → t'.registry.Proper where
  refl _ h := h
  trans h h' ht := h' (h ht)
  make _ _ _ _ _ h := h
  change _ _ _ _ h := h
  dirty _ _ _ h := h
  registry _ _ h := h
  held _ _ h := h

/-- Whatever happens, no identity gets two entries. -/
theorem Happens.proper {t t' : Tree} (h : Happens t t') (ht : t.Tidy)
    (hproper : t.registry.Proper) : t'.registry.Proper := by
  have hgood : t.TidyUnder t.policy := ⟨ht, rfl⟩
  generalize t.policy = policy at hgood
  have hboth : t'.TidyUnder policy ∧ t'.registry.Proper := by
    clear ht
    induction h with
    | refl t => exact ⟨hgood, hproper⟩
    | command handles on command took _ _ hmeanwhile ih =>
      obtain ⟨hgood', hproper'⟩ :=
        ((custom_proper policy).command handles on command (fun _ => trivial) _ hgood).keeps hproper
          took fun x hx hasked hentries => hmeanwhile x hx hentries hasked
      exact ih hproper' hgood'
    | held held _ ih => exact ih hproper (hgood.update (.held _ held))
  exact hboth.2

end Tree

end LazyTree
