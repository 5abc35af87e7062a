import LazyTree.Proofs.Histories

set_option autoImplicit false

/-!
# What reports do to what is known

What a tree knows of the names of a directory, before and after it records an answer of the backend
or is told that a child went. In a tidy tree no such report is refused, and it does what the ledger
of the directory says.

## Main definitions

* `LazyTree.Tree.fact?`, `LazyTree.Tree.Free` — what is known of a name of a directory, and that no
  child is known to have it.
* `LazyTree.Lookup.ofKnowledge` — the answer for a name of which something is known.

## Main results

* `LazyTree.Tree.run_change_of_tidy` — no change of an array is refused.
* `LazyTree.Tree.recordAnswer_none_iff`, `LazyTree.Tree.recordAnswer_some_iff` — when recording an
  answer ends with a name for which no child is known.
* `LazyTree.Tree.removeChild_fact?` — what is known of a name after a child of that name went.
-/

namespace LazyTree

/-- The answer for a name of which something is known. -/
def Lookup.ofKnowledge : Knowledge → Lookup
  | .present child => .present child
  | .absent | .unknown => .absent

namespace Tree

open TreeM

/-- What is known of a name of a directory. -/
def fact? (t : Tree) (dir : Node) (name : String) : Option Fact :=
  (t.children? dir).bind fun c => c.ledger.fact? name

/-- No child of a directory is known to have a name. -/
def Free (t : Tree) (dir : Node) (name : String) : Prop :=
  ∀ n, t.fact? dir name ≠ some (.present n)

variable {t : Tree} {dir : Node} {c : Children}

/-- What is known of a name is what the array says. -/
theorem fact?_of_children? (hc : t.children? dir = some c) (name : String) :
    t.fact? dir name = c.ledger.fact? name := by
  rw [fact?, hc]
  rfl

/-- Names that are the same are known alike. -/
theorem fact?_congr (ht : t.Tidy) {a b : String} (hab : t.policy.key a = t.policy.key b) :
    t.fact? dir a = t.fact? dir b := by
  cases hc : t.children? dir with
  | none =>
    rw [fact?, fact?, hc]
    rfl
  | some c =>
    have hpolicy : c.ledger.policy = t.policy := (ht dir c hc).1
    rw [fact?_of_children? hc, fact?_of_children? hc]
    exact c.ledger.fact?_congr (by rwa [hpolicy])

/-- Objects of the same number have the same array. -/
theorem children?_congr {d : Node} (h : d.serial = dir.serial) :
    t.children? d = t.children? dir := by
  rw [children?, children?, cell?, cell?, h]

/-- An array that is replaced is the new one. -/
theorem children?_setChildren_self (hc : t.children? dir = some c) (c' : Children) :
    (t.setChildren dir c').children? dir = some c' := by
  rw [children?_setChildren, if_pos rfl, hc]
  rfl

/-- The number of a directory is that of one of the objects. -/
theorem serial_lt_of_children? (hc : t.children? dir = some c) : dir.serial < t.cells.size := by
  refine Nat.lt_of_not_le fun hle => ?_
  unfold children? cell? at hc
  rw [Array.getElem?_eq_none hle] at hc
  cases hc

/-- Making an object leaves the array of a directory as it is. -/
theorem children?_make_of_children? (hc : t.children? dir = some c) (parent : Node) (id : FileId)
    (name : String) (attributes : Attributes) :
    (t.make parent id name attributes).2.children? dir = some c := by
  rw [children?_make, if_neg (Nat.ne_of_lt (serial_lt_of_children? hc)), hc]

/-- In a tidy tree no admissible change of an array is refused. -/
theorem run_change_of_tidy (ht : t.Tidy) (hc : t.children? dir = some c) {op : Children.Op}
    (hop : op.Admissible c.policy) : (change dir fun c => c.apply op).run t =
      .done (.ok (c.ledger.apply op).1) (t.setChildren dir (c.apply op).2) := by
  rw [run_change, hc]
  simp only [(Children.apply_follows (ht dir c hc).2 hop).answer]
  rfl

/-- What is known of the names of a directory after a change of its array. -/
theorem fact?_change (ht : t.Tidy) (hc : t.children? dir = some c) (op : Children.Op)
    (hop : op.Admissible c.policy) (name : String) :
    (t.setChildren dir (c.apply op).2).fact? dir name = (c.ledger.apply op).2.fact? name := by
  rw [fact?_of_children? (children?_setChildren_self hc _),
    (Children.apply_follows (ht dir c hc).2 hop).ledger]

/-- In a tidy tree an operation that begins with an admissible change of an array goes on with the
answer of the ledger. -/
theorem run_change_bind (ht : t.Tidy) (hc : t.children? dir = some c) {op : Children.Op}
    (hop : op.Admissible c.policy) {β : Type} (f : op.Answer → TreeM β) :
    ((change dir fun c => c.apply op) >>= f).run t =
      (f (c.ledger.apply op).1).run (t.setChildren dir (c.apply op).2) := by
  rw [run_bind, run_change_of_tidy ht hc hop, Run.bind_done_ok]

/-! ### Recording answers -/

/-- Recording that a child is missing answers what is known of the name then. -/
theorem run_recordAnswer_none (ht : t.Tidy) (hc : t.children? dir = some c)
    (name query : String) : (recordAnswer dir name query none none).run t =
      .done (.ok (.ofKnowledge (c.ledger.insertAbsent name).1))
        (t.setChildren dir (c.insertAbsent name).2) := by
  have hop : Children.Op.Admissible c.policy (.insertAbsent name) := trivial
  refine (run_change_bind ht hc hop _).trans ?_
  simp only [Ledger.apply, Children.apply]
  cases (c.ledger.insertAbsent name).1 <;> rfl

/-- Recording a child that was found answers the child, or what is known of its name by then, and
makes a child that it answers stand for its identity. -/
theorem run_recordAnswer_found (ht : t.Tidy) (hc : t.children? dir = some c) (name query : String)
    (id : FileId) (attributes : Attributes) :
    (recordAnswer dir name query (some id) (some attributes)).run t =
      let made := t.make dir id query attributes
      let answer := Lookup.ofKnowledge (c.ledger.insertIfUnknown made.1).1
      .done (.ok answer)
        (answer.node?.toList.foldl register (made.2.setChildren dir (c.insertIfUnknown made.1).2)) := by
  let made := t.make dir id query attributes
  have hmade : made.2.children? dir = some c :=
    children?_make_of_children? hc dir id query attributes
  have hop : Children.Op.Admissible c.policy (.insertIfUnknown made.1) := trivial
  have hrun : (recordAnswer dir name query (some id) (some attributes)).run t = _ :=
    run_change_bind (ht.make dir id query attributes) hmade hop _
  rw [hrun]
  simp only [Ledger.apply, Children.apply]
  cases (c.ledger.insertIfUnknown made.1).1 <;> rfl

/-- Apart from the array of the directory and the registry, this makes the child, and no more. -/
theorem run_recordAnswer_some (ht : t.Tidy) (hc : t.children? dir = some c) (name query : String)
    (id : FileId) (attributes : Attributes) :
    ∃ registry : Registry,
      (recordAnswer dir name query (some id) (some attributes)).run t =
        let made := t.make dir id query attributes
        .done (.ok (.ofKnowledge (c.ledger.insertIfUnknown made.1).1))
          { made.2.setChildren dir (c.insertIfUnknown made.1).2 with registry := registry } := by
  rw [run_recordAnswer_found ht hc]
  dsimp only
  rw [foldl_register_eq]
  exact ⟨_, rfl⟩

/-- After it was recorded that a child is missing, the answer is that, and no child is known to have
the name, exactly if none was known to have it before. -/
theorem recordAnswer_none_iff (ht : t.Tidy) (hc : t.children? dir = some c) {name query : String}
    (hname : name.isEmpty = false) {exchanges : List Exchange} {result : Except TreeError Lookup}
    {last : Tree}
    (htook : ((recordAnswer dir name query none none).run t).Took exchanges result last) :
    (result = .ok .absent ∧ last.Free dir name) ↔ t.Free dir name := by
  rw [run_recordAnswer_none ht hc, Run.took_done_iff] at htook
  obtain ⟨-, rfl, rfl⟩ := htook
  have hlast : (t.setChildren dir (c.insertAbsent name).2).fact? dir name =
      (c.ledger.insertAbsent name).2.fact? name :=
    fact?_change ht hc (.insertAbsent name) trivial name
  have hnow := fact?_of_children? hc name
  unfold Free
  rw [hlast, hnow, Ledger.insertAbsent, hname]
  cases hfact : c.ledger.fact? name with
  | none =>
    cases hcomplete : c.ledger.complete with
    | true => simp [hfact, Lookup.ofKnowledge]
    | false => simp [Ledger.fact?_record, Lookup.ofKnowledge]
  | some fact =>
    cases fact with
    | present kept => simp [hfact, Lookup.ofKnowledge]
    | absent => simp [hfact, Lookup.ofKnowledge]

/-- After a child that was found was recorded, the answer is that it is missing, and no child is
known to have a name, exactly if none was known to have it before and the child's own name was known
to be free. -/
theorem recordAnswer_some_iff (ht : t.Tidy) (hc : t.children? dir = some c) {name query : String}
    {id : FileId} {attributes : Attributes} {exchanges : List Exchange}
    {result : Except TreeError Lookup} {last : Tree}
    (htook : ((recordAnswer dir name query (some id) (some attributes)).run t).Took exchanges
      result last) :
    (result = .ok .absent ∧ last.Free dir name) ↔
      t.Free dir name ∧ t.fact? dir query = some .absent := by
  obtain ⟨registry, hrun⟩ := run_recordAnswer_some ht hc name query id attributes
  rw [hrun, Run.took_done_iff] at htook
  obtain ⟨-, rfl, rfl⟩ := htook
  have hmade := children?_make_of_children? hc dir id query attributes
  generalize hnode : (t.make dir id query attributes).1 = node
  have hquery : node.name = query := by
    rw [← hnode]
    rfl
  have hlast : ∀ n, ({ (t.make dir id query attributes).2.setChildren dir
      (c.insertIfUnknown node).2 with registry := registry } : Tree).fact? dir name ≠
      some (.present n) ↔ (c.ledger.insertIfUnknown node).2.fact? name ≠ some (.present n) := by
    intro n
    have hfact := fact?_change (ht.make dir id query attributes) hmade (.insertIfUnknown node)
      trivial name
    exact iff_of_eq (congrArg (fun fact => fact ≠ some (Fact.present n)) hfact)
  simp only [Free, hlast, fact?_of_children? hc, Ledger.insertIfUnknown, hquery]
  cases hfact : c.ledger.fact? query with
  | none => simp [Lookup.ofKnowledge]
  | some fact =>
    cases fact with
    | present kept => simp [Lookup.ofKnowledge]
    | absent => simp [Lookup.ofKnowledge]

/-! ### Removing children -/

/-- The children of a directory are known to be all there are. -/
def Complete (t : Tree) (dir : Node) : Prop :=
  ∃ c, t.children? dir = some c ∧ c.allLoaded = true

/-- The children are known to be all there are if the array says so. -/
theorem complete_iff (hc : t.children? dir = some c) : t.Complete dir ↔ c.allLoaded = true := by
  simp [Complete, hc]

/-- Dropping the entries of subtrees asks nothing, and changes the registry alone. -/
theorem run_unregisterSubtrees (nodes : List Node) (t : Tree) :
    ∃ result registry,
      (unregisterSubtrees nodes).run t = .done result { t with registry := registry } := by
  induction nodes generalizing t with
  | nil => exact ⟨_, t.registry, rfl⟩
  | cons n nodes ih =>
    rw [unregisterSubtrees, run_bind, run_get, Run.bind_done_ok]
    cases t.subtree? n with
    | none => exact ⟨_, t.registry, rfl⟩
    | some serials =>
      obtain ⟨result, registry, hrun⟩ := ih (t.unregisterAll serials)
      rw [unregisterAll_eq] at hrun
      refine ⟨result, registry, ?_⟩
      rw [run_bind, run_require_some, Run.bind_done_ok, run_bind, run_modify, Run.bind_done_ok,
        unregisterAll_eq]
      exact hrun

/-- Removing a child asks nothing, and changes one array and the registry. -/
theorem run_removeChild (ht : t.Tidy) (hc : t.children? dir = some c) (child : Node) :
    ∃ result registry, (removeChild dir child).run t = .done result
      { t.setChildren dir (c.remove child t.config.cacheRemovedNames).2 with
        registry := registry } := by
  have hop : Children.Op.Admissible c.policy (.remove child t.config.cacheRemovedNames) := trivial
  have hrun : (removeChild dir child).run t = _ := run_change_bind ht hc hop _
  rw [hrun]
  dsimp only
  split
  · obtain ⟨result, registry, hdropped⟩ := run_unregisterSubtrees [child]
      (t.setChildren dir (c.remove child t.config.cacheRemovedNames).2)
    cases result with
    | ok a => exact ⟨_, registry, congrArg (Run.bind · _) hdropped⟩
    | error e => exact ⟨_, registry, congrArg (Run.bind · _) hdropped⟩
  · exact ⟨_, t.registry, rfl⟩

/-- Forgetting the children of a directory asks nothing. -/
theorem run_clearChildren (dir : Node) (t : Tree) :
    ∃ result t', (clearChildren dir).run t = .done result t' := by
  cases hc : t.children? dir with
  | none => exact ⟨.error (.notADirectory dir.id), t, by simp [clearChildren, childrenOf, hc]⟩
  | some c =>
    have hinner (t : Tree) : ∃ result t', (change dir Children.clear >>= fun _ =>
        unregisterSubtrees c.present).run t = .done result t' := by
      rw [run_bind, run_change]
      cases t.children? dir with
      | none => exact ⟨_, _, rfl⟩
      | some now =>
        dsimp only
        cases now.clear.1 with
        | error broken => exact ⟨_, _, rfl⟩
        | ok _ =>
          obtain ⟨result, registry, hrun⟩ :=
            run_unregisterSubtrees c.present (t.setChildren dir now.clear.2)
          exact ⟨result, _, hrun⟩
    obtain ⟨result, t', hrun⟩ := hinner (t.hold c.present)
    refine ⟨result, t'.release c.present, (run_childrenOf_bind hc _).trans ?_⟩
    rw [run_holding, hrun]
    rfl

/-- Forgetting the children of a directory asks nothing, and changes one array and the registry. -/
theorem run_clearChildren_of_tidy (ht : t.Tidy) (hc : t.children? dir = some c) :
    ∃ result registry, (clearChildren dir).run t = .done result
      (({ (t.hold c.present).setChildren dir (c.apply .clear).2 with
        registry := registry } : Tree).release c.present) := by
  have hop : Children.Op.Admissible c.policy .clear := trivial
  have hheld : (t.hold c.present).children? dir = some c := hc
  have hinner : ((change dir fun c => c.apply .clear) >>= fun _ =>
      unregisterSubtrees c.present).run (t.hold c.present) = _ :=
    run_change_bind (t := t.hold c.present) ht hheld hop _
  obtain ⟨result, registry, hrun⟩ := run_unregisterSubtrees c.present
    ((t.hold c.present).setChildren dir (c.apply .clear).2)
  refine ⟨result, registry, (run_childrenOf_bind hc _).trans ?_⟩
  rw [run_holding]
  exact congrArg (Run.settle (·.release c.present)) (hinner.trans hrun)

/-- What is known of a name after the removal of a child of that name. No child has it exactly if
none of another identity had it before. It is recorded as absent exactly if, moreover, it was
recorded before, or the names of removed children are recorded and the children were not known to
be all there are. -/
theorem removeChild_fact? (ht : t.Tidy) (hdir : (t.children? dir).isSome = true) {child : Node}
    {name : String} (hname : t.policy.key child.name = t.policy.key name)
    {result : Except TreeError Bool} {after : Tree}
    (hrun : (removeChild dir child).run t = .done result after) :
    (after.Free dir name ↔ ∀ n, t.fact? dir name = some (.present n) → n.id = child.id) ∧
      (after.fact? dir name = some .absent ↔
        (∀ n, t.fact? dir name = some (.present n) → n.id = child.id) ∧
          (t.fact? dir name = some .absent ∨
            t.config.cacheRemovedNames = true ∧ ¬ t.Complete dir)) := by
  obtain ⟨c, hc⟩ := Option.isSome_iff_exists.mp hdir
  obtain ⟨result', registry, hremove⟩ := run_removeChild ht hc child
  rw [hrun] at hremove
  injection hremove with hresult hafter
  have hpolicy : c.ledger.policy = t.policy := (ht dir c hc).1
  have hremoved : after.fact? dir name =
      (c.ledger.remove child t.config.cacheRemovedNames).2.fact? child.name := by
    rw [hafter]
    have hchange := fact?_change ht hc (.remove child t.config.cacheRemovedNames) trivial name
    refine Eq.trans hchange (Ledger.fact?_congr _ ?_)
    rw [Ledger.apply_policy, hpolicy, hname]
  rw [Ledger.fact?_remove] at hremoved
  have hbefore : t.fact? dir name = c.ledger.fact? child.name := by
    rw [← fact?_of_children? hc, fact?_congr ht hname]
  have hcomplete : t.Complete dir ↔ c.ledger.complete = true := complete_iff hc
  unfold Free
  rw [hremoved, hbefore, hcomplete]
  cases c.ledger.fact? child.name with
  | none => cases t.config.cacheRemovedNames <;> cases c.ledger.complete <;> simp
  | some fact =>
    cases fact with
    | absent => simp
    | present kept =>
      by_cases hid : kept.id = child.id
      · cases t.config.cacheRemovedNames <;> cases c.ledger.complete <;> simp [hid]
      · simp [hid]

end Tree

end LazyTree
