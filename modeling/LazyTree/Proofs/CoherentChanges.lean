import LazyTree.Proofs.Attachment
import LazyTree.Proofs.LedgerChanges
import LazyTree.Proofs.Recording

set_option autoImplicit false

/-!
# Changes that keep the agreement with a table

A change of the array of an attached directory keeps the agreement of the tree with a table if the
ledger after the change agrees with the entries, and takes no child for present that is neither an
old one nor new. Where the change only adds children, whatever was attached stays so; and the
directory itself stays attached whatever happens to its own array.

## Main results

* `LazyTree.Tree.Coherent.change` — when a change of an array keeps the agreement.
* `LazyTree.Tree.Attached.change_of_keep`, `LazyTree.Tree.Attached.change_self` — what stays
  attached.
* `LazyTree.Tree.Coherent.reportNew` — a new file is reported.
* `LazyTree.Tree.Coherent.reportGone`, `LazyTree.Tree.Coherent.unreported` — a file is gone.
-/

namespace LazyTree.Tree

open TreeM

variable {t : Tree} {b b' : Table} {dir n : Node} {c : Children} {es es' : List TableEntry}

/-- A change of the array of an attached directory keeps the agreement with a table of which the
other directories stay as they are, if what is known afterwards agrees with the entries of the
directory, and each child that is known was so before or is new. -/
theorem Coherent.change (h : t.Coherent b) (hdir : t.Attached dir) (hc : t.children? dir = some c)
    (op : Children.Op) (hop : op.Admissible c.policy)
    (hnew : ∀ n name, (c.ledger.apply op).2.fact? name = some (.present n) →
      c.ledger.fact? name = some (.present n) ∨ t.Loose n)
    (htable : b'.Orderly t.root.id) (hpolicy : b'.policy = b.policy)
    (hothers : ∀ d es, d ≠ dir.id → b.entries? d = some es → b'.entries? d = some es)
    (hes' : b'.entries? dir.id = some es') (hmirrors : (c.ledger.apply op).2.Mirrors es') :
    (t.setChildren dir (c.apply op).2).Coherent b' := by
  obtain ⟨hcpolicy, hctidy⟩ := h.array hc
  have hfollows := Children.apply_follows hctidy hop
  refine h.setChildren hdir hc hfollows.tidy
    ((Children.apply_policy hctidy hop).trans hcpolicy) (fun n hn => ?_) htable hpolicy hothers
    hes' (hfollows.ledger ▸ hmirrors)
  have hfact := (mem_present_iff hfollows.tidy).mp hn
  rw [hfollows.ledger] at hfact
  exact (hnew n n.name hfact).imp_left fun hold => (mem_present_of_fact? hctidy hold).1

/-- While the table stays the same, agreement is kept by a change after which the ledger agrees. -/
theorem Coherent.change_of_mirrors (h : t.Coherent b) (hdir : t.Attached dir)
    (hc : t.children? dir = some c) (hes : b.entries? dir.id = some es) (op : Children.Op)
    (hop : op.Admissible c.policy)
    (hnew : ∀ n name, (c.ledger.apply op).2.fact? name = some (.present n) →
      c.ledger.fact? name = some (.present n) ∨ t.Loose n)
    (hmirrors : (c.ledger.apply op).2.Mirrors es) :
    (t.setChildren dir (c.apply op).2).Coherent b :=
  h.change hdir hc op hop hnew h.table rfl (fun _ _ _ hes => hes) hes hmirrors

/-- What is attached stays so while no array of an attached directory loses a child. -/
theorem Attached.mono_of_subset {t' : Tree} (h : t.Attached n) (hroot : t'.root = t.root)
    (hchildren : ∀ d c, t.Attached d → t.children? d = some c →
      ∃ c', t'.children? d = some c' ∧ ∀ n ∈ c.present, n ∈ c'.present) : t'.Attached n := by
  induction h with
  | root => exact hroot ▸ .root
  | child hdir hc hn ih =>
    obtain ⟨c', hc', hsubset⟩ := hchildren _ _ hdir hc
    exact .child ih hc' (hsubset _ hn)

/-- What is attached stays so when a change keeps all children of an array. -/
theorem Attached.change_of_keep (h : t.Rooted) (hdir : t.Attached dir)
    (hc : t.children? dir = some c) {op : Children.Op} (hop : op.Admissible c.policy)
    (hkeep : ∀ n name, c.ledger.fact? name = some (.present n) →
      (c.ledger.apply op).2.fact? name = some (.present n)) (hn : t.Attached n) :
    (t.setChildren dir (c.apply op).2).Attached n := by
  have hfollows := Children.apply_follows (h.tidy dir c hc).2 hop
  refine hn.mono_of_subset rfl fun d cd hd hcd => ?_
  rw [children?_setChildren]
  by_cases hserial : dir.serial = d.serial
  · obtain rfl := (h.owns dir hdir).eq_of_serial (h.owns d hd) hserial
    obtain rfl : c = cd := Option.some.inj (hc.symm.trans hcd)
    rw [if_pos rfl, hc]
    refine ⟨_, rfl, fun m hm => ?_⟩
    rw [mem_present_iff hfollows.tidy, hfollows.ledger]
    exact hkeep m m.name ((mem_present_iff (h.tidy dir c hc).2).mp hm)
  · rw [if_neg hserial]
    exact ⟨cd, hcd, fun _ hm => hm⟩

/-- A node is attached by a way that does not pass through the array of an object. -/
inductive AttachedApart (t : Tree) (serial : Nat) : Node → Prop where
  /-- The root is. -/
  | root : AttachedApart t serial t.root
  /-- A child of another object that is so attached is. -/
  | child {dir n : Node} {c : Children} (attached : AttachedApart t serial dir)
    (other : dir.serial ≠ serial) (known : t.children? dir = some c) (present : n ∈ c.present) :
    AttachedApart t serial n

/-- An attached directory stays attached when its own array changes: a way to it that passes through
that array has reached it before. -/
theorem Attached.change_self (howns : ∀ n, t.Attached n → t.Owns n) (hdir : t.Attached dir)
    (c' : Children) : (t.setChildren dir c').Attached dir := by
  have hapart : ∀ n, t.Attached n →
      AttachedApart t dir.serial n ∨ AttachedApart t dir.serial dir := by
    intro n hn
    induction hn with
    | root => exact .inl .root
    | @child d n c hd hc hn ih =>
      refine ih.elim (fun hd' => ?_) .inr
      by_cases hserial : d.serial = dir.serial
      · obtain rfl := (howns d hd).eq_of_serial (howns dir hdir) hserial
        exact .inr hd'
      · exact .inl (.child hd' hserial hc hn)
  have hstays : ∀ n, AttachedApart t dir.serial n → (t.setChildren dir c').Attached n := by
    intro n hn
    induction hn with
    | root => exact .root
    | child _ hserial hc hn ih =>
      refine .child ih ?_ hn
      rw [children?_setChildren, if_neg (Ne.symm hserial), hc]
  exact hstays dir ((hapart dir hdir).elim id id)

/-! ### Reporting what has changed -/

/-- An attached directory has an array, and the table lists it under the policy of the array. -/
theorem Coherent.exists_mirrors (h : t.Coherent b) (hdir : t.AttachedDirectory dir) :
    ∃ c es, t.children? dir = some c ∧ b.entries? dir.id = some es ∧ c.ledger.Mirrors es ∧
      c.ledger.policy = b.policy := by
  obtain ⟨c, hc⟩ := h.rooted.exists_children hdir
  obtain ⟨es, hes, hmirrors⟩ := h.mirrors dir c hdir.attached hc
  exact ⟨c, es, hc, hes, hmirrors, (h.array hc).1.trans h.policy.symm⟩

/-- Adding a child asks nothing, changes one array, and makes the child that it answers stand for its
identity. -/
theorem run_addChild (ht : t.Tidy) (hc : t.children? dir = some c) (child : Node) :
    (addChild dir child).run t = .done (.ok (c.ledger.insert child).1)
      ((t.setChildren dir (c.insert child).2).register (c.ledger.insert child).1) := by
  have hop : Children.Op.Admissible c.policy (.insert child) := trivial
  have hrun : (addChild dir child).run t = _ := run_change_bind ht hc hop _
  exact hrun

/-- A tree to which a new file is reported agrees with the table that has it. -/
theorem Coherent.reportNew (h : t.Coherent b) (hdir : t.AttachedDirectory dir) {name : String}
    {id : FileId} (hadmits : b.Admits t.root.id dir.id name id) (attributes : Attributes) :
    ∃ result t', (newChild dir id name attributes >>= addChild dir).run t = .done result t' ∧
      t'.Coherent (b.add dir.id ⟨name, some id, some attributes⟩) := by
  obtain ⟨c, es, hc, hes, hmirrors, hpolicy⟩ := h.exists_mirrors hdir
  have hmade := h.make dir id name attributes
  have hdir' := (h.rooted.attached_make dir id name attributes).mpr hdir.attached
  have hc' := children?_make_of_children? hc dir id name attributes
  have hloose := loose_make h.rooted dir id name attributes
  have hrun := run_addChild hmade.tidy hc' (t.make dir id name attributes).1
  have hes' : (b.add dir.id ⟨name, some id, some attributes⟩).entries? dir.id =
      some (es ++ [⟨name, some id, some attributes⟩]) := by
    rw [Table.entries?_add _ _ _ hes, if_pos rfl, Option.some_or]
  refine ⟨_, _, by rw [run_bind, run_newChild, Run.bind_done_ok, hrun], ?_⟩
  refine Coherent.frame (hmade.change hdir' hc' (.insert _) trivial (fun n other hn => ?_)
    (h.table.add hes hadmits attributes) (Table.add_frame _ _ _).1 (fun d es' hd hes' => ?_)
    hes' ?_) _ _
  · rcases Ledger.present_insert hn with hold | ⟨rfl, -⟩
    · exact .inl hold
    · exact .inr hloose
  · rw [Table.entries?_add _ _ _ hes, if_neg hd, hes', Option.some_or]
  · exact hmirrors.append (fun e he => by rw [hpolicy]; exact hadmits.free es hes e he) rfl rfl

/-- A tree to which it is reported that a file is gone agrees with the table that has it no more. -/
theorem Coherent.reportGone (h : t.Coherent b) (hdir : t.Attached dir)
    (hc : t.children? dir = some c) {es : List TableEntry} (hes : b.entries? dir.id = some es)
    {e : TableEntry} (he : e ∈ es) (hfact : c.ledger.fact? e.name = some (.present n)) :
    ∃ result t', (removeChild dir n).run t = .done result t' ∧
      t'.Coherent (b.remove dir.id e.name) := by
  obtain ⟨result, registry, hrun⟩ := run_removeChild h.tidy hc n
  obtain ⟨es', hes', hmirrors⟩ := h.mirrors dir c hdir hc
  obtain rfl : es = es' := Option.some.inj (hes.symm.trans hes')
  have hpolicy : c.ledger.policy = b.policy := (h.array hc).1.trans h.policy.symm
  have hleft : (b.remove dir.id e.name).entries? dir.id = some (es.filter (·.name ≠ e.name)) := by
    rw [Table.entries?_remove, if_pos rfl, hes]
    rfl
  refine ⟨result, _, hrun, Coherent.frame (h.change hdir hc (.remove n _) trivial
    (fun m name hm => .inl (Ledger.present_remove hm)) (h.table.remove dir.id e.name) rfl
    (fun d es' hd hes' => ?_) hleft ?_) registry _⟩
  · rw [Table.entries?_remove, if_neg hd, hes']
  · refine hmirrors.filter_remove ?_ he hfact (mem_present_of_fact? (h.array hc).2 hfact).2 _
    rw [hpolicy]
    exact h.table.distinct dir.id es hes

/-- A tree that knows of no child for a file agrees also with the table that has the file no more.
-/
theorem Coherent.unreported (h : t.Coherent b) {d : FileId} {es : List TableEntry}
    (hes : b.entries? d = some es) {e : TableEntry} (he : e ∈ es)
    (hfact : ∀ dir c n, t.Attached dir → t.children? dir = some c → dir.id = d →
      c.ledger.fact? e.name ≠ some (.present n)) : t.Coherent (b.remove d e.name) where
  tidy := h.tidy
  policy := h.policy
  table := h.table.remove d e.name
  owns := h.owns
  arrays := h.arrays
  mirrors := by
    intro dir c hdir hc
    obtain ⟨es', hes', hmirrors⟩ := h.mirrors dir c hdir hc
    rw [Table.entries?_remove]
    by_cases hd : dir.id = d
    · obtain rfl : es' = es := Option.some.inj (hes'.symm.trans (hd ▸ hes))
      have hpolicy : c.ledger.policy = b.policy := (h.array hc).1.trans h.policy.symm
      rw [if_pos hd, hes]
      refine ⟨_, rfl, hmirrors.filter ?_ he fun n => hfact dir c n hdir hc hd⟩
      rw [hpolicy]
      exact h.table.distinct d es' hes
    · rw [if_neg hd]
      exact ⟨es', hes', hmirrors⟩

end LazyTree.Tree
