import LazyTree.Proofs.CoherentListings

set_option autoImplicit false

/-!
# Names under which a check takes two files for one

A check of a name asks the table for attributes under the name itself, and for an identity under the
table's spelling of it, which is looked for with case folded whatever the policy of the tree is.
Where names differ by case, that spelling may be the name of another file. If the first file has
attributes but no identity, and the second an identity but not those attributes, then the name is
divided: what the check adds to the tree is neither file. For all other names a check keeps the
agreement of the tree with the table.

## Main definitions

* `LazyTree.Table.Divided` — a name is divided between two entries.

## Main results

* `LazyTree.Tree.Coherent.refreshAndFindChild` — a check of any other name keeps the agreement.
* `LazyTree.Tree.Coherent.refreshAndFindChild_of_divided` — a check of a divided name breaks it, in
  a directory of which nothing is known.
-/

namespace LazyTree

/-- A name is divided: the entry that has it has attributes but no identity, and the first entry
that has it but for case has an identity, but not those attributes. -/
def Table.Divided (b : Table) (d : FileId) (name : String) : Prop :=
  ∃ es e e' attributes id, b.entries? d = some es ∧ Table.entryAt b.policy es name = some e ∧
    e.id = none ∧ e.attributes = some attributes ∧
    Table.entryAt .insensitive es name = some e' ∧ e'.id = some id ∧
    e'.attributes ≠ some attributes

/-- Only where case distinguishes names can a name be divided. -/
theorem Table.Divided.sensitive {b : Table} {d : FileId} {name : String} (h : b.Divided d name) :
    b.policy = .sensitive := by
  obtain ⟨es, e, e', attributes, id, -, he, hid, -, he', hid', -⟩ := h
  cases hpolicy : b.policy with
  | sensitive => rfl
  | insensitive =>
    rw [hpolicy, he'] at he
    cases he
    rw [hid'] at hid
    cases hid

namespace Tree

open TreeM

variable {t t' : Tree} {b : Table} {dir n : Node} {c : Children} {es : List TableEntry}
  {name : String}

/-! ### Names that are not divided -/

/-- Adding a child that is a file keeps the agreement. -/
theorem Coherent.addFile (h : t.Coherent b) (hdir : t.AttachedDirectory dir) {id : FileId}
    {attributes : Attributes} (hcontent : b.content? dir.id name = some (id, attributes)) :
    ((newChild dir id name attributes >>= addChild dir).run t).Always b.world
      fun _ t' => t'.Coherent b := by
  obtain ⟨c, es, hc, hes, hmirrors, hpolicy⟩ := h.exists_mirrors hdir
  rw [Table.content?_eq hes, ← hpolicy] at hcontent
  have hmade := h.make dir id name attributes
  have hdir' := (h.rooted.attached_make dir id name attributes).mpr hdir.attached
  have hc' := children?_make_of_children? hc dir id name attributes
  have hloose := loose_make h.rooted dir id name attributes
  have hrun := run_addChild hmade.tidy hc' (t.make dir id name attributes).1
  rw [run_bind, run_newChild, Run.bind_done_ok, hrun]
  refine Coherent.frame (hmade.change_of_mirrors hdir' hc' hes (.insert _) trivial
    (fun n other hn => ?_) (hmirrors.insert hcontent)) _ _
  rcases Ledger.present_insert hn with hold | ⟨rfl, -⟩
  · exact .inl hold
  · exact .inr hloose

/-- Asking for a child that came, under a name that no file has and that is not divided, keeps the
agreement. -/
theorem Coherent.materializeCreated (h : t.Coherent b) (hdir : t.AttachedDirectory dir)
    (hmissing : isFileName name = true → b.content? dir.id name = none)
    (hwhole : ¬ b.Divided dir.id name) :
    ((materializeCreated dir name).run t).Always b.world fun _ t' => t'.Coherent b := by
  obtain ⟨c, es, hc, hes, -, -⟩ := h.exists_mirrors hdir
  unfold Tree.materializeCreated
  split
  · exact h
  · next hname =>
    have hmissing := hmissing (by simpa using hname)
    rw [Table.content?_eq hes, Table.contentAt] at hmissing
    refine (always_asked (h.table.answer_attributes hes name)).mpr ?_
    cases he : Table.entryAt b.policy es name with
    | none => exact h
    | some e =>
      rw [he, Option.bind_some] at hmissing
      rw [Option.bind_some]
      cases hattributes : e.attributes with
      | none => exact h
      | some attributes =>
        have hid : e.id = none := by
          cases hid : e.id with
          | none => rfl
          | some id =>
            rw [TableEntry.content?, hid, hattributes] at hmissing
            cases hmissing
        -- the entry has its name also with case folded, so some entry is the first one that does
        obtain ⟨hmem, hkey⟩ := Table.mem_of_entryAt he
        obtain ⟨e', he'⟩ : ∃ e', Table.entryAt .insensitive es name = some e' :=
          Option.isSome_iff_exists.mp (List.find?_isSome.mpr
            ⟨e, hmem, CasePolicy.same_iff.mpr (CasePolicy.insensitive_key_eq hkey)⟩)
        refine (always_asked (h.table.answer_canonical hes name)).mpr ?_
        rw [he', Option.map_some, Option.getD_some, run_bind, run_get, Run.bind_done_ok, ← h.policy]
        refine (always_asked (h.table.answer_resolve hes e'.name b.policy)).mpr ?_
        have hentry : Table.entryAt b.policy es e'.name = some e' :=
          h.table.entryAt_of_mem hes (Table.mem_of_entryAt he').1 rfl
        rw [hentry, Option.bind_some]
        cases hid' : e'.id with
        | none => exact h
        | some id =>
          have hsame : e'.attributes = some attributes := Decidable.not_not.mp fun hne =>
            hwhole ⟨es, e, e', attributes, id, hes, he, hid, hattributes, he', hid', hne⟩
          have hfile : b.content? dir.id e'.name = some (id, attributes) := by
            rw [Table.content?_eq hes, Table.contentAt, hentry, Option.bind_some]
            exact TableEntry.content?_eq_some_iff.mpr ⟨hid', hsame⟩
          have hadded := h.addFile hdir hfile
          dsimp only
          rw [run_bind, run_newChild, Run.bind_done_ok] at hadded ⊢
          rw [run_bind, Run.always_bind_iff]
          refine hadded.mono fun result t' ht' => ?_
          cases result <;> exact ht'

/-- Checking a child that is a file changes nothing. -/
theorem Coherent.recheck (h : t.Coherent b) (hdir : t.AttachedDirectory dir)
    (hcontent : b.content? dir.id n.name = some (n.id, n.attributes)) :
    ((recheck dir n).run t).Always b.world fun _ t' => t'.Coherent b := by
  obtain ⟨c, es, hc, hes, -, -⟩ := h.exists_mirrors hdir
  rw [Table.content?_eq hes] at hcontent
  obtain ⟨e, he, hcontent⟩ := Option.bind_eq_some_iff.mp hcontent
  unfold Tree.recheck
  refine (always_asked (h.table.answer_attributes hes n.name)).mpr ?_
  rw [he, Option.bind_some, (TableEntry.content?_eq_some_iff.mp hcontent).2]
  dsimp only
  rw [if_pos (show n.attributes.directory = n.isDirectory from rfl)]
  exact h

/-- Looking a name up and checking the answer keeps the agreement if the name is not divided. -/
theorem Coherent.refreshAndFindChild (h : t.Coherent b) (hdir : t.AttachedDirectory dir)
    (hwhole : ¬ b.Divided dir.id name) :
    ((refreshAndFindChild dir name).run t).Always b.world fun _ t' => t'.Coherent b := by
  unfold Tree.refreshAndFindChild
  rw [run_bind, Run.always_bind_iff]
  cases hname : isFileName name with
  | false =>
    rw [h.run_findChild_of_not_isFileName hdir hname]
    exact h.materializeCreated hdir (fun htrue => by rw [hname] at htrue; cases htrue)
      hwhole
  | true =>
    refine (h.findChild hdir hname true).mono fun result t' hfound => ?_
    have hdir' : t'.AttachedDirectory dir :=
      ⟨hfound.attached dir hdir.attached, hdir.isDirectory⟩
    obtain ⟨answer, rfl, htells, -⟩ := hfound.answer
    cases answer with
    | absent => exact hfound.coherent.materializeCreated hdir' (fun _ => htells) hwhole
    | present n =>
      obtain ⟨hcontent, hkey⟩ := htells
      have hheld : (t'.hold [n]).Coherent b := hfound.coherent.frame _ _
      have hcontent' : b.content? dir.id n.name = some (n.id, n.attributes) := by
        obtain ⟨c, es, -, hes, -, -⟩ := hfound.coherent.exists_mirrors hdir'
        rwa [Table.content?_eq hes, Ledger.contentAt_congr hkey, ← Table.content?_eq hes]
      show ((TreeM.holding [n] (Tree.recheck dir n)).run t').Always b.world _
      rw [run_holding, Run.always_settle_iff]
      exact (hheld.recheck (hdir'.frame _ _) hcontent').mono
        fun _ t'' ht'' => ht''.frame t''.registry _

/-! ### Names that are divided -/

/-- A child that an array knows is found without a question. -/
theorem run_findChild_of_fact? (ht : t.Tidy) (hc : t.children? dir = some c)
    (hname : isFileName name = true) (hfact : c.ledger.fact? name = some (.present n))
    (canonicalize : Bool) :
    (findChild dir name canonicalize).run t = .done (.ok (.present n)) t := by
  rw [run_findChild, hc]
  simp only [hname, if_true, Children.find_of_isFileName (ht dir c hc).2 hname, Ledger.answer,
    hfact]

/-- Where case distinguishes names, an entry has exactly the name under which it is found. -/
theorem isFileName_of_divided (hb : b.Orderly t.root.id) (h : b.Divided dir.id name) :
    isFileName name = true := by
  have hpolicy := h.sensitive
  obtain ⟨es, e, -, -, -, hes, he, -⟩ := h
  obtain ⟨hmem, hkey⟩ := Table.mem_of_entryAt he
  rw [hpolicy] at hkey
  obtain rfl : e.name = name := String.toList_inj.mp hkey
  exact hb.isFileName dir.id es hes e hmem

/-- What is wrong after a divided name was checked: a child is found for which the table holds
something else. -/
def Wrong (b : Table) (t : Tree) (dir : Node) : Prop :=
  t.Attached dir ∧ ∃ n, isFileName n.name = true ∧
    (lookup dir n.name).run t = .done (.ok (.present n)) t ∧
    ¬ (Lookup.present n).Tells b dir.id n.name

/-- Asking for a child that came, under a divided name, adds a child of the name of the other entry.
Unless a child of that name is known, the new one stays, and has not the attributes of that entry.
-/
theorem Coherent.materializeCreated_of_divided (h : t.Coherent b) (hdir : t.Attached dir)
    (hc : t.children? dir = some c) (hdivided : b.Divided dir.id name)
    (hfree : ∀ other n, c.ledger.fact? other ≠ some (.present n)) :
    ((Tree.materializeCreated dir name).run t).Always b.world fun _ t' => Wrong b t' dir := by
  have hname := isFileName_of_divided h.table hdivided
  obtain ⟨es, e, e', attributes, id, hes, he, -, hattributes, he', hid', hne⟩ := hdivided
  have hmem' := (Table.mem_of_entryAt he').1
  have hentry : Table.entryAt b.policy es e'.name = some e' :=
    h.table.entryAt_of_mem hes hmem' rfl
  unfold Tree.materializeCreated
  rw [hname]
  refine (always_asked (h.table.answer_attributes hes name)).mpr ?_
  rw [he, Option.bind_some, hattributes]
  refine (always_asked (h.table.answer_canonical hes name)).mpr ?_
  rw [he', Option.map_some, Option.getD_some, run_bind, run_get, Run.bind_done_ok, ← h.policy]
  refine (always_asked (h.table.answer_resolve hes e'.name b.policy)).mpr ?_
  rw [hentry, Option.bind_some, hid']
  have hmade := h.make dir id e'.name attributes
  have hdir' := (h.rooted.attached_make dir id e'.name attributes).mpr hdir
  have hc' := children?_make_of_children? hc dir id e'.name attributes
  have hnode : (t.make dir id e'.name attributes).1.name = e'.name ∧
      (t.make dir id e'.name attributes).1.attributes = attributes := ⟨rfl, rfl⟩
  dsimp only
  rw [run_bind, run_newChild, Run.bind_done_ok]
  generalize t.make dir id e'.name attributes = made at *
  obtain ⟨node, t₁⟩ := made
  obtain ⟨hnodeName, hnodeAttributes⟩ := hnode
  dsimp only at *
  have hrun := run_addChild hmade.tidy hc' node
  rw [run_bind, hrun]
  have hop : Children.Op.Admissible c.policy (.insert node) := trivial
  have hfollows := Children.apply_follows (h.array hc).2 hop
  have hfact : (c.apply (.insert node)).2.ledger.fact? node.name = some (.present node) := by
    rw [hfollows.ledger, Ledger.apply, Ledger.insert]
    split
    · next kept hkept => exact absurd hkept (hfree _ kept)
    · rw [Ledger.fact?_record, if_pos rfl]
  refine ⟨(Attached.change_self hmade.owns hdir' _).frame _ _, node, ?_, ?_, ?_⟩
  · rw [hnodeName]
    exact h.table.isFileName dir.id es hes e' hmem'
  · have hchanged := (stable_tidy t₁).update _ _ (.change t₁ dir c (.insert node) hc' trivial)
      ⟨hmade.tidy, rfl, rfl, fun _ h => h⟩
    have htidy := (stable_tidy t₁).update _ _
      (.registry _ ((t₁.setChildren dir (c.insert node).2).register
        (c.ledger.insert node).1).registry) hchanged
    exact run_findChild_of_fact? htidy.1 (children?_setChildren_self hc' _)
      (hnodeName ▸ h.table.isFileName dir.id es hes e' hmem') hfact _
  · rintro ⟨hcontent, -⟩
    rw [hnodeName, Table.content?_eq hes, Table.contentAt, hentry, Option.bind_some,
      TableEntry.content?_eq_some_iff, hnodeAttributes] at hcontent
    exact hne hcontent.2

/-- Checking a divided name of a directory of which nothing is known goes wrong.

**Proof sketch.** The name is first found to be missing, as its entry has no identity, and recorded
as absent. So no child is known when the other entry is added under the attributes of the first. -/
theorem Coherent.refreshAndFindChild_of_divided (h : t.Coherent b)
    (hdir : t.AttachedDirectory dir) (hc : t.children? dir = some c)
    (hunknown : ∀ other, c.ledger.answer other = .unknown) (hdivided : b.Divided dir.id name) :
    ((Tree.refreshAndFindChild dir name).run t).Always b.world fun _ t' => Wrong b t' dir := by
  have hname := isFileName_of_divided h.table hdivided
  have hpolicy := hdivided.sensitive
  obtain ⟨es, e, -, -, -, hes, he, hid, -⟩ := id hdivided
  have hmissing : b.content? dir.id name = none := by
    rw [Table.content?_eq hes, Table.contentAt, he, Option.bind_some, TableEntry.content?, hid,
      Option.bind_none]
  have hfree : ∀ other, c.ledger.fact? other = none :=
    fun other => Ledger.fact?_of_answer_unknown (hunknown other)
  have hasked : (Tree.findChild dir name true).run t =
      (Tree.askFor dir name name b.policy).run t := by
    rw [run_findChild, hc, ← h.policy, hpolicy]
    simp only [hname, if_true, Children.find_of_isFileName (h.array hc).2 hname, hunknown]
    rfl
  have hrecorded := h.recordMissing hdir name hmissing
  have hanswer : (c.ledger.insertAbsent name).1 = .absent := by
    rw [Ledger.insertAbsent, hfree]
    split <;> rfl
  rw [run_recordAnswer_none h.tidy hc] at hrecorded
  unfold Tree.refreshAndFindChild
  rw [run_bind, hasked, Run.always_bind_iff]
  refine (always_asked (h.table.answer_resolve hes name b.policy)).mpr ?_
  rw [he, Option.bind_some, hid]
  dsimp only
  rw [run_recordAnswer_none h.tidy hc, hanswer]
  have hc' : (t.setChildren dir (c.insertAbsent name).2).children? dir = _ :=
    children?_setChildren_self hc _
  have hop : Children.Op.Admissible c.policy (.insertAbsent name) := trivial
  have hledger : (c.insertAbsent name).2.ledger = (c.ledger.insertAbsent name).2 :=
    (Children.apply_follows (h.array hc).2 hop).ledger
  have hdir' := hrecorded.attached dir hdir.attached
  refine hrecorded.coherent.materializeCreated_of_divided hdir' hc'
    hdivided fun other n hn => ?_
  rw [hledger, Ledger.present_insertAbsent, hfree] at hn
  cases hn

end Tree

end LazyTree
