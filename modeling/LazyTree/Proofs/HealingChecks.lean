import LazyTree.Proofs.FailedChecks
import LazyTree.Proofs.FoldedNames
import LazyTree.Proofs.GradedTrees

set_option autoImplicit false

/-!
# Checks heal what is stale

What a directory is known to hold may have become wrong in any way: a child may be cached that is
gone, or is a directory by now; a name may be recorded as absent that a file has; and the listing
may be complete all the same. As long as the answers of the backend about the directory agree with
each other, a check of a name sets right whether a file has it and of what kind that file is, and
touches nothing else that is known.

## Main definitions

* `LazyTree.Answers.Agree` — the answers about the names of a directory agree with each other.
* `LazyTree.Tree.Spares` — all other names are answered as before.
* `LazyTree.Tree.Right` — what is known of a name is right.
* `LazyTree.Tree.Healed` — what holds after a check.

## Main results

* `LazyTree.Ledger.answer_apply_of_ne` — a change about one name touches no other.
* `LazyTree.Tree.healed_materializeCreated` — a name that no child has is set right.
* `LazyTree.Tree.healed_recheck` — so is a name that a cached child has.
* `LazyTree.Tree.refreshAndFindChild_heals` — a check sets the name right.
-/

namespace LazyTree

/-- The answers about the names of a directory agree with each other: they are read off some
entries, no two of which have the same name, and which have attributes exactly if they have an
identity. -/
structure Answers.Agree (answers : Answers) (policy : CasePolicy) (d : FileId)
    (es : List TableEntry) : Prop where
  /-- No two entries have the same name. -/
  distinct : es.Pairwise fun e e' => policy.key e.name ≠ policy.key e'.name
  /-- An entry has attributes exactly if it has an identity. -/
  whole : ∀ e ∈ es, e.attributes.isSome = e.id.isSome
  /-- The identity of a name is that of its entry. -/
  resolve : ∀ name, answers (.resolve d name policy) =
    .ok ((Table.entryAt policy es name).bind TableEntry.id)
  /-- So are its attributes. -/
  attributes : ∀ name, answers (.attributes d name) =
    .ok ((Table.entryAt policy es name).bind TableEntry.attributes)
  /-- The spelling of a name is that of its entry, or the name itself. -/
  canonical : ∀ name, answers (.canonical d name) =
    .ok (((Table.entryAt policy es name).map TableEntry.name).getD name)

/-! ### Changes about one name -/

namespace Ledger

variable {l : Ledger} {name other : String}

/-- What is recorded of a name changes no answer for another one. -/
theorem answer_record_of_ne (h : l.policy.key other ≠ l.policy.key name) (fact : Option Fact) :
    (l.record name fact).answer other = l.answer other := by
  rw [answer, answer, fact?_record, if_neg h]
  rfl

/-- A change that is about one name changes no answer for another one. -/
theorem answer_apply_of_ne {op : Children.Op} (hop : op.subject? = some name)
    (h : l.policy.key other ≠ l.policy.key name) :
    (l.apply op).2.answer other = l.answer other := by
  have hrecord := fun fact => l.answer_record_of_ne h fact
  cases op with
  | insert child =>
    cases hop
    rw [apply, insert]
    split
    · rfl
    · exact hrecord _
  | insertIfUnknown child =>
    cases hop
    rw [apply, insertIfUnknown]
    split
    · rfl
    · rfl
    · exact hrecord _
  | insertAbsent absent =>
    cases hop
    rw [apply, insertAbsent]
    split
    · rfl
    · split
      · rfl
      · rfl
      · dsimp only
        split
        · rfl
        · exact hrecord _
  | remove child remember =>
    cases hop
    rw [apply, remove]
    split
    · split
      · exact hrecord _
      · rfl
    · rfl
    · dsimp only
      generalize (if remember && !l.complete then some Fact.absent else none) = fact
      split
      · exact hrecord _
      · rfl
  | _ => cases hop

end Ledger

namespace Tree

open TreeM

variable {t t' t'' : Tree} {dir n : Node} {c : Children} {name other : String}
  {policy : CasePolicy} {es : List TableEntry} {answers : Answers}

/-- All names but one of a directory are answered as before. -/
structure Spares (dir : Node) (name : String) (t t' : Tree) : Prop where
  /-- All arrays are tidy. -/
  tidy : t'.Tidy
  /-- The policy is the same. -/
  policy : t'.policy = t.policy
  /-- All arrays are still there, and answer as before. -/
  array : ∀ d c, t.children? d = some c → ∃ c', t'.children? d = some c' ∧
    ∀ other, (d.serial = dir.serial → t.policy.key other ≠ t.policy.key name) →
      c'.ledger.answer other = c.ledger.answer other

/-- Where nothing was done, all names are answered as before. -/
theorem Spares.refl (ht : t.Tidy) (dir : Node) (name : String) : Spares dir name t t :=
  ⟨ht, rfl, fun _ c hc => ⟨c, hc, fun _ _ => rfl⟩⟩

/-- One thing may be done after another. -/
theorem Spares.trans (h : Spares dir name t t') (h' : Spares dir name t' t'') :
    Spares dir name t t'' := by
  refine ⟨h'.tidy, h'.policy.trans h.policy, fun d c hc => ?_⟩
  obtain ⟨c', hc', hanswer⟩ := h.array d c hc
  obtain ⟨c'', hc'', hanswer'⟩ := h'.array d c' hc'
  refine ⟨c'', hc'', fun other hother => (hanswer' other ?_).trans (hanswer other hother)⟩
  rwa [h.policy]

/-- Neither the registry nor the holders of objects matter. -/
theorem Spares.frame (h : Spares dir name t t') (registry : Registry) (held : List Nat) :
    Spares dir name t { t' with registry := registry, held := held } :=
  ⟨h.tidy, h.policy, h.array⟩

/-- Only which name is left out matters, not how it is spelled. -/
theorem Spares.congr (h : Spares dir other t t') (hkey : t.policy.key other = t.policy.key name) :
    Spares dir name t t' :=
  ⟨h.tidy, h.policy, fun d c hc => by rw [← hkey]; exact h.array d c hc⟩

/-- Making an object touches no array. -/
theorem spares_make (ht : t.Tidy) (dir : Node) (name : String) (id : FileId) (child : String)
    (attributes : Attributes) : Spares dir name t (t.make dir id child attributes).2 :=
  ⟨ht.make dir id child attributes, rfl, fun _ c hc =>
    ⟨c, children?_make_of_children? hc dir id child attributes, fun _ _ => rfl⟩⟩

/-- A change that is about the name touches no other. -/
theorem spares_change (ht : t.Tidy) (hc : t.children? dir = some c) (op : Children.Op)
    (hop : op.Admissible c.policy) {subject : String} (hsubject : op.subject? = some subject)
    (hkey : t.policy.key subject = t.policy.key name) :
    Spares dir name t (t.setChildren dir (c.apply op).2) := by
  obtain ⟨hpolicy, hctidy⟩ := ht dir c hc
  refine ⟨((stable_tidy t).update _ _ (.change t dir c op hc (hpolicy ▸ hop)) ⟨ht, .refl t⟩).1, rfl,
    fun d cd hcd => ?_⟩
  by_cases hserial : d.serial = dir.serial
  · obtain rfl : cd = c := Option.some.inj (hcd.symm.trans ((children?_congr hserial).trans hc))
    refine ⟨_, (children?_congr hserial).trans (children?_setChildren_self hc _), fun other h => ?_⟩
    rw [(Children.apply_follows hctidy hop).ledger]
    refine Ledger.answer_apply_of_ne hsubject ?_
    have hcpolicy : cd.ledger.policy = t.policy := hpolicy
    rw [hcpolicy, hkey]
    exact h hserial
  · refine ⟨cd, ?_, fun _ _ => rfl⟩
    rwa [children?_setChildren, if_neg (Ne.symm hserial)]

/-- What the array of a directory answers for a name of a file, it answers still, unless the name is
the one that is left out. -/
theorem Spares.findCached (h : Spares dir name t t') (ht : t.Tidy) {d : Node}
    (hother : d.serial = dir.serial → t.policy.key other ≠ t.policy.key name) {known : Knowledge}
    (hknown : (findCached d other).run t = .done (.ok known) t) :
    (Tree.findCached d other).run t' = .done (.ok known) t' := by
  cases hc : t.children? d with
  | none =>
    have hrun : (Tree.findCached d other).run t = .done (.error (.notADirectory d.id)) t := by
      unfold Tree.findCached childrenOf
      simp only [run_bind, run_get, Run.bind_done_ok, hc, run_require_none, Run.bind_done_error]
    rw [hrun] at hknown
    cases hknown
  | some c =>
    obtain ⟨c', hc', hanswer⟩ := h.array d c hc
    rw [run_findCached hc] at hknown
    injection hknown with hknown
    rw [run_findCached hc', ← hknown]
    split
    · next hname =>
      rw [Children.find_of_isFileName (h.tidy d c' hc').2 hname,
        Children.find_of_isFileName (ht d c hc).2 hname, hanswer other hother]
    · rfl

/-! ### What is known of the name -/

/-- What is known of a name is right: a child that was found for it is cached, and is of the kind
that the entry of the name tells; and if none was found, then no entry tells of a file, and no child
is known to have the name. -/
def Right (policy : CasePolicy) (es : List TableEntry) (dir : Node) (name : String) :
    Option Node → Tree → Prop
  | some n, t => t.fact? dir name = some (.present n) ∧
      ∃ id attributes, Table.contentAt policy es name = some (id, attributes) ∧
        n.isDirectory = attributes.directory
  | none, t => t.Free dir name ∧ Table.contentAt policy es name = none

/-- Only which name it is matters, not how it is spelled. -/
theorem Right.congr {found : Option Node} (h : Right policy es dir other found t) (ht : t.Tidy)
    (hpolicy : t.policy = policy) (hkey : policy.key other = policy.key name) :
    Right policy es dir name found t := by
  have hcontent : Table.contentAt policy es other = Table.contentAt policy es name := by
    rw [Table.contentAt, Table.contentAt, Table.entryAt_congr hkey]
  have hfact : t.fact? dir other = t.fact? dir name := fact?_congr ht (by rwa [hpolicy])
  cases found with
  | some n =>
    rw [Right, hcontent, hfact] at h
    exact h
  | none =>
    rw [Right, Free, hcontent, hfact] at h
    exact h

/-- What holds after a check of a name: all others are answered as before, the check ended with an
answer, and what is known of the name is right. -/
structure Healed (policy : CasePolicy) (es : List TableEntry) (dir : Node) (name : String)
    (t : Tree) (result : Except TreeError (Option Node)) (t' : Tree) : Prop where
  /-- All other names are answered as before. -/
  spares : Spares dir name t t'
  /-- There is an answer, and it is right. -/
  answer : ∃ found, result = .ok found ∧ Right policy es dir name found t'

/-- What is healed was stale before something else was done. -/
theorem Healed.since {result : Except TreeError (Option Node)}
    (h : Healed policy es dir name t' result t'') (hspares : Spares dir name t t') :
    Healed policy es dir name t result t'' :=
  ⟨hspares.trans h.spares, h.answer⟩

/-- Neither the registry nor the holders of objects matter. -/
theorem Healed.frame {result : Except TreeError (Option Node)}
    (h : Healed policy es dir name t result t') (registry : Registry) (held : List Nat) :
    Healed policy es dir name t result { t' with registry := registry, held := held } := by
  obtain ⟨found, hresult, hright⟩ := h.answer
  refine ⟨h.spares.frame registry held, found, hresult, ?_⟩
  cases found <;> exact hright

/-! ### Names that no child has -/

/-- Either the backend has no file of a name, or an entry tells of it. -/
theorem missing_or_listed (h : answers.Agree policy dir.id es) (name : String) :
    (Table.contentAt policy es name = none ∧ answers (.resolve dir.id name policy) = .ok none ∧
      answers (.attributes dir.id name) = .ok none) ∨
    ∃ e id attributes, Table.entryAt policy es name = some e ∧ e.id = some id ∧
      e.attributes = some attributes ∧
      Table.contentAt policy es name = some (id, attributes) := by
  rw [h.resolve, h.attributes, Table.contentAt]
  cases he : Table.entryAt policy es name with
  | none => exact .inl ⟨rfl, rfl, rfl⟩
  | some e =>
    have hwhole := h.whole e (Table.mem_of_entryAt he).1
    rw [Option.bind_some, Option.bind_some, Option.bind_some, TableEntry.content?]
    cases hid : e.id with
    | none =>
      rw [hid, Option.isSome_none, Option.isSome_eq_false_iff, Option.isNone_iff_eq_none] at hwhole
      exact .inl ⟨rfl, rfl, by rw [hwhole]⟩
    | some id =>
      rw [hid] at hwhole
      obtain ⟨attributes, hattributes⟩ := Option.isSome_iff_exists.mp hwhole
      exact .inr ⟨e, id, attributes, rfl, hid, hattributes, by rw [hattributes]; rfl⟩

/-- Adding a child under a name that no child is known to have is heard of no other name, and the
child is known afterwards. -/
theorem run_addNew (ht : t.Tidy) (hc : t.children? dir = some c) (id : FileId) {spelling : String}
    (attributes : Attributes) (hkey : t.policy.key spelling = t.policy.key name)
    (hfree : t.Free dir name) :
    ∃ n t', (newChild dir id spelling attributes >>= addChild dir).run t = .done (.ok n) t' ∧
      Spares dir name t t' ∧ t'.fact? dir name = some (.present n) ∧
      n.attributes = attributes := by
  have hmade := spares_make ht dir name id spelling attributes
  have hc' := children?_make_of_children? hc dir id spelling attributes
  have hnode : (t.make dir id spelling attributes).1.name = spelling := rfl
  have hattributes : (t.make dir id spelling attributes).1.attributes = attributes := rfl
  have hrun : (newChild dir id spelling attributes >>= addChild dir).run t =
      (addChild dir (t.make dir id spelling attributes).1).run
        (t.make dir id spelling attributes).2 := rfl
  rw [hrun]
  generalize t.make dir id spelling attributes = made at *
  obtain ⟨n, t₁⟩ := made
  dsimp only at *
  have hcpolicy : c.ledger.policy = t.policy := (ht dir c hc).1
  have hvacant : ∀ kept, c.ledger.fact? n.name ≠ some (.present kept) := by
    intro kept
    rw [c.ledger.fact?_congr (by rw [hcpolicy, hnode, hkey] : _ = c.ledger.policy.key name),
      ← fact?_of_children? hc]
    exact hfree kept
  have hinsert := Ledger.insert_of_free hvacant
  have hkey₁ : t₁.policy.key n.name = t₁.policy.key name := by
    rw [hmade.policy, hnode, hkey]
  have hspares := hmade.trans (spares_change hmade.tidy hc' (.insert n) trivial rfl hkey₁)
  have hadd := run_addChild hmade.tidy hc' n
  rw [hinsert] at hadd
  refine ⟨n, _, hadd, hspares.frame _ _, ?_, hattributes⟩
  show (t₁.setChildren dir (c.apply (.insert n)).2).fact? dir name = some (.present n)
  rw [fact?_change hmade.tidy hc' (.insert n) trivial, Ledger.apply, hinsert,
    Ledger.fact?_record, if_pos]
  rw [hcpolicy, hnode, hkey]

section Directory

variable (ht : t.Tidy) (hpolicy : t.policy = policy) (hc : t.children? dir = some c)
  (hname : isFileName name = true) (hagree : answers.Agree policy dir.id es)
include ht hpolicy hc hname hagree

/-- A name that no child is known to have is set right: a child is added if the backend has one. -/
theorem healed_materializeCreated (hfree : t.Free dir name) :
    ((materializeCreated dir name).run t).Always answers.world
      (Healed policy es dir name t) := by
  have hspares := Spares.refl ht dir name
  unfold Tree.materializeCreated
  rw [hname]
  rcases missing_or_listed hagree name with ⟨hcontent, -, hmissing⟩ |
    ⟨e, id, attributes, he, hid, hattributes, hcontent⟩
  · exact (always_told hmissing).mpr ⟨hspares, none, rfl, hfree, hcontent⟩
  · obtain ⟨hmem, hkey⟩ := Table.mem_of_entryAt he
    refine (always_told (hagree.attributes name)).mpr ?_
    rw [he, Option.bind_some, hattributes]
    refine (always_told (hagree.canonical name)).mpr ?_
    rw [he, Option.map_some, Option.getD_some, run_bind, run_get, Run.bind_done_ok, hpolicy]
    refine (always_told (hagree.resolve e.name)).mpr ?_
    rw [Table.entryAt_congr hkey, he, Option.bind_some, hid]
    subst hpolicy
    obtain ⟨n, t', hrun, hspares', hfact, hnode⟩ := run_addNew ht hc id attributes hkey hfree
    show ((newChild dir id e.name attributes >>= fun child =>
      some <$> Tree.addChild dir child).run t).Always answers.world _
    have hmapped : (newChild dir id e.name attributes >>= fun child =>
        some <$> Tree.addChild dir child).run t = .done (.ok (some n)) t' :=
      congrArg (Run.bind · fun a => (pure (some a) : TreeM (Option Node)).run) hrun
    rw [hmapped]
    exact ⟨hspares', some n, rfl, hfact, id, attributes, hcontent,
      congrArg Attributes.directory hnode⟩

end Directory

/-! ### Lookups -/

/-- What is known of a name after a lookup: a child that was found is known to have the name, and if
it is new, then it has the attributes of the entry; and if none was found, none is known. -/
def Sighted (policy : CasePolicy) (es : List TableEntry) (dir : Node) (name : String) (t : Tree) :
    Lookup → Tree → Prop
  | .present n, t' => t'.fact? dir name = some (.present n) ∧
      (t' = t ∨ ∃ id, Table.contentAt policy es name = some (id, n.attributes))
  | .absent, t' => t'.Free dir name

/-- Recording what the backend says of a name that nothing is known of. -/
theorem sighted_recordAnswer {w : World} (ht : t.Tidy) (hc : t.children? dir = some c)
    (hname : isFileName name = true) {query : String}
    (hquery : t.policy.key query = t.policy.key name) (hunknown : c.ledger.fact? name = none)
    {id : Option FileId} {attributes : Option Attributes}
    (hfound : ∀ i a, id = some i → attributes = some a →
      Table.contentAt t.policy es name = some (i, a)) :
    ((recordAnswer dir name query id attributes).run t).Always w fun result t' =>
      Spares dir name t t' ∧
        ∃ answer, result = .ok answer ∧ Sighted t.policy es dir name t answer t' := by
  have hcpolicy : c.ledger.policy = t.policy := (ht dir c hc).1
  have hempty : name.isEmpty = false := by
    refine Bool.eq_false_iff.mpr fun h => ?_
    simp [isFileName, h] at hname
  have hmissing : ((recordAnswer dir name query none none).run t).Always w fun result t' =>
      Spares dir name t t' ∧
        ∃ answer, result = .ok answer ∧ Sighted t.policy es dir name t answer t' := by
    have hinsert : (c.ledger.insertAbsent name).1 = .absent := by
      rw [Ledger.insertAbsent, hempty, hunknown]
      rfl
    rw [run_recordAnswer_none ht hc, hinsert]
    refine ⟨spares_change ht hc (.insertAbsent name) trivial rfl rfl, .absent, rfl, fun n hn => ?_⟩
    replace hn : (t.setChildren dir (c.apply (.insertAbsent name)).2).fact? dir name =
      some (.present n) := hn
    rw [fact?_change ht hc (.insertAbsent name) trivial] at hn
    rw [Ledger.present_insertAbsent.mp hn] at hunknown
    cases hunknown
  cases id with
  | none => exact hmissing
  | some id =>
    cases attributes with
    | none => exact hmissing
    | some attributes =>
      have hmade := spares_make ht dir name id query attributes
      have hc' := children?_make_of_children? hc dir id query attributes
      have hnode : (t.make dir id query attributes).1.name = query := rfl
      have hattributes : (t.make dir id query attributes).1.attributes = attributes := rfl
      rw [run_recordAnswer_found ht hc]
      dsimp only
      generalize t.make dir id query attributes = made at *
      obtain ⟨n, t₁⟩ := made
      dsimp only at *
      have hfact : c.ledger.fact? n.name = none := by
        rw [← hunknown]
        exact c.ledger.fact?_congr (by rw [hcpolicy, hnode, hquery])
      have hinsert := Ledger.insertIfUnknown_of_unknown hfact
      have hkey : t₁.policy.key n.name = t₁.policy.key name := by
        rw [hmade.policy, hnode, hquery]
      have hspares := hmade.trans
        (spares_change hmade.tidy hc' (.insertIfUnknown n) trivial rfl hkey)
      rw [hinsert]
      refine ⟨hspares.frame _ _, .present n, rfl, ?_, .inr ⟨id, ?_⟩⟩
      · show (t₁.setChildren dir (c.apply (.insertIfUnknown n)).2).fact? dir name =
          some (.present n)
        rw [fact?_change hmade.tidy hc' (.insertIfUnknown n) trivial, Ledger.apply, hinsert,
          Ledger.fact?_record, if_pos]
        rw [hcpolicy, hnode, hquery]
      · rw [hattributes]
        exact hfound id attributes rfl rfl

section Directory

variable (ht : t.Tidy) (hpolicy : t.policy = policy) (hc : t.children? dir = some c)
  (hname : isFileName name = true) (hagree : answers.Agree policy dir.id es)
include ht hpolicy hc hname hagree

/-- Asking for a name that nothing is known of. -/
theorem sighted_askFor {query : String} (hquery : policy.key query = policy.key name)
    (hunknown : c.ledger.fact? name = none) :
    ((askFor dir name query policy).run t).Always answers.world fun result t' =>
      Spares dir name t t' ∧
        ∃ answer, result = .ok answer ∧ Sighted policy es dir name t answer t' := by
  subst hpolicy
  have hentry : Table.entryAt t.policy es query = Table.entryAt t.policy es name :=
    Table.entryAt_congr hquery
  refine (always_told (hagree.resolve query)).mpr ?_
  rw [hentry]
  cases hid : (Table.entryAt t.policy es name).bind TableEntry.id with
  | none => exact sighted_recordAnswer ht hc hname hquery hunknown nofun
  | some id =>
    refine (always_told (hagree.attributes query)).mpr ?_
    rw [hentry]
    refine sighted_recordAnswer ht hc hname hquery hunknown ?_
    rintro i a ⟨⟩ hattributes
    rw [Table.contentAt_eq, hid, hattributes]
    rfl

/-- A lookup answers what is known of the name, or asks the backend for it. -/
theorem sighted_findChild :
    ((findChild dir name true).run t).Always answers.world fun result t' =>
      Spares dir name t t' ∧
        ∃ answer, result = .ok answer ∧ Sighted policy es dir name t answer t' := by
  have hself := Spares.refl ht dir name
  have hanswer : (if isFileName name then c.find name else .absent) = c.ledger.answer name := by
    rw [if_pos hname, Children.find_of_isFileName (ht dir c hc).2 hname]
  rw [run_findChild, hc]
  dsimp only
  rw [hanswer]
  cases hknown : c.ledger.answer name with
  | present n =>
    refine ⟨hself, .present n, rfl, ?_, .inl rfl⟩
    rw [fact?_of_children? hc]
    exact Ledger.answer_eq_present_iff.mp hknown
  | absent =>
    refine ⟨hself, .absent, rfl, fun n hn => ?_⟩
    rw [fact?_of_children? hc, ← Ledger.answer_eq_present_iff, hknown] at hn
    cases hn
  | unknown =>
    have hunknown := Ledger.fact?_of_answer_unknown hknown
    dsimp only
    rw [hpolicy]
    split
    · refine (always_told (hagree.canonical name)).mpr ?_
      refine sighted_askFor ht hpolicy hc hname hagree ?_ hunknown
      cases he : Table.entryAt policy es name with
      | none => rfl
      | some e => exact (Table.mem_of_entryAt he).2
    · exact sighted_askFor ht hpolicy hc hname hagree rfl hunknown

end Directory

/-! ### Removals -/

/-- A walk that has an end has one after arrays have lost children.

**Proof sketch.** By induction on how deep the walk may go. -/
theorem isSome_below?_of_subset
    (hsubset : ∀ serial, t'.childSerials serial ⊆ t.childSerials serial) {depth serial : Nat}
    (h : (t.below? depth serial).isSome = true) : (t'.below? depth serial).isSome = true := by
  induction depth generalizing serial with
  | zero => cases h
  | succ depth ih =>
    obtain ⟨met, hmet⟩ := Option.isSome_iff_exists.mp h
    rw [below?] at hmet
    obtain ⟨lists, hlists, -⟩ := Option.bind_eq_some_iff.mp hmet
    have hends : ∀ child ∈ t'.childSerials serial, (t'.below? depth child).isSome = true := by
      intro child hchild
      obtain ⟨part, -, hpart⟩ := exists_of_mapM_eq_some hlists (hsubset serial hchild)
      exact ih (by rw [hpart]; rfl)
    obtain ⟨lists', hlists', -⟩ := exists_mapM_eq_some hends
    rw [below?, hlists']
    rfl

/-- Where an array has lost children, no object has gained any. -/
theorem childSerials_setChildren_subset {c' : Children} (ht : t.Tidy)
    (ht' : (t.setChildren dir c').Tidy) (hc : t.children? dir = some c)
    (hsubset : ∀ n ∈ c'.present, n ∈ c.present) (serial : Nat) :
    (t.setChildren dir c').childSerials serial ⊆ t.childSerials serial := by
  intro child hchild
  obtain ⟨cd, m, hcd, hm, rfl⟩ :=
    (mem_childSerials (n := { dir with serial := serial }) ht').mp hchild
  refine (mem_childSerials (n := { dir with serial := serial }) ht).mpr ?_
  rw [children?_setChildren] at hcd
  split at hcd
  · next hserial =>
    obtain ⟨_, -, rfl⟩ := Option.map_eq_some_iff.mp hcd
    have hsame : t.children? { dir with serial := serial } = t.children? dir :=
      children?_congr hserial.symm
    exact ⟨c, m, hsame.trans hc, hsubset m hm, rfl⟩
  · exact ⟨cd, m, hcd, hm, rfl⟩

/-- Removing a child that is known, where the walk over what is cached below it has an end, is heard
of no other name, and no child is known to have its name afterwards. -/
theorem run_removeChild_of_known (ht : t.Tidy) (hc : t.children? dir = some c)
    (hkey : t.policy.key n.name = t.policy.key name)
    (hfact : c.ledger.fact? n.name = some (.present n))
    (hends : (t.subtree? n).isSome = true) :
    ∃ t', (removeChild dir n).run t = .done (.ok true) t' ∧ Spares dir name t t' ∧
      t'.Free dir name := by
  have hctidy := (ht dir c hc).2
  have hop : Children.Op.Admissible c.policy (.remove n t.config.cacheRemovedNames) := trivial
  have hspares := spares_change ht hc (.remove n t.config.cacheRemovedNames) hop rfl hkey
  have hanswer : (c.ledger.apply (.remove n t.config.cacheRemovedNames)).1 = true :=
    congrArg Prod.fst (Ledger.remove_of_known hfact _)
  have hwalk : ((t.setChildren dir (c.apply (.remove n t.config.cacheRemovedNames)).2).subtree?
      n).isSome = true := by
    have hsize : (t.setChildren dir
        (c.apply (.remove n t.config.cacheRemovedNames)).2).cells.size = t.cells.size :=
      Array.size_modify
    rw [subtree?, hsize]
    refine isSome_below?_of_subset (childSerials_setChildren_subset ht hspares.tidy hc
      fun m hm => ?_) hends
    rw [Children.mem_present_apply hctidy hop] at hm
    exact (mem_present_iff hctidy).mpr (Ledger.present_remove hm)
  obtain ⟨met, hmet⟩ := Option.isSome_iff_exists.mp hwalk
  have hrun : (removeChild dir n).run t = _ := run_change_bind ht hc hop _
  rw [hanswer] at hrun
  have hdropped : (removeChild dir n).run t = .done (.ok true)
      ((t.setChildren dir (c.apply (.remove n t.config.cacheRemovedNames)).2).unregisterAll
        met) := by
    rw [hrun]
    dsimp only
    rw [if_pos rfl, run_bind, unregisterSubtrees, run_bind, run_get, Run.bind_done_ok, hmet]
    rfl
  refine ⟨_, hdropped, ?_, ?_⟩
  · rw [unregisterAll_eq]
    exact hspares.frame _ _
  · refine (removeChild_fact? ht (by rw [hc]; rfl) hkey hdropped).1.mpr fun m hm => ?_
    rw [← fact?_congr ht hkey, fact?_of_children? hc, hfact] at hm
    cases hm
    rfl

/-! ### Checks -/

/-- A name that a cached child has is set right: the child is dropped if it has vanished, and made
anew if it is of another kind by now. A child that is of the kind of its entry stays. -/
theorem healed_recheck (ht : t.Tidy) (hpolicy : t.policy = policy) (hc : t.children? dir = some c)
    (hname : isFileName name = true) (hagree : answers.Agree policy dir.id es)
    (hfact : t.fact? dir name = some (.present n))
    (hends : (t.subtree? n).isSome = true ∨
      ∃ id, Table.contentAt policy es name = some (id, n.attributes)) :
    ((recheck dir n).run t).Always answers.world (Healed policy es dir name t) := by
  subst hpolicy
  have hcpolicy : c.policy = t.policy := (ht dir c hc).1
  rw [fact?_of_children? hc] at hfact
  obtain ⟨hn, hkey⟩ := mem_present_of_fact? (ht dir c hc).2 hfact
  rw [hcpolicy] at hkey
  have hknown := (mem_present_iff (ht dir c hc).2).mp hn
  have hentry : Table.entryAt t.policy es n.name = Table.entryAt t.policy es name :=
    Table.entryAt_congr hkey
  have hself := Spares.refl ht dir name
  refine (always_told (hagree.attributes n.name)).mpr ?_
  rw [hentry]
  rcases missing_or_listed hagree name with ⟨hcontent, -, hmissing⟩ |
    ⟨e, id, attributes, he, -, hattributes, hcontent⟩
  · -- the child has vanished
    rw [hagree.attributes] at hmissing
    rw [Except.ok.inj hmissing]
    have hwalk : (t.subtree? n).isSome = true := by
      refine hends.resolve_right fun ⟨id, hid⟩ => ?_
      rw [hcontent] at hid
      cases hid
    obtain ⟨t', hrun, hspares, hfree⟩ := run_removeChild_of_known ht hc hkey hknown hwalk
    dsimp only
    rw [run_bind, hrun]
    exact ⟨hspares, none, rfl, hfree, hcontent⟩
  · rw [he, Option.bind_some, hattributes]
    dsimp only
    split
    · next hkind =>
      refine ⟨hself, some n, rfl, ?_, id, attributes, hcontent, hkind.symm⟩
      rw [fact?_of_children? hc, hfact]
    · next hkind =>
      -- the child is of another kind by now
      have hwalk : (t.subtree? n).isSome = true := by
        refine hends.resolve_right fun ⟨id', hid'⟩ => hkind ?_
        rw [hcontent] at hid'
        cases hid'
        rfl
      obtain ⟨t', hrun, hspares, hfree⟩ := run_removeChild_of_known ht hc hkey hknown hwalk
      rw [run_bind, hrun, Run.bind_done_ok]
      obtain ⟨c', hc', -⟩ := hspares.array dir c hc
      have hname' : isFileName n.name = true :=
        (CasePolicy.isFileName_congr hkey).trans hname
      have hfree' : t'.Free dir n.name := by
        have hsame : t'.fact? dir n.name = t'.fact? dir name :=
          fact?_congr hspares.tidy (by rw [hspares.policy, hkey])
        rwa [Free, hsame]
      refine (healed_materializeCreated hspares.tidy hspares.policy hc' hname' hagree hfree').mono
        fun result t'' hhealed => ?_
      obtain ⟨found, hresult, hright⟩ := hhealed.answer
      have hspares' : Spares dir name t' t'' :=
        hhealed.spares.congr (by rw [hspares.policy, hkey])
      exact ⟨hspares.trans hspares', found, hresult, hright.congr hspares'.tidy
        (hspares'.policy.trans hspares.policy) hkey⟩

/-- A check of a name sets it right, if the walk over what is cached below a child of that name has
an end.

**Proof sketch.** A lookup tells whether a child is known to have the name, and asks the backend if
nothing is known of it. If none is known then, the backend is asked whether there is one by now. If
one is known, it is checked; it has to be dropped only if it was known all along. -/
theorem healed_refreshAndFindChild (ht : t.Tidy) (hdir : (t.children? dir).isSome = true)
    (hname : isFileName name = true) (hagree : answers.Agree t.policy dir.id es)
    (hends : ∀ n, t.fact? dir name = some (.present n) → (t.subtree? n).isSome = true) :
    ((refreshAndFindChild dir name).run t).Always answers.world
      (Healed t.policy es dir name t) := by
  obtain ⟨c, hc⟩ := Option.isSome_iff_exists.mp hdir
  unfold Tree.refreshAndFindChild
  rw [run_bind, Run.always_bind_iff]
  refine (sighted_findChild ht rfl hc hname hagree).mono
    fun result t' ⟨hspares, answer, hresult, hsighted⟩ => ?_
  subst hresult
  obtain ⟨c', hc', -⟩ := hspares.array dir c hc
  cases answer with
  | absent =>
    exact (healed_materializeCreated hspares.tidy hspares.policy hc' hname hagree hsighted).mono
      fun _ _ hhealed => hhealed.since hspares
  | present n =>
    obtain ⟨hfact, hnew⟩ := hsighted
    show ((holding [n] (Tree.recheck dir n)).run t').Always answers.world _
    rw [run_holding, Run.always_settle_iff]
    have hends' : ((t'.hold [n]).subtree? n).isSome = true ∨
        ∃ id, Table.contentAt t.policy es name = some (id, n.attributes) := by
      refine hnew.imp_left fun hsame => ?_
      subst hsame
      -- who holds objects does not matter for the walk
      have hsubset : ∀ serial, (t'.hold [n]).childSerials serial ⊆ t'.childSerials serial :=
        fun _ => List.Subset.refl _
      exact isSome_below?_of_subset hsubset (hends n hfact)
    exact (healed_recheck (t := t'.hold [n]) hspares.tidy hspares.policy hc' hname hagree hfact
      hends').mono fun _ t'' hhealed =>
        (hhealed.since (hspares.frame t'.registry _)).frame t''.registry _

/-- A check sets right what is known of a name, however stale the cache is. Say that a tree came
about in any way, and that the answers of the backend about the names of a directory agree with each
other. The tree was made by lookups, listings, checks and reports of children that are younger than
the directory which they are added to; or else, at least the walk over what is cached below a child
of that name has an end.

Then a check of a name that a file can have ends with an answer. It finds a child exactly if the
backend has one; the child is of the kind that the backend tells, and the array answers it from then
on. If it finds none, then the array answers none from then on. All other names, and the names of
other directories, are answered by their arrays as they were before. -/
theorem refreshAndFindChild_heals {config : TreeConfig} {root : FileId} {rootName : String}
    (hreached : Grows (ofRoot policy config root rootName) t ∨
      Happens (ofRoot policy config root rootName) t ∧
        ∀ n, t.fact? dir name = some (.present n) → (t.subtree? n).isSome = true)
    (hdir : (t.children? dir).isSome = true) (hname : isFileName name = true)
    (hagree : answers.Agree policy dir.id es) :
    ∃ found last, (refreshAndFindChild dir name).answered answers t = (.ok found, last) ∧
      (found.isSome = true ↔ (Table.contentAt policy es name).isSome = true) ∧
      (∀ n, found = some n →
        (∃ attributes, answers (.attributes dir.id name) = .ok (some attributes) ∧
          n.isDirectory = attributes.directory) ∧
        (findCached dir name).run last = .done (.ok (.present n)) last) ∧
      (found = none → ∀ n, (findCached dir name).run last ≠ .done (.ok (.present n)) last) ∧
      ∀ d other known, (d.serial = dir.serial → policy.same other name = false) →
        (findCached d other).run t = .done (.ok known) t →
        (findCached d other).run last = .done (.ok known) last := by
  have hhappens : Happens (ofRoot policy config root rootName) t :=
    hreached.elim Grows.happens And.left
  have ht : t.Tidy := hhappens.tidy (tidy_ofRoot _ _ _ _)
  have hpolicy : t.policy = policy := (hhappens.later (tidy_ofRoot _ _ _ _)).policy
  subst hpolicy
  have hends : ∀ n, t.fact? dir name = some (.present n) → (t.subtree? n).isSome = true := by
    rcases hreached with hgrows | ⟨-, hends⟩
    · intro n hfact
      have hgraded := hgrows.graded (graded_ofRoot _ _ _ _)
      obtain ⟨c, hc⟩ := Option.isSome_iff_exists.mp hdir
      rw [fact?_of_children? hc] at hfact
      obtain ⟨met, hmet⟩ :=
        hgraded.exists_subtree? hc (mem_present_of_fact? (ht dir c hc).2 hfact).1
      rw [hmet]
      rfl
    · exact hends
  obtain ⟨hspares, found, hresult, hright⟩ :=
    answered_of_always (healed_refreshAndFindChild ht hdir hname hagree hends)
  obtain ⟨c, hc⟩ := Option.isSome_iff_exists.mp hdir
  obtain ⟨c', hc', -⟩ := hspares.array dir c hc
  have hcached := run_findCached_of_tidy hc' (hspares.tidy dir c' hc').2 hname
  generalize (refreshAndFindChild dir name).answered answers t = ended at *
  obtain ⟨result, last⟩ := ended
  dsimp only at *
  subst hresult
  refine ⟨found, last, rfl, ?_⟩
  rw [hcached]
  have hothers : ∀ d other known, (d.serial = dir.serial → t.policy.same other name = false) →
      (findCached d other).run t = .done (.ok known) t →
      (findCached d other).run last = .done (.ok known) last := by
    intro d other known hother hknown
    refine hspares.findCached ht (fun hserial hkey => ?_) hknown
    rw [CasePolicy.same_iff.mpr hkey] at hother
    cases hother hserial
  cases found with
  | none =>
    obtain ⟨hfree, hcontent⟩ := hright
    refine ⟨by rw [hcontent]; rfl, nofun, fun _ n hn => ?_, hothers⟩
    injection hn with hn
    refine hfree n ?_
    rw [fact?_of_children? hc']
    exact Ledger.answer_eq_present_iff.mp (Except.ok.inj hn)
  | some n =>
    obtain ⟨hfact, id, attributes, hcontent, hkind⟩ := hright
    rw [fact?_of_children? hc', ← Ledger.answer_eq_present_iff] at hfact
    refine ⟨by rw [hcontent]; exact iff_of_true rfl rfl, ?_, nofun, hothers⟩
    rintro _ ⟨⟩
    refine ⟨⟨attributes, ?_, hkind⟩, by rw [hfact]⟩
    rcases missing_or_listed hagree name with ⟨hnone, -⟩ | ⟨e, id', a, he, -, ha, hsome⟩
    · rw [hnone] at hcontent
      cases hcontent
    · rw [hsome] at hcontent
      cases hcontent
      rw [hagree.attributes, he, Option.bind_some, ha]

/-! ### A directory that became a file

A directory and a missing name are looked up, and the listing is declared complete. Then a file
takes the place of the directory, under another spelling. -/

/-- Where case does not distinguish names, the answers of a table in order agree with each other, if
the entries have attributes exactly if they have an identity. -/
theorem agree_of_orderly {b : Table} {root d : FileId} (hb : b.Orderly root)
    (hes : b.entries? d = some es) (hpolicy : b.policy = .insensitive)
    (hwhole : ∀ e ∈ es, e.attributes.isSome = e.id.isSome) :
    Answers.Agree b.answer .insensitive d es where
  distinct := hpolicy ▸ hb.distinct d es hes
  whole := hwhole
  resolve name := hb.answer_resolve hes name .insensitive
  attributes name := by rw [hb.answer_attributes hes, hpolicy]
  canonical name := hb.answer_canonical hes name

namespace Stale

/-- The root of the tree. -/
def root : Node :=
  ⟨0, ⟨1, FileId.raw_one_ne_zero⟩, "root", none, { directory := true }⟩

/-- The backend before, which has a directory. -/
def before : Table :=
  (Table.ofRoot .insensitive root.id).add root.id
    ⟨"a", some ⟨2, FileId.raw_two_ne_zero⟩, some { directory := true }⟩

/-- The entries of the root by now. -/
def entries : List TableEntry :=
  [⟨"A", some ⟨3, FileId.raw_three_ne_zero⟩, some {}⟩]

/-- The backend by now, which has a file in place of the directory. -/
def now : Table :=
  ⟨.insensitive, [(root.id, entries)], [], []⟩

/-- The tree after an operation on the root. -/
def step (t : Tree) (command : Command) : Tree :=
  (((command.run [] ⟨root, root, root⟩).run t).serve
    (fun q t (_ : Unit) => (before.answer q, t, ())) ()).2.1

/-- The tree after both lookups, with a listing that is declared complete. -/
def known : Tree :=
  [Command.lookup "a", .lookup "b", .markAllLoaded].foldl step
    (ofRoot .insensitive {} root.id "root")

/-- The directory, as the lookup made a node for it. -/
def folder : Node :=
  ⟨1, ⟨2, FileId.raw_two_ne_zero⟩, "a", some root.id, { directory := true }⟩

/-- Operations that report no child leave a tree that may have grown so. -/
theorem grows_step {t t' : Tree} (command : Command) (hadded : command ≠ .addChild)
    (hrest : Grows (step t command) t') : Grows t t' := by
  refine .command [] ⟨root, root, root⟩ command (fun h => absurd h hadded)
    (Run.took_serve _ _ ()) (fun x hx => ?_) hrest
  obtain ⟨_, -, hresumed⟩ := Run.exists_of_mem_exchanges hx
  rw [hresumed]
  exact .refl _

/-- The tree has grown so. -/
theorem grows_known : Grows (ofRoot .insensitive {} root.id "root") known :=
  grows_step (.lookup "a") nofun (grows_step (.lookup "b") nofun
    (grows_step .markAllLoaded nofun (.refl _)))

/-- The answers of the backend by now agree with each other. -/
theorem agree_now : Answers.Agree now.answer .insensitive root.id entries := by
  have horderly : now.Orderly root.id := Table.orderly_of_single (by decide +kernel)
    (by decide +kernel) (by decide +kernel) (by decide +kernel) (by decide +kernel)
  exact agree_of_orderly horderly rfl rfl (by decide +kernel)

/-- The array answers the directory for its name, and that there is no file of the other name. -/
theorem findCached_known : (findCached root "a").run known = .done (.ok (.present folder)) known ∧
    (findCached root "b").run known = .done (.ok .absent) known := by
  have hanswers : (known.children? root).map (fun c => (c.find "a", c.find "b")) =
      some (.present folder, .absent) := by
    decide +kernel
  obtain ⟨c, hc, hfound⟩ := Option.map_eq_some_iff.mp hanswers
  injection hfound with hfolder hmissing
  rw [run_findCached hc, run_findCached hc, hfolder, hmissing]
  exact ⟨rfl, rfl⟩

/-- Before the check the directory is cached, and after it the file, while the other name is denied
still. -/
theorem refreshAndFindChild_heals_stale :
    (findCached root "a").run known = .done (.ok (.present folder)) known ∧
      folder.isDirectory = true ∧ ∃ n last,
        (refreshAndFindChild root "a").answered now.answer known = (.ok (some n), last) ∧
          n.isDirectory = false ∧ (findCached root "a").run last = .done (.ok (.present n)) last ∧
          (findCached root "b").run last = .done (.ok .absent) last := by
  obtain ⟨hfolder, hmissing⟩ := findCached_known
  have hdir : (known.children? root).isSome = true := by decide +kernel
  have hname : isFileName "a" = true := by decide +kernel
  obtain ⟨found, last, hrun, hexists, hfound, -, hothers⟩ :=
    refreshAndFindChild_heals (.inl grows_known) hdir hname agree_now
  obtain ⟨n, rfl⟩ := Option.isSome_iff_exists.mp (hexists.mpr (by decide +kernel))
  obtain ⟨⟨attributes, hattributes, hkind⟩, hcached⟩ := hfound n rfl
  have hfile : (now.answer (.attributes root.id "a")).toOption = some (some {}) := by
    decide +kernel
  rw [hattributes] at hfile
  cases hfile
  exact ⟨hfolder, rfl, n, last, hrun, hkind, hcached,
    hothers root "b" .absent (fun _ => by decide +kernel) hmissing⟩

end Stale

end Tree

end LazyTree
