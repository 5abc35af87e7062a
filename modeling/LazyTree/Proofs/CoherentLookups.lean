import LazyTree.Proofs.CoherentChanges

set_option autoImplicit false

/-!
# Lookups over a table

While a table answers all questions, and nothing happens meanwhile, a tree that agrees with the
table answers each name with what the table holds of it. It still agrees afterwards, and what was
attached is so still.

## Main definitions

* `LazyTree.Table.world` — a table answers the questions, and nothing else happens.
* `LazyTree.Table.content?` — what a table holds of a name.
* `LazyTree.Lookup.Tells` — an answer is what the table holds.
* `LazyTree.Tree.Found` — what holds after a lookup.

## Main results

* `LazyTree.TreeM.always_asked` — operations go on with the answer of the table.
* `LazyTree.Tree.Coherent.findChild`, `LazyTree.Tree.Coherent.lookup` — a lookup answers what the
  table holds.
* `LazyTree.Tree.Coherent.lookupNames`, `LazyTree.Tree.Coherent.findChildById` — so other ways to
  look keep the agreement.
-/

namespace LazyTree

/-- A table answers each question, and nothing else happens meanwhile. -/
def Table.world (b : Table) : World :=
  fun q t reply t' => reply = b.answer q ∧ t' = t

/-- The identity and the attributes of the file that has a name in a directory, as far as the table
has both. -/
def Table.content? (b : Table) (d : FileId) (name : String) : Option (FileId × Attributes) :=
  (b.entries? d).bind fun es => Table.contentAt b.policy es name

/-- An answer for a name is what the table holds: a node of the same name with the identity and the
attributes of the file, or that there is no such file. -/
def Lookup.Tells (b : Table) (d : FileId) (name : String) : Lookup → Prop
  | .present n => b.content? d name = some (n.id, n.attributes) ∧
      b.policy.key n.name = b.policy.key name
  | .absent => b.content? d name = none

/-- What the table holds of a name is what the entries of the directory tell. -/
theorem Table.content?_eq {b : Table} {d : FileId} {es : List TableEntry}
    (hes : b.entries? d = some es) (name : String) :
    b.content? d name = Table.contentAt b.policy es name := by
  rw [Table.content?, hes, Option.bind_some]

/-- Over a table an operation that begins with a question goes on with the answer of the table. -/
theorem TreeM.always_asked {α : Type} {b : Table} {q : Query} {reply : q.Reply}
    (hq : b.answer q = .ok reply) {f : q.Reply → TreeM α} {t : Tree}
    {post : Except TreeError α → Tree → Prop} :
    ((ask q >>= f).run t).Always b.world post ↔ ((f reply).run t).Always b.world post :=
  always_told (show (b.answer : Answers) q = .ok reply from hq)

namespace Tree

open TreeM

variable {t t' : Tree} {b : Table} {dir n : Node} {c : Children} {es : List TableEntry}

/-- What holds after a name was looked up over a table: the tree agrees with the table, nothing was
detached, and the answer is what the table holds. -/
structure Found (b : Table) (t : Tree) (dir : Node) (name : String)
    (result : Except TreeError Lookup) (t' : Tree) : Prop where
  /-- The tree agrees with the table. -/
  coherent : t'.Coherent b
  /-- What was attached is so still. -/
  attached : ∀ n, t.Attached n → t'.Attached n
  /-- The answer is what the table holds, and a child that was found is attached. -/
  answer : ∃ answer, result = .ok answer ∧ answer.Tells b dir.id name ∧
    ∀ n, answer = .present n → t'.Attached n

/-- What holds after a lookup does not depend on who holds objects, or on the registry. -/
theorem Found.frame {name : String} {result : Except TreeError Lookup}
    (h : Found b t dir name result t') (registry : Registry) (held : List Nat) :
    Found b t dir name result { t' with registry := registry, held := held } := by
  have hattached : ∀ n, t'.Attached n →
      ({ t' with registry := registry, held := held } : Tree).Attached n :=
    fun n hn => hn.frame registry held
  obtain ⟨answer, hresult, htells, hpresent⟩ := h.answer
  exact ⟨h.coherent.frame registry held, fun n hn => hattached n (h.attached n hn),
    answer, hresult, htells, fun n hn => hattached n (hpresent n hn)⟩

/-- A child that is known to have a name is what the table holds of the name, and is attached. -/
theorem Coherent.tells_of_fact? (h : t.Coherent b) (hdir : t.Attached dir)
    (hc : t.children? dir = some c) {name : String}
    (hfact : c.ledger.fact? name = some (.present n)) :
    (Lookup.present n).Tells b dir.id name ∧ t.Attached n := by
  obtain ⟨es, hes, hmirrors⟩ := h.mirrors dir c hdir hc
  have hpolicy : c.ledger.policy = b.policy := (h.array hc).1.trans h.policy.symm
  obtain ⟨hmem, hkey⟩ := mem_present_of_fact? (h.array hc).2 hfact
  refine ⟨⟨?_, ?_⟩, .child hdir hc hmem⟩
  · rw [Table.content?_eq hes, ← hpolicy]
    exact hmirrors.present name n hfact
  · rw [← hpolicy]
    exact hkey

/-! ### Recording answers -/

section Directory

variable (h : t.Coherent b) (hdir : t.AttachedDirectory dir)
include h hdir

/-- Recording that a name is free, as it is, answers that. -/
theorem Coherent.recordMissing {name : String} (query : String)
    (hcontent : b.content? dir.id name = none) :
    ((recordAnswer dir name query none none).run t).Always b.world (Found b t dir name) := by
  obtain ⟨c, es, hc, hes, hmirrors, hpolicy⟩ := h.exists_mirrors hdir
  rw [Table.content?_eq hes, ← hpolicy] at hcontent
  have hanswer := hmirrors.insertAbsent_answer hcontent
  have hop : Children.Op.Admissible c.policy (.insertAbsent name) := trivial
  rw [run_recordAnswer_none h.tidy hc, hanswer]
  refine ⟨?_, fun n hn => ?_, .absent, rfl, ?_, fun n hn => by cases hn⟩
  · exact h.change_of_mirrors hdir.attached hc hes (.insertAbsent name) hop
      (fun n other hn => .inl (Ledger.present_insertAbsent.mp hn)) (hmirrors.insertAbsent hcontent)
  · exact Attached.change_of_keep h.rooted hdir.attached hc hop
      (fun n other hn => Ledger.present_insertAbsent.mpr hn) hn
  · show b.content? dir.id name = none
    rwa [Table.content?_eq hes, ← hpolicy]

/-- Recording a child that is a file answers a child that is that file. -/
theorem Coherent.recordFound {name query : String}
    (hkey : b.policy.key query = b.policy.key name) {id : FileId} {attributes : Attributes}
    (hcontent : b.content? dir.id query = some (id, attributes)) :
    ((recordAnswer dir name query (some id) (some attributes)).run t).Always b.world
      (Found b t dir name) := by
  obtain ⟨c, es, hc, hes, hmirrors, hpolicy⟩ := h.exists_mirrors hdir
  obtain ⟨registry, hrun⟩ := run_recordAnswer_some h.tidy hc name query id attributes
  rw [hrun]
  have hmade := h.make dir id query attributes
  have hdir' := (h.rooted.attached_make dir id query attributes).mpr hdir.attached
  have hc' := children?_make_of_children? hc dir id query attributes
  have hloose := loose_make h.rooted dir id query attributes
  have hstay := fun n => (h.rooted.attached_make (n := n) dir id query attributes).mpr
  have hnode : (t.make dir id query attributes).1.name = query := rfl
  have hfile : Table.contentAt c.ledger.policy es query =
      some ((t.make dir id query attributes).1.id,
        (t.make dir id query attributes).1.attributes) := by
    rw [hpolicy, ← Table.content?_eq hes, hcontent]
    rfl
  generalize t.make dir id query attributes = made at *
  obtain ⟨node, t₁⟩ := made
  dsimp only at *
  -- the answer is the child that the array has afterwards
  obtain ⟨kept, hanswer⟩ : ∃ kept, (c.ledger.insertIfUnknown node).1 = .present kept := by
    rw [Ledger.insertIfUnknown, hnode]
    split
    · exact ⟨_, rfl⟩
    · next hfact =>
      have habsent := hmirrors.absent query hfact
      rw [hfile] at habsent
      cases habsent
    · exact ⟨_, rfl⟩
  have hkept : (c.ledger.insertIfUnknown node).2.fact? query = some (.present kept) :=
    hnode ▸ Ledger.insertIfUnknown_answered hanswer
  have hop : Children.Op.Admissible c.policy (.insertIfUnknown node) := trivial
  have hafter : (t₁.setChildren dir (c.apply (.insertIfUnknown node)).2).Coherent b := by
    refine hmade.change_of_mirrors hdir' hc' hes _ hop (fun n other hn => ?_)
      (hmirrors.insertIfUnknown (hnode ▸ hfile))
    rcases Ledger.present_insertIfUnknown hn with hold | ⟨rfl, -⟩
    · exact .inl hold
    · exact .inr hloose
  have hledger : (c.apply (.insertIfUnknown node)).2.ledger = (c.ledger.insertIfUnknown node).2 :=
    (Children.apply_follows (h.array hc).2 hop).ledger
  obtain ⟨⟨hcontent', hkey'⟩, hattached⟩ := hafter.tells_of_fact? (.change_self hmade.owns hdir' _)
    (children?_setChildren_self hc' _) (hledger ▸ hkept)
  have hfound : Found b t dir name (.ok (.present kept))
      (t₁.setChildren dir (c.insertIfUnknown node).2) := by
    refine ⟨hafter, fun n hn => ?_, .present kept, rfl, ⟨?_, hkey'.trans hkey⟩, ?_⟩
    · exact Attached.change_of_keep hmade.rooted hdir' hc' hop
        (fun n other hn => Ledger.insertIfUnknown_keeps hn) (hstay n hn)
    · rwa [Table.content?_eq hes, ← Ledger.contentAt_congr hkey, ← Table.content?_eq hes]
    · rintro n ⟨⟩
      exact hattached
  rw [hanswer]
  exact hfound.frame registry _

/-! ### Single names -/

/-- Asking the table for a name, under a spelling of it, answers what the table holds. -/
theorem Coherent.askFor {name query : String}
    (hkey : b.policy.key query = b.policy.key name) :
    ((askFor dir name query b.policy).run t).Always b.world (Found b t dir name) := by
  obtain ⟨c, es, hc, hes, hmirrors, hpolicy⟩ := h.exists_mirrors hdir
  have hcontent : b.content? dir.id name = b.content? dir.id query := by
    rw [Table.content?_eq hes, Table.content?_eq hes, Ledger.contentAt_congr hkey]
  rw [Tree.askFor, always_asked (h.table.answer_resolve hes query b.policy)]
  cases hentry : Table.entryAt b.policy es query with
  | none =>
    refine h.recordMissing hdir query ?_
    rw [hcontent, Table.content?_eq hes, Table.contentAt, hentry, Option.bind_none]
  | some e =>
    rw [Option.bind_some]
    cases hid : e.id with
    | none =>
      refine h.recordMissing hdir query ?_
      rw [hcontent, Table.content?_eq hes, Table.contentAt, hentry, Option.bind_some,
        TableEntry.content?, hid, Option.bind_none]
    | some id =>
      dsimp only
      rw [always_asked (h.table.answer_attributes hes query), hentry, Option.bind_some]
      have hquery : b.content? dir.id query =
          e.attributes.map fun attributes => (id, attributes) := by
        rw [Table.content?_eq hes, Table.contentAt, hentry, Option.bind_some, TableEntry.content?,
          hid, Option.bind_some]
      cases hattributes : e.attributes with
      | none =>
        refine h.recordMissing hdir query ?_
        rw [hcontent, hquery, hattributes, Option.map_none]
      | some attributes =>
        refine h.recordFound hdir hkey ?_
        rw [hquery, hattributes, Option.map_some]

/-- Looking a name up answers what the table holds. -/
theorem Coherent.findChild {name : String} (hname : isFileName name = true) (canonicalize : Bool) :
    ((findChild dir name canonicalize).run t).Always b.world (Found b t dir name) := by
  obtain ⟨c, es, hc, hes, hmirrors, hpolicy⟩ := h.exists_mirrors hdir
  have hanswer := hmirrors.answer name
  rw [run_findChild, hc, ← h.policy]
  simp only [hname, if_true, Children.find_of_isFileName (h.array hc).2 hname]
  cases hledger : c.ledger.answer name with
  | present n =>
    obtain ⟨htells, hattached⟩ :=
      h.tells_of_fact? hdir.attached hc (Ledger.answer_eq_present_iff.mp hledger)
    exact ⟨h, fun _ hn => hn, _, rfl, htells, fun _ heq => by cases heq; exact hattached⟩
  | absent =>
    rw [hledger, hpolicy] at hanswer
    refine ⟨h, fun _ hn => hn, _, rfl, ?_, fun _ heq => by cases heq⟩
    show b.content? dir.id name = none
    rw [Table.content?_eq hes]
    exact hanswer
  | unknown =>
    dsimp only
    split
    · next hwanted =>
      -- the backend's spelling is that of an entry of the name, or the name itself
      have hinsensitive : b.policy = .insensitive := by
        cases hp : b.policy with
        | sensitive => simp [hp, CasePolicy.isSensitive] at hwanted
        | insensitive => rfl
      rw [always_asked (h.table.answer_canonical hes name)]
      refine h.askFor hdir ?_
      cases hentry : Table.entryAt .insensitive es name with
      | none => rfl
      | some e =>
        rw [hinsensitive]
        exact (Table.mem_of_entryAt hentry).2
    · exact h.askFor hdir rfl

/-- Looking a name up as the tree is set answers what the table holds. -/
theorem Coherent.lookup {name : String} (hname : isFileName name = true) :
    ((lookup dir name).run t).Always b.world (Found b t dir name) :=
  h.findChild hdir hname _

/-- A text that no file can have for a name is not looked for. -/
theorem Coherent.run_findChild_of_not_isFileName {name : String} (hname : isFileName name = false)
    (canonicalize : Bool) :
    (Tree.findChild dir name canonicalize).run t = .done (.ok .absent) t := by
  obtain ⟨c, hc⟩ := h.rooted.exists_children hdir
  rw [run_findChild, hc, hname]
  rfl

/-- Looking any text up keeps the agreement, detaches nothing, and finds attached children. -/
theorem Coherent.findChild_keeps (name : String) (canonicalize : Bool) :
    ((Tree.findChild dir name canonicalize).run t).Always b.world fun result t' =>
      t'.Coherent b ∧ (∀ n, t.Attached n → t'.Attached n) ∧
        ∀ n, result = .ok (.present n) → t'.Attached n := by
  cases hname : isFileName name with
  | true =>
    refine (h.findChild hdir hname canonicalize).mono fun result t' hfound => ?_
    obtain ⟨answer, rfl, -, hpresent⟩ := hfound.answer
    exact ⟨hfound.coherent, hfound.attached, fun n hn => hpresent n (Except.ok.inj hn)⟩
  | false =>
    rw [h.run_findChild_of_not_isFileName hdir hname]
    exact ⟨h, fun _ hn => hn, fun n hn => by cases hn⟩

/-! ### Identities -/

/-- Looking for an identity keeps the agreement. -/
theorem Coherent.findChildById (id : FileId) (cachedOnly : Bool) :
    ((findChildById dir id cachedOnly).run t).Always b.world fun _ t' => t'.Coherent b := by
  obtain ⟨c, hc⟩ := h.rooted.exists_children hdir
  rw [Tree.findChildById, run_childrenOf_bind hc]
  split
  · exact h
  · split
    · exact h
    · refine (always_asked (h.table.answer_nameOf id)).mpr ?_
      cases b.nameOf id with
      | none => exact h
      | some name =>
        dsimp only
        rw [run_bind, Run.always_bind_iff]
        refine (h.findChild_keeps hdir name false).mono fun result t' hkept => ?_
        cases result <;> exact hkept.1

end Directory

/-! ### Paths -/

/-- Looking a path up keeps the agreement. -/
theorem Coherent.lookupNames (h : t.Coherent b) (hdir : t.Attached dir) (names : List String) :
    ((lookupNames dir names).run t).Always b.world fun _ t' => t'.Coherent b := by
  induction names generalizing dir t with
  | nil => exact h
  | cons name rest ih =>
    rw [Tree.lookupNames]
    split
    · next hdirectory =>
      have hdir : t.AttachedDirectory dir := ⟨hdir, hdirectory⟩
      have hheld : (t.hold [dir]).Coherent b := h.frame t.registry _
      have hdir' : (t.hold [dir]).AttachedDirectory dir := hdir.frame _ _
      rw [run_bind, Run.always_bind_iff, run_holding, Run.always_settle_iff]
      refine (hheld.findChild_keeps hdir' name _).mono fun result t' hkept => ?_
      obtain ⟨hcoherent, -, hpresent⟩ := hkept
      have hreleased : (t'.release [dir]).Coherent b := hcoherent.frame t'.registry _
      cases result with
      | error e => exact hreleased
      | ok answer =>
        cases answer with
        | absent => exact hreleased
        | present next =>
          exact ih hreleased ((hpresent next rfl).frame _ _)
    · exact h

end Tree

end LazyTree
