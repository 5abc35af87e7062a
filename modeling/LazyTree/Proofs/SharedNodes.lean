import LazyTree.Proofs.FaithfulArrays
import LazyTree.Proofs.Interleavings
import LazyTree.Proofs.JoinedListings
import LazyTree.Proofs.RepeatedLookups

set_option autoImplicit false

/-!
# One node for each file

Lookups and listings of one directory are under way at the same time, and nobody removes anything.
Then a child that is in the array once stays there: an insertion leaves alone what it finds, and a
listing is installed only if nothing has changed since it began, so that the children that it saw
cached are those that are cached, and all of them are used again. So all lookups of a name that find
a file answer the very same node, and each listing that is installed contains it.

## Main definitions

* `LazyTree.Answers.Tell` — what a backend answers about a directory is what entries tell.
* `LazyTree.sharing` — what those who look up and list may rely on and keep to.
* `LazyTree.System.found?` — what a client was answered.

## Main results

* `LazyTree.safe_lookup`, `LazyTree.safe_refreshChildren` — looking up and listing keep to it.
* `LazyTree.System.nodes_shared` — racing operations share one node for each file.
-/

namespace LazyTree

/-- What a backend answers about a directory is what entries tell, of which no two have the same
name. It spells a name as one that is the same. -/
structure Answers.Tell (answers : Answers) (policy : CasePolicy) (d : FileId)
    (es : List TableEntry) : Prop where
  /-- No two entries have the same name. -/
  distinct : es.Pairwise fun e e' => policy.key e.name ≠ policy.key e'.name
  /-- The identity of a name is that of its entry. -/
  resolve : ∀ name, answers (.resolve d name policy) =
    .ok ((Table.entryAt policy es name).bind TableEntry.id)
  /-- The attributes of a name are those of its entry. -/
  attributes : ∀ name, answers (.attributes d name) =
    .ok ((Table.entryAt policy es name).bind TableEntry.attributes)
  /-- Where case does not distinguish names, the spelling of a name is the same name. -/
  canonical : policy.isSensitive = false → ∀ name, ∃ spelled,
    answers (.canonical d name) = .ok spelled ∧ policy.key spelled = policy.key name
  /-- The entries that have an identity are listed, in any order. -/
  list : ∃ listing : List Listed, answers (.list d) = .ok listing ∧
    ∀ l, l ∈ listing ↔ ∃ e ∈ es, e.name = l.name ∧ e.id = some l.id

/-- A table in order answers what the entries of its directories tell. -/
theorem Table.Orderly.tell {b : Table} {root d : FileId} {es : List TableEntry}
    (h : b.Orderly root) (hes : b.entries? d = some es) : Answers.Tell b.answer b.policy d es where
  distinct := h.distinct d es hes
  resolve name := h.answer_resolve hes name b.policy
  attributes := h.answer_attributes hes
  canonical := by
    intro hpolicy name
    refine ⟨_, h.answer_canonical hes name, ?_⟩
    have hinsensitive : b.policy = .insensitive := by
      cases hp : b.policy with
      | sensitive => simp [hp, CasePolicy.isSensitive] at hpolicy
      | insensitive => rfl
    rw [hinsensitive]
    cases he : Table.entryAt .insensitive es name with
    | none => rfl
    | some e => exact (Table.mem_of_entryAt he).2
  list := ⟨_, h.answer_list hes, fun _ => Tree.listed_iff⟩

/-! ### What everybody keeps to -/

section Sharing

variable (answers : Answers) (dir : Node) (policy : CasePolicy) (es : List TableEntry)

/-- Those who look up and list may rely on it, and keep to it, that the array agrees with the
entries of the directory and becomes another one only without losing anything. -/
def sharing : Discipline where
  answers := answers
  dir := dir
  valid t := t.policy = policy ∧ ∃ c, t.children? dir = some c ∧ c.Faithful policy es
  grows t t' := ∀ c, t.children? dir = some c → ∃ c', t'.children? dir = some c' ∧ c.Grown c'
  refl t c hc := ⟨c, hc, .refl c⟩
  trans h h' c hc := by
    obtain ⟨c', hc', hgrown⟩ := h c hc
    obtain ⟨c'', hc'', hgrown'⟩ := h' c' hc'
    exact ⟨c'', hc'', hgrown.trans hgrown'⟩

variable {answers dir policy es} {t t' : Tree} {c : Children}

/-- What changes neither the policy nor the array keeps to the discipline. -/
theorem sharing_keeps {f : Tree → Tree} (hpolicy : ∀ t, (f t).policy = t.policy)
    (hchildren : ∀ t c, t.children? dir = some c → (f t).children? dir = some c) :
    (sharing answers dir policy es).Keeps f := by
  rintro t ⟨hp, c, hc, hfaithful⟩
  exact ⟨⟨(hpolicy t).trans hp, c, hchildren t c hc, hfaithful⟩,
    fun c' hc' => ⟨c', hchildren t c' hc', .refl c'⟩⟩

/-- A change of the array that keeps the agreement and loses nothing keeps to the discipline. -/
theorem sharing_change (hpolicy : t.policy = policy) (hc : t.children? dir = some c)
    (h : c.Faithful policy es) {op : Children.Op} (hop : op.Admissible c.policy)
    (hmirrors : (c.ledger.apply op).2.Mirrors es) (hgrown : c.Grown (c.apply op).2) :
    (sharing answers dir policy es).valid (t.setChildren dir (c.apply op).2) ∧
      (sharing answers dir policy es).grows t (t.setChildren dir (c.apply op).2) := by
  have hfollows := Children.apply_follows h.tidy hop
  have hafter := Tree.children?_setChildren_self hc (c.apply op).2
  refine ⟨⟨hpolicy, _, hafter, (Children.apply_policy h.tidy hop).trans h.policy, hfollows.tidy,
    hfollows.ledger ▸ hmirrors⟩, fun c' hc' => ?_⟩
  obtain rfl : c = c' := Option.some.inj (hc.symm.trans hc')
  exact ⟨_, hafter, hgrown⟩

/-- A child is known to have a name. -/
def Tree.Knows (t : Tree) (dir : Node) (name : String) (n : Node) : Prop :=
  ∃ c, t.children? dir = some c ∧ c.ledger.fact? name = some (.present n)

/-- What a lookup ends with: if it answers a child, then the child is known to have the name. -/
def Answered (dir : Node) (name : String) (answer : Lookup) (t : Tree) : Prop :=
  ∀ n, answer = .present n → t.Knows dir name n

/-- A child that is known to have a name stays so. -/
theorem sharing_knows {name : String} {n : Node}
    (hgrows : (sharing answers dir policy es).grows t t') (h : t.Knows dir name n) :
    t'.Knows dir name n := by
  obtain ⟨c, hc, hfact⟩ := h
  obtain ⟨c', hc', hgrown⟩ := hgrows c hc
  exact ⟨c', hc', hgrown.keeps name n hfact⟩

/-! ### Reading the array -/

/-- Reading the array goes on with one that agrees. -/
theorem safe_childrenOf_bind {α : Type} {post : α → Tree → Prop} {f : Children → Routine α}
    (h : ∀ t' c, t'.policy = policy → t'.children? dir = some c → c.Faithful policy es →
      (sharing answers dir policy es).grows t t' →
      (sharing answers dir policy es).Safe post (f c) t') :
    (sharing answers dir policy es).Safe post (Routine.childrenOf dir >>= f) t := by
  intro t' hvalid hgrows
  refine ⟨⟨hvalid, (sharing answers dir policy es).refl t'⟩, ?_⟩
  obtain ⟨hpolicy, c, hc, hfaithful⟩ := hvalid
  show (sharing answers dir policy es).Safe post
    ((Routine.require (.notADirectory dir.id) (t'.children? dir)).bind f) t'
  rw [hc]
  exact h t' c hpolicy hc hfaithful hgrows

/-! ### Lookups -/

variable {name query : String}

/-- Recording that a name is free keeps to the discipline if no file has it. -/
theorem safe_recordMissing (hnone : Table.contentAt policy es name = none) (query : String) :
    (sharing answers dir policy es).Safe (Answered dir name)
      (.recordAnswer dir name query none none) t := by
  refine Discipline.safe_alter_bind (.insertAbsent name) fun t' c hvalid _ hc => ?_
  obtain ⟨hpolicy, c', hc', hfaithful⟩ := hvalid
  obtain rfl : c = c' := Option.some.inj (hc.symm.trans hc')
  have hop : Children.Op.Admissible c.policy (.insertAbsent name) := trivial
  rw [← hfaithful.policy] at hnone
  obtain ⟨hvalid', hgrows'⟩ := sharing_change hpolicy hc hfaithful hop
    (hfaithful.mirrors.insertAbsent hnone) (hfaithful.grown_insertAbsent name)
  refine ⟨_, (Children.apply_follows hfaithful.tidy hop).answer, hvalid', hgrows', ?_⟩
  rw [Ledger.apply, hfaithful.mirrors.insertAbsent_answer hnone]
  exact fun _ _ _ n hn => by cases hn

/-- Recording a file keeps to the discipline, and the child that is answered is known to have each
name that is the same. -/
theorem safe_recordFound {id : FileId} {attributes : Attributes}
    (hfile : Table.contentAt policy es query = some (id, attributes))
    (hquery : policy.key query = policy.key name) :
    (sharing answers dir policy es).Safe (Answered dir name)
      (.recordAnswer dir name query (some id) (some attributes)) t := by
  refine Discipline.safe_workOn_bind
    (sharing_keeps (fun _ => rfl) fun t c hc => Tree.children?_make_of_children? hc ..) ?_
  intro t₁ _ _
  generalize hchild : (t₁.make dir id query attributes).1 = child
  have hcontent : Table.contentAt policy es child.name = some (child.id, child.attributes) := by
    rw [← hchild]
    exact hfile
  have hname : policy.key child.name = policy.key name := by
    rw [← hchild]
    exact hquery
  refine Discipline.safe_alter_bind (.insertIfUnknown child) fun t' c hvalid _ hc => ?_
  obtain ⟨hpolicy, c', hc', hfaithful⟩ := hvalid
  obtain rfl : c = c' := Option.some.inj (hc.symm.trans hc')
  have hop : Children.Op.Admissible c.policy (.insertIfUnknown child) := trivial
  have hfollows := Children.apply_follows hfaithful.tidy hop
  obtain ⟨hvalid', hgrows'⟩ := sharing_change hpolicy hc hfaithful hop
    (hfaithful.mirrors.insertIfUnknown (by rwa [hfaithful.ledger_policy]))
    (hfaithful.grown_insertIfUnknown hcontent)
  refine ⟨_, hfollows.answer, hvalid', hgrows', ?_⟩
  have hafter := Tree.children?_setChildren_self hc (c.apply (.insertIfUnknown child)).2
  have hanswer := c.ledger.answer_insertIfUnknown child
  rw [Ledger.apply]
  cases hknowledge : (c.ledger.insertIfUnknown child).1 with
  | absent => exact fun _ _ _ n hn => by cases hn
  | unknown => exact fun _ _ _ n hn => by cases hn
  | present node =>
    rw [hknowledge] at hanswer
    have hfact := Ledger.answer_eq_present_iff.mp hanswer
    have hknows : (t'.setChildren dir (c.apply (.insertIfUnknown child)).2).Knows dir name node := by
      refine ⟨_, hafter, ?_⟩
      rw [hfollows.ledger]
      refine Eq.trans (Ledger.fact?_congr _ ?_) hfact
      rw [Ledger.apply_policy, hfaithful.ledger_policy, hname]
    refine Discipline.safe_workOn_bind (sharing_keeps (fun _ => rfl) fun t c hc => hc) ?_
    rintro t₂ _ hgrows t₃ _ hgrows' n ⟨⟩
    have hstill : t₂.Knows dir name node := sharing_knows hgrows hknows
    have hregistered : (t₂.register node).Knows dir name node := hstill
    exact sharing_knows hgrows' hregistered

/-- Looking a name up in the array keeps to the discipline. -/
theorem safe_findCached (name : String) : (sharing answers dir policy es).Safe
    (fun knowledge t' => ∀ n, knowledge = .present n → t'.Knows dir name n)
    (.findCached dir name) t := by
  refine safe_childrenOf_bind fun t₁ c _ hc hfaithful _ => Discipline.safe_pure ?_
  intro t' _ hgrows n hn
  split at hn
  · next hname =>
    rw [Children.find_of_isFileName hfaithful.tidy hname] at hn
    exact sharing_knows hgrows ⟨c, hc, Ledger.answer_eq_present_iff.mp hn⟩
  · cases hn

section Backend

variable (hb : answers.Tell policy dir.id es)
include hb

/-- Asking for a name under a spelling of it keeps to the discipline. -/
theorem safe_askFor (hquery : policy.key query = policy.key name) :
    (sharing answers dir policy es).Safe (Answered dir name)
      (.askFor dir name query policy) t := by
  have hcontent := Table.contentAt_eq policy es query
  have hname : Table.contentAt policy es name = Table.contentAt policy es query :=
    (Ledger.contentAt_congr hquery).symm
  refine Discipline.safe_inquire_bind (q := .resolve dir.id query policy) fun id hid => ?_
  rw [← Except.ok.inj (hid.symm.trans (hb.resolve query))] at hcontent
  cases id with
  | none => exact safe_recordMissing (hname.trans hcontent) query
  | some id =>
    refine Discipline.safe_inquire_bind (q := .attributes dir.id query) fun attributes hfound => ?_
    rw [← Except.ok.inj (hfound.symm.trans (hb.attributes query))] at hcontent
    cases attributes with
    | none => exact safe_recordMissing (hname.trans hcontent) query
    | some attributes => exact safe_recordFound hcontent hquery

/-- Looking a name up keeps to the discipline, and a child that is answered is known to have the
name from then on. -/
theorem safe_lookup (name : String) :
    (sharing answers dir policy es).Safe (Answered dir name) (.lookup dir name) t := by
  refine Discipline.safe_look_bind fun t₀ hvalid _ => ?_
  refine (safe_findCached name).bind (fun knowledge t₁ _ hknows => ?_) hvalid
  cases knowledge with
  | present node =>
    rintro t' - hgrows n ⟨⟩
    exact sharing_knows hgrows (hknows node rfl)
  | absent => exact fun _ _ _ n hn => by cases hn
  | unknown =>
    refine Discipline.safe_look_bind fun t₂ hvalid₂ _ => ?_
    have hpolicy : t₂.policy = policy := hvalid₂.1
    dsimp only
    rw [hpolicy]
    split
    · next hwanted =>
      have hinsensitive : policy.isSensitive = false := by simp_all
      obtain ⟨spelled, hspelled, hkey⟩ := hb.canonical hinsensitive name
      refine Discipline.safe_inquire_bind (q := .canonical dir.id name) fun query hquery => ?_
      obtain rfl : spelled = query := Except.ok.inj (hspelled.symm.trans hquery)
      exact safe_askFor hb hkey
    · exact safe_askFor hb rfl

end Backend

/-! ### Listings -/

/-- The children that were cached when the count was read, or the count is another one by now. -/
def Snapshot (dir : Node) (generation : Nat) (cached : List Node) (t : Tree) : Prop :=
  ∃ c, t.children? dir = some c ∧ generation ≤ c.generation ∧
    (c.generation = generation → c.present = cached)

/-- What was cached stays so, or the count gets another one. -/
theorem sharing_snapshot {generation : Nat} {cached : List Node}
    (hgrows : (sharing answers dir policy es).grows t t') (h : Snapshot dir generation cached t) :
    Snapshot dir generation cached t' := by
  obtain ⟨c, hc, hle, hcached⟩ := h
  obtain ⟨c', hc', hgrown⟩ := hgrows c hc
  refine ⟨c', hc', Nat.le_trans hle hgrown.generation, fun hsame => ?_⟩
  have hback : c'.generation = c.generation :=
    Nat.le_antisymm (hsame ▸ hle) hgrown.generation
  rw [hgrown.same hback]
  exact hcached (hback ▸ hsame)

/-- Merging a listing with cached files keeps to the discipline, and gives the nodes for the
listing. -/
theorem safe_mergeListing (hb : answers.Tell policy dir.id es) {entries : List Listed}
    {cached : List Node} (hentries : Ascending policy entries)
    (hlisted : ∀ l ∈ entries, ∃ e, Table.entryAt policy es l.name = some e ∧ e.id = some l.id)
    (hcached : Ascending policy cached)
    (hfiles : ∀ n ∈ cached, Table.contentAt policy es n.name = some (n.id, n.attributes))
    (hvalid : (sharing answers dir policy es).valid t) :
    (sharing answers dir policy es).Safe
      (fun merged _ => Joined policy es cached entries merged) (.mergeListing dir cached entries)
      t := by
  induction entries generalizing cached t with
  | nil => exact Discipline.safe_pure fun _ _ _ => ⟨.refl _, nofun, nofun, nofun⟩
  | cons entry rest ih =>
    obtain ⟨⟨e, hentry, hid⟩, hrest⟩ := List.forall_mem_cons.mp hlisted
    refine Discipline.safe_look_bind fun t₀ hvalid₀ _ => ?_
    have hpolicy : t₀.policy = policy := hvalid₀.1
    dsimp only
    rw [hpolicy]
    have hleft := Tree.mem_of_passed policy cached entry
    have hmerge : ∀ t, (sharing answers dir policy es).valid t →
        (sharing answers dir policy es).Safe (fun merged _ => Joined policy es cached rest merged)
          (.mergeListing dir (Tree.passed policy cached entry).2 rest) t := fun t ht =>
      (ih (List.pairwise_cons.mp hentries).2 hrest (ascending_passed hcached entry)
        (fun n hn => hfiles n (hleft.2 n hn)) ht).mono
        fun merged _ _ h => h.widen hcached hentries
    rw [Routine.mergeEntry]
    split
    · next node hnode =>
      -- a cached node is used again
      obtain ⟨hcandidate, -⟩ := Option.filter_eq_some_iff.mp hnode
      refine (hmerge t₀ hvalid₀).bind (fun merged _ _ hjoined => ?_) hvalid₀
      exact Discipline.safe_pure fun _ _ _ => hjoined.cons (Tree.passed_key hcandidate)
        (hfiles node (hleft.1 node hcandidate)) fun m hm hkey =>
          Option.some.inj (((passed_of_ascending hcached hm).1 hkey).symm.trans hcandidate)
    · next hnone =>
      have hcontent := Table.contentAt_eq policy es entry.name
      rw [hentry, Option.bind_some, Option.bind_some, hid, Option.bind_some] at hcontent
      refine Discipline.safe_inquire_bind (q := .attributes dir.id entry.name)
        fun attributes hfound => ?_
      have hattributes : e.attributes = attributes := by
        have htold := Except.ok.inj ((hb.attributes entry.name).symm.trans hfound)
        rwa [hentry] at htold
      rw [hattributes] at hcontent
      cases attributes with
      | none =>
        -- the file is not complete
        exact (hmerge t₀ hvalid₀).mono fun merged _ _ hjoined => hjoined.skip hcontent hfiles
      | some attributes =>
        -- a node is made, because no cached child is this file
        have hothers := key_ne_of_unused hcached hfiles hcontent hnone
        have hmake : (sharing answers dir policy es).Keeps
            fun t => (t.make dir entry.id entry.name attributes).2 :=
          sharing_keeps (fun _ => rfl) fun t c hc => Tree.children?_make_of_children? hc ..
        refine Discipline.safe_workOn_bind hmake fun t₁ hvalid₁ _ => ?_
        refine Discipline.Safe.bind (Discipline.safe_holding (sharing_keeps (fun _ => rfl)
          fun _ _ hc => hc) (sharing_keeps (fun _ => rfl) fun _ _ hc => hc)
          fun t' hvalid' _ => hmerge _ hvalid') (fun merged _ _ hjoined => ?_) (hmake t₁ hvalid₁).1
        exact Discipline.safe_pure fun _ _ _ => hjoined.cons rfl hcontent
          fun m hm hkey => absurd hkey (hothers m hm)

/-- Dropping the entries of subtrees keeps to the discipline. -/
theorem safe_unregisterSubtrees (nodes : List Node) :
    (sharing answers dir policy es).Safe (fun _ _ => True) (.unregisterSubtrees nodes) t := by
  induction nodes generalizing t with
  | nil => exact Discipline.safe_pure fun _ _ _ => trivial
  | cons node rest ih =>
    refine Discipline.safe_look_bind fun t₀ hvalid₀ _ => ?_
    refine Discipline.Safe.andThen (Discipline.safe_require fun _ _ _ _ _ => trivial)
      (fun serials t₁ _ => ?_) hvalid₀
    refine Discipline.safe_workOn_bind (sharing_keeps (fun t => ?_) fun t c hc => ?_)
      fun _ _ _ => ih
    · rw [Tree.unregisterAll_eq]
    · rw [Tree.unregisterAll_eq]
      exact hc

/-- Installing the nodes for a listing of all entries keeps to the discipline. -/
theorem safe_installListing {entries : List Listed} {cached merged : List Node} {generation : Nat}
    (hentries : Ascending policy entries)
    (hcovers : ∀ e ∈ es, e.id.isSome = true →
      ∃ l ∈ entries, policy.key l.name = policy.key e.name)
    (hjoined : Joined policy es cached entries merged)
    (hsnapshot : Snapshot dir generation cached t) :
    (sharing answers dir policy es).Safe (fun _ _ => True)
      (.installListing cached merged generation) t := by
  have hlisted : ∀ name, (Table.contentAt policy es name).isSome = true →
      ∃ l ∈ entries, policy.key l.name = policy.key name :=
    fun _ => Tree.exists_listed_of_file hcovers
  refine Discipline.safe_alter_bind (.install merged generation) fun t' c hvalid hgrows hc => ?_
  obtain ⟨hpolicy, c', hc', hfaithful⟩ := hvalid
  obtain rfl : c = c' := Option.some.inj (hc.symm.trans hc')
  have hascending := Tree.ascending_of_sublist hentries hjoined.keys
  have hop : Children.Op.Admissible c.policy (.install merged generation) :=
    hfaithful.policy.symm ▸ hascending
  have hall : c.generation = generation → ∀ n ∈ c.present, n ∈ merged := by
    intro hgeneration n hn
    obtain ⟨c', hc', -, hcached⟩ := sharing_snapshot hgrows hsnapshot
    obtain rfl : c = c' := Option.some.inj (hc.symm.trans hc')
    obtain ⟨l, hl, hkey⟩ := hlisted n.name (by rw [hfaithful.content hn]; rfl)
    exact hjoined.reused n (hcached hgeneration ▸ hn) l hl hkey.symm
  have hmirrors : (c.ledger.apply (.install merged generation)).2.Mirrors es := by
    refine hfaithful.mirrors.install generation ?_ ?_
    · rw [hfaithful.ledger_policy]
      exact hjoined.sound
    · rw [hfaithful.ledger_policy]
      intro name hsome
      obtain ⟨l, hl, hkey⟩ := hlisted name hsome
      obtain ⟨n, hn, hkey'⟩ := hjoined.complete l hl (by rwa [Ledger.contentAt_congr hkey])
      exact ⟨n, hn, hkey'.trans hkey⟩
  obtain ⟨hvalid', hgrows'⟩ := sharing_change hpolicy hc hfaithful hop hmirrors
    (hfaithful.grown_install hascending hjoined.sound hall)
  refine ⟨_, (Children.apply_follows hfaithful.tidy hop).answer, hvalid', hgrows', ?_⟩
  split
  · refine Discipline.safe_workOn_bind (sharing_keeps (fun t => ?_) fun t c hc => ?_)
      fun _ _ _ => safe_unregisterSubtrees _
    · rw [Tree.foldl_register_eq]
    · rw [Tree.foldl_register_eq]
      exact hc
  · exact Discipline.safe_pure fun _ _ _ => trivial

/-- Listing a directory keeps to the discipline.

**Proof sketch.** The count is read before the cached children are. While it stays the same, so does
the array, and what was read as cached is what is cached. -/
theorem safe_refreshChildren (hb : answers.Tell policy dir.id es) :
    (sharing answers dir policy es).Safe (fun _ _ => True) (.refreshChildren dir) t := by
  have hhold : ∀ nodes, (sharing answers dir policy es).Keeps (·.hold nodes) := fun nodes =>
    sharing_keeps (fun _ => rfl) fun _ _ hc => hc
  have hrelease : ∀ nodes, (sharing answers dir policy es).Keeps (·.release nodes) := fun nodes =>
    sharing_keeps (fun _ => rfl) fun _ _ hc => hc
  refine safe_childrenOf_bind fun t₀ c₀ _ _ _ _ => ?_
  split
  · exact safe_childrenOf_bind fun _ _ _ _ _ _ => Discipline.safe_pure fun _ _ _ => trivial
  refine safe_childrenOf_bind fun t₁ c₁ _ hc₁ _ _ => ?_
  refine Discipline.safe_inquire_bind (q := .list dir.id) fun listing hlisting => ?_
  obtain ⟨told, htold, hiff⟩ := hb.list
  obtain rfl : told = listing := Except.ok.inj (htold.symm.trans hlisting)
  refine Discipline.safe_look_bind fun t₂ hvalid₂ hgrows₂ => ?_
  have hpolicy₂ : t₂.policy = policy := hvalid₂.1
  dsimp only
  rw [hpolicy₂]
  have hentries := Tree.ascending_sortedListing policy told
  have hlisted : ∀ l ∈ Tree.sortedListing policy told, ∃ e,
      Table.entryAt policy es l.name = some e ∧ e.id = some l.id := by
    intro l hl
    obtain ⟨e, he, hname, hid⟩ := (hiff l).mp (Tree.mem_of_mem_sortedListing hl)
    exact ⟨e, Table.entryAt_of_mem hb.distinct he (by rw [hname]), hid⟩
  have hcovers : ∀ e ∈ es, e.id.isSome = true →
      ∃ l ∈ Tree.sortedListing policy told, policy.key l.name = policy.key e.name := by
    intro e he hsome
    obtain ⟨id, hid⟩ := Option.isSome_iff_exists.mp hsome
    exact Tree.exists_mem_sortedListing ((hiff ⟨e.name, id⟩).mpr ⟨e, he, rfl, hid⟩)
  refine safe_childrenOf_bind fun t₃ c₃ _ hc₃ hfaithful hgrows₃ => ?_
  -- the count was read before these children were
  have hsnapshot : Snapshot dir c₁.generation c₃.present t₃ := by
    obtain ⟨c, hc, hgrown⟩ := (sharing answers dir policy es).trans hgrows₂ hgrows₃ c₁ hc₁
    obtain rfl : c = c₃ := Option.some.inj (hc.symm.trans hc₃)
    exact ⟨c, hc, hgrown.generation, fun _ => rfl⟩
  have hcached : Ascending policy c₃.present := hfaithful.policy ▸ hfaithful.tidy.ascending_present
  refine Discipline.safe_holding (hhold _) (hrelease _) fun t₄ hvalid₄ hgrows₄ => ?_
  have hsnapshot₄ : Snapshot dir c₁.generation c₃.present t₄ := sharing_snapshot hgrows₄ hsnapshot
  have hheld : Snapshot dir c₁.generation c₃.present (t₄.hold c₃.present) := hsnapshot₄
  have hmerging := (safe_mergeListing hb hentries hlisted hcached (fun n hn => hfaithful.content hn)
    (t := t₄.hold c₃.present) hvalid₄).remember hheld fun _ _ hgrows h => sharing_snapshot hgrows h
  refine hmerging.bind (fun merged t₅ hvalid₅ ⟨hjoined, hsnapshot₅⟩ => ?_) hvalid₄
  refine Discipline.Safe.andThen (Discipline.safe_holding (hhold _) (hrelease _)
    fun t₆ hvalid₆ hgrows₆ => ?_)
    (fun _ _ _ => Discipline.safe_pure fun _ _ _ => trivial) hvalid₅
  have hsnapshot₆ : Snapshot dir c₁.generation c₃.present t₆ :=
    sharing_snapshot hgrows₆ hsnapshot₅
  exact safe_installListing hentries hcovers hjoined hsnapshot₆

end Sharing

/-! ### Installed listings -/

section Installed

variable {t : Tree} {dir : Node} {listing : List Node}

/-- A listing has all children of a complete directory. -/
def Tree.CoveredBy (t : Tree) (dir : Node) (listing : List Node) : Prop :=
  ∃ c, t.children? dir = some c ∧ c.allLoaded = true ∧ ∀ n ∈ c.present, n ∈ listing

/-- A listing that was installed has all children of the directory, which is complete then. -/
theorem coveredBy_of_installed {op : Children.Op}
    (h : op.installed? (t.changed dir op).1 = some listing) :
    (t.changed dir op).2.CoveredBy dir listing := by
  cases op with
  | install nodes generation =>
    rw [Tree.changed] at *
    cases hc : t.children? dir with
    | none =>
      rw [hc] at h
      cases h
    | some c =>
      rw [hc] at h
      dsimp only at *
      have hanswer : (c.install nodes generation).1 = .ok true ∧ nodes = listing := by
        rw [Children.apply] at h
        cases hinstall : (c.install nodes generation).1 with
        | error broken =>
          rw [hinstall] at h
          cases h
        | ok installed =>
          rw [hinstall] at h
          cases installed with
          | false => cases h
          | true => exact ⟨rfl, Option.some.inj h⟩
      obtain ⟨hanswer, rfl⟩ := hanswer
      have hgeneration : ¬ c.generation ≠ generation := by
        intro hne
        rw [Children.install, if_pos hne] at hanswer
        cases hanswer
      refine ⟨_, Tree.children?_setChildren_self hc _, ?_⟩
      rw [Children.apply]
      rw [Children.install, if_neg hgeneration] at *
      rw [Children.publish_of_ok hanswer]
      refine ⟨rfl, fun n hn => ?_⟩
      rwa [Children.present, Zones.toArray_present, Zones.children_ofParts] at hn
  | _ => cases h

/-- A listing that a step installed has all children of the directory, which is complete then. -/
theorem coveredBy_of_advance {α : Type} {answers : Answers} {r : Routine α}
    (h : (r.advance answers dir t).2.2 = some listing) :
    (r.advance answers dir t).2.1.CoveredBy dir listing := by
  cases r with
  | change op next => exact coveredBy_of_installed h
  | _ => cases h

end Installed

/-! ### All clients -/

/-- The name that a client has looked up, and the node that it was answered. -/
def Client.found? : Client → Option (String × Node)
  | .lookup name (.done (.ok (.present n))) => some (name, n)
  | _ => none

/-- The name that one of the clients has looked up, and the node that it was answered. -/
def System.found? (s : System) (i : Nat) : Option (String × Node) :=
  s.clients[i]?.bind Client.found?

/-- All clients keep to the discipline, and each listing that was installed has all children. -/
structure System.Shared (s : System) (answers : Answers) (dir : Node) (policy : CasePolicy)
    (es : List TableEntry) : Prop where
  /-- All clients keep to the discipline. -/
  safe : (sharing answers dir policy es).AllSafe (Answered dir) s
  /-- Each listing that was installed has all children. -/
  installed : ∀ listing ∈ s.installed, s.tree.CoveredBy dir listing

namespace System

variable {answers : Answers} {dir : Node} {policy : CasePolicy} {es : List TableEntry} {s : System}
  {name : String} {n : Node}

/-- This stays so, whoever's turn it is. -/
theorem Shared.turn (h : s.Shared answers dir policy es) (i : Nat) :
    (s.turn answers dir i).Shared answers dir policy es := by
  obtain ⟨hgrows, hsafe⟩ := Discipline.allSafe_turn h.safe i
  have hold : ∀ listing ∈ s.installed, (s.turn answers dir i).tree.CoveredBy dir listing := by
    intro listing hlisting
    obtain ⟨c, hc, hloaded, hcovered⟩ := h.installed listing hlisting
    obtain ⟨c', hc', hgrown⟩ := hgrows c hc
    obtain ⟨hloaded', hsubset⟩ := hgrown.closed hloaded
    exact ⟨c', hc', hloaded', fun n hn => hcovered n (hsubset n hn)⟩
  refine ⟨hsafe, fun listing hlisting => ?_⟩
  have hnow : listing ∈ s.installed ∨ (s.turn answers dir i).tree.CoveredBy dir listing := by
    rw [System.turn] at *
    cases hclient : s.clients[i]? with
    | none =>
      rw [hclient] at hlisting
      exact .inl hlisting
    | some client =>
      rw [hclient] at hlisting
      rcases List.mem_append.mp hlisting with hlisting | hlisting
      · refine .inr ?_
        have hsome := Option.mem_toList.mp hlisting
        cases client with
        | lookup name rest => exact coveredBy_of_advance hsome
        | listing rest => exact coveredBy_of_advance hsome
      · exact .inl hlisting
  exact hnow.elim (hold listing) id

/-- This stays so under every schedule. -/
theorem Shared.run (h : s.Shared answers dir policy es) (schedule : List Nat) :
    (s.run answers dir schedule).Shared answers dir policy es := by
  induction schedule generalizing s with
  | nil => exact h
  | cons i schedule ih => exact ih (h.turn i)

/-- A node that a client was answered is known to have the name. -/
theorem Shared.knows (h : s.Shared answers dir policy es) {i : Nat}
    (hfound : s.found? i = some (name, n)) : s.tree.Knows dir name n := by
  obtain ⟨client, hclient, hfound⟩ := Option.bind_eq_some_iff.mp hfound
  have hsafe := h.safe.clients client (List.mem_of_getElem? hclient)
  unfold Client.found? at hfound
  split at hfound
  · cases hfound
    exact hsafe s.tree h.safe.valid ((sharing answers dir policy es).refl _) n rfl
  · cases hfound

/-- Clients that begin where nothing is known keep to the discipline. -/
theorem shared_start {t : Tree} {c : Children} (hb : answers.Tell t.policy dir.id es)
    (hc : t.children? dir = some c) (hpolicy : c.policy = t.policy) (hslots : c.slots = #[])
    (hloaded : c.allLoaded = false) (tasks : List Task) :
    (start t dir tasks).Shared answers dir t.policy es := by
  have htidy : c.Tidy := by
    have hempty := Children.tidy_empty c.policy
    unfold Children.Tidy at *
    rw [hslots, hloaded]
    exact hempty
  have hnothing : ∀ name, c.ledger.fact? name = none := by
    intro name
    show (c.slots.toList.find? _).map Slot.fact = none
    rw [hslots]
    rfl
  refine ⟨⟨⟨rfl, c, hc, hpolicy, htidy, Ledger.mirrors_of_nothing hnothing hloaded⟩, ?_⟩, nofun⟩
  intro client hclient
  obtain ⟨task, -, rfl⟩ := List.mem_map.mp hclient
  cases task with
  | lookup name => exact safe_lookup hb name
  | listing => exact safe_refreshChildren hb

/-- Racing operations share one node for each file. Any number of clients look names up in a
directory of which nothing is known, and list it, in steps that come in any order. The backend
always gives the same answers, which are told by entries of which no two have the same name.

Then the array never has two slots for a name. When a client was answered a node for a name, that
node is what the array has from then on for each spelling of the name; every client that is answered
a node for such a spelling is answered this one; and each listing that is installed, before or
afterwards, contains it.

The count of changes by which a listing knows that nothing was published meanwhile is a number without
a bound here. With a counter of 64 bits all this holds as long as fewer than `2 ^ 64` changes of the
directory are published while one listing is under way.

**Proof sketch.** Each step of a client leaves the array in agreement with the entries, and takes no
child away. An insertion leaves a child of the name alone, a listing is installed only if the count
of changes has not moved since before the cached children were read, and a complete array has all
files. So a node that was answered once stays in the array, and the children of a complete array
are those of each listing that was installed. -/
theorem nodes_shared {t : Tree} {c : Children} (hb : answers.Tell t.policy dir.id es)
    (hc : t.children? dir = some c) (hpolicy : c.policy = t.policy) (hslots : c.slots = #[])
    (hloaded : c.allLoaded = false) (tasks : List Task) (schedule : List Nat) :
    let s := (start t dir tasks).run answers dir schedule
    (∃ c, s.tree.children? dir = some c ∧
      c.slots.toList.Pairwise fun a b => t.policy.key (Named.name a) ≠ t.policy.key (Named.name b)) ∧
    ∀ i name n, s.found? i = some (name, n) → ∀ later : List Nat,
      let s' := s.run answers dir later
      (∃ c, s'.tree.children? dir = some c ∧ n ∈ c.present ∧
        ∀ name', t.policy.same name' name = true → isFileName name' = true →
          c.find name' = .present n) ∧
      (∀ j name' n', t.policy.same name' name = true → s'.found? j = some (name', n') → n' = n) ∧
      ∀ listing ∈ s'.installed, n ∈ listing := by
  intro s
  have hshared := (shared_start hb hc hpolicy hslots hloaded tasks).run schedule
  constructor
  · obtain ⟨-, c, hc, hfaithful⟩ := hshared.safe.valid
    refine ⟨c, hc, ?_⟩
    rw [← hfaithful.policy]
    exact Zones.Tidy.pairwise_key_ne hfaithful.tidy
  · intro i name n hfound later s'
    have hshared' := hshared.run later
    have hgrows := (Discipline.allSafe_run hshared.safe later).1
    obtain ⟨c, hc, hfact⟩ := sharing_knows hgrows (hshared.knows hfound)
    obtain ⟨-, c', hc', hfaithful⟩ := hshared'.safe.valid
    obtain rfl : c = c' := Option.some.inj (hc.symm.trans hc')
    have hsame : ∀ name', t.policy.same name' name = true →
        c.ledger.fact? name' = c.ledger.fact? name := by
      intro name' h
      refine Ledger.fact?_congr _ ?_
      rw [hfaithful.ledger_policy]
      exact CasePolicy.same_iff.mp h
    have hmem := (Tree.mem_present_of_fact? hfaithful.tidy hfact).1
    refine ⟨⟨c, hc, hmem, fun name' h hname => ?_⟩, fun j name' n' h hfound' => ?_,
      fun listing hlisting => ?_⟩
    · rw [Children.find_of_isFileName hfaithful.tidy hname, Ledger.answer_eq_present_iff,
        hsame name' h, hfact]
    · obtain ⟨c', hc', hfact'⟩ := hshared'.knows hfound'
      obtain rfl : c = c' := Option.some.inj (hc.symm.trans hc')
      rw [hsame name' h, hfact] at hfact'
      cases hfact'
      rfl
    · obtain ⟨c', hc', -, hcovered⟩ := hshared'.installed listing hlisting
      obtain rfl : c = c' := Option.some.inj (hc.symm.trans hc')
      exact hcovered n hmem

/-! ### Two lookups and two listings

A file is looked up under two spellings at once while the directory is listed, and then the
directory is listed again. -/

namespace Race

/-- The root of the tree. -/
def root : Node :=
  ⟨0, ⟨1, FileId.raw_one_ne_zero⟩, "root", none, { directory := true }⟩

/-- The node for the file, as the first lookup makes it. -/
def file : Node :=
  ⟨1, ⟨2, FileId.raw_two_ne_zero⟩, "Foo", some root.id, {}⟩

/-- The backend, which lists the file. -/
def table : Table :=
  ⟨.insensitive, [(root.id, [⟨"Foo", some file.id, some {}⟩])], [], []⟩

/-- The table is in order. -/
theorem orderly_table : table.Orderly root.id := by
  refine Table.orderly_of_single ?_ ?_ ?_ ?_ ?_
  · decide +kernel
  · exact List.pairwise_singleton _ _
  · simp
  · simp [root, file]
  · decide

/-- The tree at the beginning. -/
def tree : Tree :=
  .ofRoot .insensitive {} root.id "root"

/-- The clients, after the first three of them had their turns by rotation, and then the fourth. -/
def raced : System :=
  (start tree root [.lookup "foo", .lookup "FOO", .listing, .listing]).run table.answer root
    ((List.replicate 20 [0, 1, 2]).flatten ++ List.replicate 20 3)

/-- Both lookups answer the node that the first one made, and the second listing, which is the only
one that is installed, contains it. So does each listing that is installed later on. -/
theorem nodes_shared_twice :
    raced.found? 0 = some ("foo", file) ∧ raced.found? 1 = some ("FOO", file) ∧
      raced.installed = [[file]] ∧
      ∀ later, ∀ listing ∈ (raced.run table.answer root later).installed, file ∈ listing := by
  have hfound : raced.found? 0 = some ("foo", file) := by decide +kernel
  have hc : tree.children? root = some (Children.empty .insensitive) := rfl
  have hshared := nodes_shared (orderly_table.tell rfl) hc rfl rfl rfl
    [.lookup "foo", .lookup "FOO", .listing, .listing]
    ((List.replicate 20 [0, 1, 2]).flatten ++ List.replicate 20 3)
  exact ⟨hfound, by decide +kernel, by decide +kernel,
    fun later => (hshared.2 0 "foo" file hfound later).2.2⟩

end Race

end System

end LazyTree
