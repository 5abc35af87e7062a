import LazyTree.Proofs.SoundRegistry

set_option autoImplicit false

/-!
# Operations that leave the registry sound

While the backend is asked anything may happen, and the array that an operation changes afterwards
may be one that nothing leads to any more. As long as this is not so, every operation on an attached
directory leaves the registry sound, whatever the backend answers: what it registers is then attached,
and what it detaches loses its entries. There is one more condition. A child is removed by its name
and identity, but the entries that are dropped are those of the object that was given; so no other
object may have taken its place by then.

## Main definitions

* `LazyTree.Tree.Unreplaced` — no other object has taken the place of a child.
* `LazyTree.Tree.Respects` — what others must leave as it is while a question is open.
* `LazyTree.Tree.respectful` — others leave that as it is, and the registry sound.
* `LazyTree.Tree.Upheld` — an operation has left the registry sound.

## Main results

* `LazyTree.Tree.SoundAt.findChild`, `LazyTree.Tree.Sound.lookupNames`,
  `LazyTree.Tree.SoundAt.findChildById` — lookups leave the registry sound.
* `LazyTree.Tree.SoundAt.addChild`, `LazyTree.Tree.SoundAt.removeChild`,
  `LazyTree.Tree.SoundAt.clearChildren` — so do reports.
* `LazyTree.Tree.SoundAt.refreshAndFindChild`, `LazyTree.Tree.SoundAt.refreshChildren` — so do checks
  and listings.
-/

namespace LazyTree

namespace Tree

open TreeM

variable {t t' : Tree} {top dir n child : Node} {c : Children} {name : String}

/-- No other object is cached under the name and identity of a child. -/
def Unreplaced (t : Tree) (dir child : Node) : Prop :=
  ∀ n, t.fact? dir child.name = some (.present n) → n.id = child.id → n = child

/-- What others must leave as it is while an operation on a directory has a question open. -/
structure Respects (top : Node) (q : Query) (t t' : Tree) : Prop where
  /-- The directory of the operation stays attached, and so does the one that is asked about. -/
  attached : ∀ d, t.Attached d → (d = top ∨ q.directory? = some d.id) → t'.Attached d
  /-- No other object takes the place of a cached child whose attributes are asked for. -/
  unreplaced : ∀ d n, q = .attributes d.id n.name → t.Attached d →
    t.fact? d n.name = some (.present n) → t'.Unreplaced d n

/-- While a question of an operation on a directory is open, anything may happen that leaves the
registry sound, and these things as they are. The backend may answer anything, and may fail. -/
def respectful (top : Node) : World :=
  fun q t _ t' => Happens t t' ∧ (t.Sound → t'.Sound) ∧ Respects top q t t'

/-- An operation has left the registry sound and a directory attached, unless it came upon an endless
path. -/
def Upheld {α : Type} (dir : Node) (result : Except TreeError α) (t : Tree) : Prop :=
  (∀ id, result ≠ .error (.endless id)) → t.SoundAt dir

/-- What is upheld after a failure is so after the same failure of another operation. -/
theorem Upheld.of_error {α β : Type} {e : TreeError}
    (h : Upheld dir (.error e : Except TreeError α) t) :
    Upheld dir (.error e : Except TreeError β) t :=
  fun hended => h fun id hid => hended id (congrArg Except.error (Except.error.inj hid))

/-- Where others respect an operation, it goes on from a sound registry with any answer. -/
theorem SoundAt.ask {α : Type} {q : Query} {f : q.Reply → TreeM α}
    {post : Except TreeError α → Tree → Prop} (h : t.SoundAt dir)
    (hq : dir = top ∨ q.directory? = some dir.id)
    (herror : ∀ e t', t'.SoundAt dir → post (.error (.backend e)) t')
    (hok : ∀ reply t', Happens t t' → Respects top q t t' → t'.SoundAt dir →
      ((f reply).run t').Always (respectful top) post) :
    ((TreeM.ask q >>= f).run t).Always (respectful top) post := by
  refine always_ask_bind_iff.mpr ⟨?_, ?_⟩
  · rintro reply t' ⟨hhappens, hsound, hrespects⟩
    exact hok reply t' hhappens hrespects
      ⟨hsound h.sound, hrespects.attached dir h.attached hq⟩
  · rintro e t' ⟨-, hsound, hrespects⟩
    exact herror e t' ⟨hsound h.sound, hrespects.attached dir h.attached hq⟩

/-! ### Lookups -/

/-- What holds after a name of a directory was looked up: the registry is sound, the directory is
attached, and a child that was found is in its array. -/
structure Sought (dir : Node) (result : Except TreeError Lookup) (t : Tree) : Prop extends
    SoundAt t dir where
  /-- A child that was found is in the array. -/
  present : ∀ n, result = .ok (.present n) → ∃ c, t.children? dir = some c ∧ n ∈ c.present

/-- A lookup that found nothing has left the registry sound. -/
theorem SoundAt.sought (h : t.SoundAt dir) {result : Except TreeError Lookup}
    (hresult : ∀ n, result ≠ .ok (.present n)) : Sought dir result t :=
  ⟨h, fun n hn => absurd hn (hresult n)⟩

/-- Recording an answer of the backend leaves the registry sound. -/
theorem SoundAt.recordAnswer {w : World} (h : t.SoundAt dir)
    (hdir : (t.children? dir).isSome = true) (name query : String) (id : Option FileId)
    (attributes : Option Attributes) :
    ((recordAnswer dir name query id attributes).run t).Always w (Sought dir) := by
  obtain ⟨c, hc⟩ := Option.isSome_iff_exists.mp hdir
  have htidy := (h.sound.tidy dir c hc).2
  have hmissing : ((Tree.recordAnswer dir name query none none).run t).Always w (Sought dir) := by
    have hgains := Children.gains_insertAbsent htidy name
    obtain ⟨hafter, hc'⟩ := h.sound.gain h.attached hc (.insertAbsent name) trivial hgains nofun
    rw [run_recordAnswer_none h.sound.tidy hc]
    refine ⟨hafter, fun n hn => ⟨_, hc', hgains.keeps n ?_⟩⟩
    have hanswer : (c.ledger.insertAbsent name).1 = .present n := by
      refine Lookup.node?_ofKnowledge.mp ?_
      rw [Except.ok.inj hn]
      rfl
    exact (mem_present_of_fact? htidy (Ledger.insertAbsent_answered hanswer)).1
  cases id with
  | none => exact hmissing
  | some id =>
    cases attributes with
    | none => exact hmissing
    | some attributes =>
      have hmade : Made t (t.make dir id query attributes).2 := .make _ _ _ _ (.refl _)
      have h' := h.made hmade
      have hc' := hmade.children? hc
      have howns := owns_make t dir id query attributes
      rw [run_recordAnswer_found h.sound.tidy hc]
      generalize t.make dir id query attributes = made at *
      obtain ⟨child, t₁⟩ := made
      dsimp only at *
      have hgains := Children.gains_insertIfUnknown htidy child
      obtain ⟨hafter, hchildren⟩ := h'.sound.gain h'.attached hc' (.insertIfUnknown child) trivial
        hgains fun n hn => by
          have hknown := Ledger.insertIfUnknown_answered (Lookup.node?_ofKnowledge.mp hn)
          rcases Ledger.present_insertIfUnknown hknown with hold | ⟨rfl, -⟩
          · exact h'.sound.objects dir c n hc' (mem_present_of_fact? htidy hold).1
          · exact howns
      refine ⟨hafter, fun n hn => ⟨_, hchildren, hgains.answered n ?_⟩⟩
      rw [Except.ok.inj hn]
      rfl

/-- Asking for a name leaves the registry sound. -/
theorem SoundAt.askFor (h : t.SoundAt dir) (hdir : (t.children? dir).isSome = true)
    (name query : String) (policy : CasePolicy) :
    ((askFor dir name query policy).run t).Always (respectful top) (Sought dir) := by
  refine h.ask (.inr rfl) (fun e t' h' => h'.sought nofun) fun id t₁ h₁ _ hsound₁ => ?_
  have hdir₁ := (h₁.later h.sound.tidy).isSome dir hdir
  cases id with
  | none => exact hsound₁.recordAnswer hdir₁ name query none none
  | some id =>
    refine hsound₁.ask (.inr rfl) (fun e t' h' => h'.sought nofun)
      fun attributes t₂ h₂ _ hsound₂ => ?_
    exact hsound₂.recordAnswer ((h₂.later hsound₁.sound.tidy).isSome dir hdir₁) name query
      (some id) attributes

/-- A lookup leaves the registry sound. -/
theorem SoundAt.findChild (h : t.SoundAt dir) (name : String) (canonicalize : Bool) :
    ((findChild dir name canonicalize).run t).Always (respectful top) (Sought dir) := by
  rw [run_findChild]
  cases hc : t.children? dir with
  | none => exact h.sought nofun
  | some c =>
    have htidy := (h.sound.tidy dir c hc).2
    have hdir : (t.children? dir).isSome = true := by rw [hc]; rfl
    dsimp only
    split
    · next node hfound =>
      refine ⟨h, ?_⟩
      rintro n ⟨⟩
      split at hfound
      · next hname =>
        rw [Children.find_of_isFileName htidy hname] at hfound
        exact ⟨c, hc, (mem_present_of_fact? htidy (Ledger.answer_eq_present_iff.mp hfound)).1⟩
      · cases hfound
    · exact h.sought nofun
    · split
      · refine h.ask (.inr rfl) (fun e t' h' => h'.sought nofun) fun query t₁ h₁ _ hsound₁ => ?_
        exact hsound₁.askFor ((h₁.later h.sound.tidy).isSome dir hdir) name query t.policy
      · exact h.askFor hdir name name t.policy

/-- Looking a path up leaves the registry sound. -/
theorem Sound.lookupNames (h : t.Sound) (hdir : t.Attached dir) (names : List String) :
    ((lookupNames dir names).run t).Always (respectful top) fun _ t' => t'.Sound := by
  induction names generalizing dir t with
  | nil => exact h
  | cons name rest ih =>
    rw [Tree.lookupNames]
    split
    · have hheld : (t.hold [dir]).SoundAt dir := (SoundAt.mk h hdir).frame _
      rw [run_bind, Run.always_bind_iff, run_holding, Run.always_settle_iff]
      refine (hheld.findChild name _).mono fun result t' hfound => ?_
      have hreleased : (t'.release [dir]).SoundAt dir := hfound.toSoundAt.frame _
      cases result with
      | error e => exact hreleased.sound
      | ok answer =>
        cases answer with
        | absent => exact hreleased.sound
        | present next =>
          obtain ⟨c, hc, hn⟩ := hfound.present next rfl
          exact ih hreleased.sound (.child hreleased.attached hc hn)
    · exact h

/-- Looking for an identity leaves the registry sound. -/
theorem SoundAt.findChildById (h : t.SoundAt dir) (id : FileId) (cachedOnly : Bool) :
    ((findChildById dir id cachedOnly).run t).Always (respectful dir) fun _ t' => t'.SoundAt dir := by
  unfold Tree.findChildById childrenOf
  rw [run_bind, run_bind, run_get, Run.bind_done_ok]
  cases hc : t.children? dir with
  | none => exact h
  | some c =>
    rw [run_require_some, Run.bind_done_ok]
    split
    · exact h
    · split
      · exact h
      · refine h.ask (.inl rfl) (fun e t' h' => h') fun name t₁ _ _ hsound₁ => ?_
        cases name with
        | none => exact hsound₁
        | some name =>
          dsimp only
          rw [run_bind, Run.always_bind_iff]
          refine (hsound₁.findChild name false).mono fun result t' hfound => ?_
          cases result <;> exact hfound.toSoundAt

/-! ### Reports -/

/-- What is upheld does not depend on who holds objects. -/
theorem Upheld.frame {α : Type} {result : Except TreeError α} (h : Upheld dir result t)
    (held : List Nat) : Upheld dir result { t with held := held } :=
  fun hended => (h hended).frame held

/-- An operation upholds what it is followed by another one for, if that one does. -/
theorem upheld_bind {α β : Type} {w : World} {x : TreeM α} {f : α → TreeM β}
    (hx : (x.run t).Always w (Upheld dir))
    (hf : ∀ a t', t'.SoundAt dir → ((f a).run t').Always w (Upheld dir)) :
    ((x >>= f).run t).Always w (Upheld dir) := by
  rw [run_bind, Run.always_bind_iff]
  refine hx.mono fun result t' h => ?_
  cases result with
  | ok a => exact hf a t' (h nofun)
  | error e => exact h.of_error

/-- Holding objects for the time of an operation upholds what the operation does. -/
theorem upheld_holding {α : Type} {w : World} {nodes : List Node} {act : TreeM α}
    (h : (act.run (t.hold nodes)).Always w (Upheld dir)) :
    ((holding nodes act).run t).Always w (Upheld dir) := by
  rw [run_holding, Run.always_settle_iff]
  exact h.mono fun _ _ h' => h'.frame _

/-- Changing the array of an attached directory, registering new children and dropping the entries
of the subtrees of old ones upholds the registry. -/
theorem Sound.upheld_change {w : World} (h : t.Sound) (hdir : t.Attached dir)
    (hc : t.children? dir = some c) (op : Children.Op) (hop : op.Admissible c.policy)
    (hnew : ∀ n ∈ (c.apply op).2.present, t.Owns n) (added dropped : List Node)
    (hadded : ∀ n ∈ added, n ∈ (c.apply op).2.present)
    (hdropped : ∀ n ∈ c.present, n ∉ (c.apply op).2.present → n ∈ dropped) :
    ((unregisterSubtrees dropped).run
      (added.foldl register (t.setChildren dir (c.apply op).2))).Always w (Upheld dir) := by
  obtain ⟨result, registry, hrun⟩ := run_unregisterSubtrees dropped
    (added.foldl register (t.setChildren dir (c.apply op).2))
  rw [hrun]
  cases result with
  | ok _ => exact fun _ => (h.change hdir hc op hop hnew added dropped hadded hdropped hrun).1
  | error e =>
    obtain ⟨top, -, -, rfl⟩ := unregisterSubtrees_error hrun
    exact fun hended => absurd rfl (hended top.id)

/-- Reporting that a child came leaves the registry sound. -/
theorem SoundAt.addChild {w : World} (h : t.SoundAt dir) (hn : t.Owns n) :
    ((addChild dir n).run t).Always w fun _ t' => t'.SoundAt dir := by
  cases hc : t.children? dir with
  | none =>
    unfold Tree.addChild
    rw [run_bind, run_change, hc]
    exact h
  | some c =>
    have htidy := (h.sound.tidy dir c hc).2
    rw [run_addChild h.sound.tidy hc]
    refine (h.sound.gain h.attached hc (.insert n) trivial (Children.gains_insert htidy n) ?_).1
    rintro m ⟨⟩
    rcases Ledger.present_insert Ledger.insert_answered with hold | ⟨hsame, -⟩
    · exact h.sound.objects dir c _ hc (mem_present_of_fact? htidy hold).1
    · rwa [hsame]

/-- Reporting that a child went leaves the registry sound, if no other object has taken its place. -/
theorem SoundAt.removeChild {w : World} (h : t.SoundAt dir) (hchild : t.Unreplaced dir n) :
    ((removeChild dir n).run t).Always w (Upheld dir) := by
  cases hc : t.children? dir with
  | none =>
    unfold Tree.removeChild
    rw [run_bind, run_get, Run.bind_done_ok, run_bind, run_change, hc]
    exact fun _ => h
  | some c =>
    have htidy := (h.sound.tidy dir c hc).2
    have hop : Children.Op.Admissible c.policy (.remove n t.config.cacheRemovedNames) := trivial
    have hnew : ∀ m ∈ (c.apply (.remove n t.config.cacheRemovedNames)).2.present, t.Owns m := by
      intro m hm
      rw [Children.mem_present_apply htidy hop] at hm
      exact h.sound.objects dir c m hc ((mem_present_iff htidy).mpr (Ledger.present_remove hm))
    have hrun : (Tree.removeChild dir n).run t = _ := run_change_bind h.sound.tidy hc hop _
    rw [hrun]
    cases hremoved : (c.ledger.apply (.remove n t.config.cacheRemovedNames)).1 with
    | true =>
      -- what was removed is the given object itself, whose subtree loses its entries
      obtain ⟨kept, hfact, hid⟩ := Ledger.exists_of_remove hremoved
      obtain rfl := hchild kept (by rwa [fact?_of_children? hc]) hid
      obtain ⟨-, -, hothers⟩ := Children.known_after_remove htidy
        ((mem_present_iff htidy).mpr hfact) t.config.cacheRemovedNames
      refine upheld_bind (f := fun _ => pure true) (h.sound.upheld_change h.attached hc _ hop hnew
        [] [kept] nofun fun m hm hout => ?_) fun _ _ h' _ => h'
      by_contra hother
      exact hout (hothers m hm fun hsame => hother (List.mem_singleton.mpr hsame))
    | false =>
      have hgains : c.Gains (c.apply (.remove n t.config.cacheRemovedNames)).2 none :=
        Children.gains_of_ledger htidy _ hop (fun _ _ hm => Ledger.remove_keeps hremoved hm)
          (fun _ _ hm => .inl (Ledger.present_remove hm)) nofun
      exact fun _ => (h.sound.gain h.attached hc _ hop hgains nofun).1

/-- Forgetting the children leaves the registry sound. -/
theorem SoundAt.clearChildren {w : World} (h : t.SoundAt dir) :
    ((clearChildren dir).run t).Always w (Upheld dir) := by
  cases hc : t.children? dir with
  | none =>
    unfold Tree.clearChildren childrenOf
    rw [run_bind, run_bind, run_get, Run.bind_done_ok, hc]
    exact fun _ => h
  | some c =>
    have htidy := (h.sound.tidy dir c hc).2
    have hop : Children.Op.Admissible c.policy .clear := trivial
    have hheld : (t.hold c.present).SoundAt dir := h.frame _
    have hrun : (do Tree.change dir Children.clear
                    unregisterSubtrees c.present : TreeM Unit).run (t.hold c.present) = _ :=
      run_change_bind hheld.sound.tidy hc hop fun _ => unregisterSubtrees c.present
    have hnone : ∀ m, m ∉ (c.apply .clear).2.present := by
      intro m hm
      rw [Children.mem_present_apply htidy hop] at hm
      cases hm
    rw [Tree.clearChildren, run_childrenOf_bind hc]
    refine upheld_holding ?_
    rw [hrun]
    exact hheld.sound.upheld_change hheld.attached hc .clear hop
      (fun m hm => absurd hm (hnone m)) [] c.present (fun m hm => absurd hm List.not_mem_nil)
      fun m hm _ => hm

/-- Declaring the children to be all there are leaves the registry sound. -/
theorem SoundAt.markAllLoaded {w : World} (h : t.SoundAt dir) :
    ((markAllLoaded dir).run t).Always w fun _ t' => t'.SoundAt dir := by
  cases hc : t.children? dir with
  | none =>
    unfold Tree.markAllLoaded
    rw [run_change, hc]
    exact h
  | some c =>
    have hop : Children.Op.Admissible c.policy .markAllLoaded := trivial
    have hgains := Children.gains_markAllLoaded (h.sound.tidy dir c hc).2
    have hrun := run_change_of_tidy h.sound.tidy hc hop
    show ((Tree.change dir fun c => c.apply .markAllLoaded).run t).Always w _
    rw [hrun]
    exact (h.sound.gain h.attached hc .markAllLoaded hop hgains nofun).1

/-! ### Listings -/

/-- What holds after a listing was merged with the cached children of a directory: the registry is
sound, the directory is attached, and the nodes for the listing are objects of the tree. -/
structure Collected (t : Tree) (dir : Node) (result : Except TreeError (List Node)) (t' : Tree) :
    Prop extends SoundAt t' dir where
  /-- Objects have stayed objects. -/
  keeps : ∀ n, t.Owns n → t'.Owns n
  /-- The nodes for the listing are objects. -/
  owns : ∀ merged, result = .ok merged → ∀ n ∈ merged, t'.Owns n

/-- Merging that failed has left the registry sound. -/
theorem SoundAt.collected (h : t'.SoundAt dir) (hkeeps : ∀ n, t.Owns n → t'.Owns n) (e : TreeError) :
    t.Collected dir (.error e) t' :=
  ⟨h, hkeeps, nofun⟩

/-- What was merged after something else had happened was merged since then. -/
theorem Collected.since {t₀ : Tree} {result : Except TreeError (List Node)}
    (h : t.Collected dir result t') (hkeeps : ∀ n, t₀.Owns n → t.Owns n) :
    t₀.Collected dir result t' :=
  ⟨h.toSoundAt, fun n hn => h.keeps n (hkeeps n hn), h.owns⟩

/-- An object in front of the nodes for a listing makes one list with them. -/
theorem Collected.cons {merged : List Node} (h : t.Collected dir (.ok merged) t')
    (hn : t.Owns n) : t.Collected dir (.ok (n :: merged)) t' := by
  refine ⟨h.toSoundAt, h.keeps, ?_⟩
  rintro _ ⟨⟩
  exact List.forall_mem_cons.mpr ⟨h.keeps n hn, h.owns merged rfl⟩

/-- Merging a listing leaves the registry sound, and gives objects of the tree.

**Proof sketch.** By induction on the listing. A node that is made for an entry is an object, and
stays one while the entries behind are merged. -/
theorem SoundAt.mergeListing {cached : List Node} (h : t.SoundAt dir)
    (hcached : ∀ n ∈ cached, t.Owns n) (entries : List Listed) :
    ((mergeListing dir cached entries).run t).Always (respectful top) (t.Collected dir) := by
  induction entries generalizing t cached with
  | nil =>
    refine ⟨h, fun _ hn => hn, ?_⟩
    rintro _ ⟨⟩
    exact fun n hn => absurd hn List.not_mem_nil
  | cons entry rest ih =>
    obtain ⟨hcandidate, hlater⟩ := mem_of_passed t.policy cached entry
    rw [run_mergeListing_cons, mergeEntry]
    split
    · next node hnode =>
      -- a cached node is used again
      obtain ⟨hnode, -⟩ := Option.filter_eq_some_iff.mp hnode
      rw [run_bind, Run.always_bind_iff]
      refine (ih h fun n hn => hcached n (hlater n hn)).mono fun result t' hrest => ?_
      cases result with
      | error e => exact hrest.toSoundAt.collected hrest.keeps e
      | ok merged => exact hrest.cons (hcached node (hcandidate node hnode))
    · refine always_ask_bind_iff.mpr ⟨?_, ?_⟩
      · rintro reply t₁ ⟨hhappens, hsound, hrespects⟩
        have h₁ : t₁.SoundAt dir :=
          ⟨hsound h.sound, hrespects.attached dir h.attached (.inr rfl)⟩
        have hcached₁ : ∀ n ∈ (passed t.policy cached entry).2, t₁.Owns n :=
          fun n hn => hhappens.owns (hcached n (hlater n hn))
        cases reply with
        | none => exact (ih h₁ hcached₁).mono fun _ _ hrest => hrest.since fun _ => hhappens.owns
        | some attributes =>
          have hmade : Made t₁ ((t₁.make dir entry.id entry.name attributes).2.hold
              [(t₁.make dir entry.id entry.name attributes).1]) := .make _ _ _ _ (.held _ (.refl _))
          have hnew := owns_make t₁ dir entry.id entry.name attributes
          dsimp only
          rw [run_bind, run_newChild, Run.bind_done_ok, run_bind, run_holding, Run.always_bind_iff,
            Run.always_settle_iff]
          refine (ih (h₁.made hmade) fun n hn => hmade.owns (hcached₁ n hn)).mono
            fun result t' hrest => ?_
          have hkeeps : ∀ n, t.Owns n → t'.Owns n :=
            fun n hn => hrest.keeps n (hmade.owns (hhappens.owns hn))
          cases result with
          | error e =>
            exact ⟨hrest.toSoundAt.frame _, hkeeps, fun merged hmerged => by cases hmerged⟩
          | ok merged =>
            obtain ⟨hsound', -, howns⟩ := hrest.cons hnew
            exact ⟨hsound'.frame _, hkeeps, howns⟩
      · rintro e t₁ ⟨hhappens, hsound, hrespects⟩
        exact SoundAt.collected ⟨hsound h.sound, hrespects.attached dir h.attached (.inr rfl)⟩
          (fun _ => hhappens.owns) _

/-- Installing the nodes for a listing leaves the registry sound, if they are objects of the tree,
and the cached children are those of a directory that has the count of the listing. -/
theorem SoundAt.installListing {w : World} (h : t.SoundAt dir) (hc : t.children? dir = some c)
    {cached merged : List Node} {generation : Nat} (hascending : Ascending c.policy merged)
    (howns : ∀ n ∈ merged, t.Owns n)
    (hcached : c.generation = generation → c.present = cached) :
    ((installListing dir cached merged generation).run t).Always w (Upheld dir) := by
  by_cases hgeneration : c.generation = generation
  · obtain rfl := hcached hgeneration
    subst hgeneration
    have hop : Children.Op.Admissible c.policy (.install merged c.generation) := hascending
    have hpresent := Children.present_install (h.sound.tidy dir c hc).2 hascending
    have hrun : (Tree.installListing dir c.present merged c.generation).run t = _ :=
      run_change_bind h.sound.tidy hc hop _
    have hanswer : (c.ledger.apply (.install merged c.generation)).1 = true :=
      congrArg Prod.fst (if_neg (not_not_intro rfl))
    rw [hrun, hanswer, if_pos rfl, run_bind, run_modify, Run.bind_done_ok]
    refine h.sound.upheld_change h.attached hc _ hop (hpresent.symm ▸ howns) merged _
      (fun n hn => hpresent.symm ▸ hn) fun n hn hout => List.mem_filter.mpr ⟨hn, ?_⟩
    rw [Bool.not_eq_true', List.any_eq_false]
    intro m hm hserial
    obtain rfl := (howns m hm).eq_of_serial (h.sound.objects dir c n hc hn)
      (of_decide_eq_true hserial)
    exact hout (hpresent.symm ▸ hm)
  · have hop : Children.Op.Admissible c.policy (.install merged generation) := hascending
    have harray : (c.apply (.install merged generation)).2 = c :=
      congrArg Prod.snd (if_pos hgeneration)
    have hgains : c.Gains (c.apply (.install merged generation)).2 none := by
      rw [harray]
      exact ⟨fun _ hn => hn, fun _ hn => .inl hn, nofun⟩
    have hafter := (h.sound.gain h.attached hc _ hop hgains nofun).1
    rw [harray] at hafter
    rw [run_installListing_of_ne h.sound.tidy hc hascending cached hgeneration]
    exact fun _ => hafter

/-- Listing a directory leaves the registry sound.

**Proof sketch.** The listing is installed only if the directory has the count that it had at the
beginning. Then its array is the one that was read when the listing came, as its count has become
greater otherwise. So the cached children are those that are dropped. -/
theorem SoundAt.refreshChildren (h : t.SoundAt dir) :
    ((refreshChildren dir).run t).Always (respectful top) (Upheld dir) := by
  cases hc : t.children? dir with
  | none =>
    unfold Tree.refreshChildren childrenOf
    rw [run_bind, run_bind, run_get, Run.bind_done_ok, hc]
    exact fun _ => h
  | some c =>
    rw [Tree.refreshChildren, run_childrenOf_bind hc]
    split
    · exact fun _ => h
    refine h.ask (.inr rfl) (fun e t' h' _ => h') fun listing t₁ hhappens _ h₁ => ?_
    obtain ⟨hpolicy, htidy, c₁, hc₁, hcount⟩ := (stable_counted dir c t.policy).happens hhappens
      ⟨rfl, h.sound.tidy, c, hc, .inl rfl⟩
    rw [run_bind, run_get, Run.bind_done_ok, run_childrenOf_bind hc₁]
    generalize hlisting : sortedListing t₁.policy listing = entries
    refine upheld_holding ?_
    have hheld : (t₁.hold c₁.present).SoundAt dir := h₁.frame _
    have hcounted := stable_counted dir c₁ t₁.policy
    have hcounted₁ : t₁.policy = t₁.policy ∧ (t₁.hold c₁.present).Tidy ∧
        ∃ c', (t₁.hold c₁.present).children? dir = some c' ∧
          (c' = c₁ ∨ c₁.generation < c'.generation) := ⟨rfl, htidy, c₁, hc₁, .inl rfl⟩
    have hmerging : ((Tree.mergeListing dir c₁.present entries).run (t₁.hold c₁.present)).Always
        (respectful top) ((t₁.hold c₁.present).Collected dir) :=
      hheld.mergeListing (fun n hn => h₁.sound.objects dir c₁ n hc₁ hn) entries
    have hsorting := (hcounted.mergeListing_always dir entries c₁.present (t₁.hold c₁.present)
      hcounted₁).of_world fun q u reply u' (hw : respectful top q u reply u') hP =>
        hcounted.happens hw.1 hP
    rw [run_bind, Run.always_bind_iff]
    refine (hmerging.and hsorting).mono fun result t₂ hboth => ?_
    obtain ⟨hcollected, ⟨hpolicy₂, htidy₂, c₂, hc₂, hcount₂⟩, hkeys⟩ := hboth
    cases result with
    | error e => exact fun _ => hcollected.toSoundAt
    | ok merged =>
      have hascending : Ascending c₂.policy merged := by
        rw [(htidy₂ dir c₂ hc₂).1, hpolicy₂]
        exact ascending_of_sublist (hlisting ▸ ascending_sortedListing t₁.policy listing)
          (hkeys merged rfl)
      have hsame : c₂.generation = c.generation → c₂.present = c₁.present := by
        intro hgeneration
        rcases hcount₂ with rfl | hlt
        · rfl
        · rcases hcount with rfl | hlt' <;> omega
      have hheld₂ : (t₂.hold merged).SoundAt dir := hcollected.toSoundAt.frame _
      exact upheld_bind (f := fun _ => pure merged) (upheld_holding (hheld₂.installListing hc₂
        hascending (hcollected.owns merged rfl) hsame)) fun _ _ h' _ => h'

/-! ### Checks -/

/-- Adding a child that the backend has leaves the registry sound. -/
theorem SoundAt.materializeCreated (h : t.SoundAt dir) (name : String) :
    ((materializeCreated dir name).run t).Always (respectful top) fun _ t' => t'.SoundAt dir := by
  unfold Tree.materializeCreated
  split
  · exact h
  · refine h.ask (.inr rfl) (fun e t' h' => h') fun attributes t₁ _ _ h₁ => ?_
    cases attributes with
    | none => exact h₁
    | some attributes =>
      refine h₁.ask (.inr rfl) (fun e t' h' => h') fun spelling t₂ _ _ h₂ => ?_
      rw [run_bind, run_get, Run.bind_done_ok]
      refine h₂.ask (.inr rfl) (fun e t' h' => h') fun id t₃ _ _ h₃ => ?_
      cases id with
      | none => exact h₃
      | some id =>
        have hmade : Made t₃ (t₃.make dir id spelling attributes).2 := .make _ _ _ _ (.refl _)
        show ((newChild dir id spelling attributes >>= fun child =>
          some <$> Tree.addChild dir child).run t₃).Always (respectful top) _
        rw [run_bind, run_newChild, Run.bind_done_ok, run_map, Run.always_bind_iff]
        refine ((h₃.made hmade).addChild (owns_make t₃ dir id spelling attributes)).mono
          fun result t' h' => ?_
        cases result <;> exact h'

/-- Checking a cached child leaves the registry sound. -/
theorem SoundAt.recheck (h : t.SoundAt dir) (hc : t.children? dir = some c) (hn : n ∈ c.present) :
    ((recheck dir n).run t).Always (respectful top) (Upheld dir) := by
  have hfact : t.fact? dir n.name = some (.present n) := by
    rw [fact?_of_children? hc]
    exact (mem_present_iff (h.sound.tidy dir c hc).2).mp hn
  refine h.ask (.inr rfl) (fun e t' h' _ => h') fun attributes t₁ _ hrespects h₁ => ?_
  have hunreplaced := hrespects.unreplaced dir n rfl h.attached hfact
  cases attributes with
  | none => exact upheld_bind (h₁.removeChild hunreplaced) fun _ _ h' _ => h'
  | some attributes =>
    dsimp only
    split
    · exact fun _ => h₁
    · refine upheld_bind (h₁.removeChild hunreplaced) fun _ t' h' => ?_
      exact (h'.materializeCreated n.name).mono fun _ _ h'' _ => h''

/-- Looking a name up and checking the answer leaves the registry sound. -/
theorem SoundAt.refreshAndFindChild (h : t.SoundAt dir) (name : String) :
    ((refreshAndFindChild dir name).run t).Always (respectful top) (Upheld dir) := by
  unfold Tree.refreshAndFindChild
  rw [run_bind, Run.always_bind_iff]
  refine (h.findChild name true).mono fun result t' hsought => ?_
  have h' := hsought.toSoundAt
  cases result with
  | error e => exact fun _ => h'
  | ok answer =>
    cases answer with
    | absent => exact (h'.materializeCreated name).mono fun _ _ h'' _ => h''
    | present node =>
      obtain ⟨c, hc, hn⟩ := hsought.present node rfl
      have hheld : (t'.hold [node]).SoundAt dir := h'.frame _
      exact upheld_holding (hheld.recheck hc hn)

end Tree

end LazyTree
