import LazyTree.Proofs.SoundRegistry

set_option autoImplicit false

/-!
# Children that are bound to their directories

An array gets no children but those that it is offered: nodes that were made in the directory for
what the backend told, and nodes that were reported. So what binds such a node to its directory when
it is offered binds all children to their directories, if updates do not undo it. This is told here
once for all operations, for any such bond, and for any backend that tells only what the bond is
made for.

## Main definitions

* `LazyTree.Tree.Lasting` — a property that lasts while no array is offered a child.
* `LazyTree.Tree.Bond` — what binds children to directories, for good.
* `LazyTree.Tree.Bonded` — all children are bound to their directories.
* `LazyTree.Tree.Bond.Trusts` — a backend tells what the bond is made for.

## Main results

* `LazyTree.Tree.Bonded.change` — a change of an array keeps children bound, if the ones that it
  offers are bound to the directory.
* `LazyTree.Tree.Bonded.command` — so does every operation, if a child that is reported is bound,
  and if what is looked up without its spelling may have the name.
-/

namespace LazyTree

/-- A reply is given to a question in a world. -/
def World.Tells (w : World) (q : Query) (reply : q.Reply) : Prop :=
  ∃ t t', w q t (.ok reply) t'

namespace Tree

open TreeM

/-! ### What lasts while no child is offered -/

/-- A property of trees that lasts as long as no array is offered a child. -/
structure Lasting (P : Tree → Prop) : Prop where
  /-- Neither the registry nor the holders of objects matter. -/
  frame : ∀ (t : Tree) registry held, P t → P { t with registry := registry, held := held }
  /-- It stays so when an array is changed that is offered no child. -/
  change : ∀ (t : Tree) dir c (op : Children.Op), P t → t.children? dir = some c →
    op.Admissible c.policy → op.offered = [] → P (t.setChildren dir (c.apply op).2)

/-- What lasts is steady. -/
theorem Lasting.steady {P : Tree → Prop} (h : Lasting P) : Steady P where
  held t held ht := h.frame t t.registry held ht
  change dir op hoffered := keeps_change fun t c ht hc =>
    h.change t dir c op ht hc (Children.Op.admissible_of_offered hoffered c.policy) hoffered
  unregisterAll t serials ht := by
    rw [unregisterAll_eq]
    exact h.frame t _ t.held ht

/-! ### Bonds -/

/-- What binds children to their directories, in trees that are set in one way. A node that was made
in a directory, for an identity and under a name that it may have there, is bound to it; and updates
undo no bond. -/
structure Bond where
  /-- Whether case distinguishes names. -/
  policy : CasePolicy
  /-- What was chosen for the trees. -/
  config : TreeConfig
  /-- What has to be known of a directory. -/
  stands : Tree → Node → Prop
  /-- A child is bound to a directory. -/
  binds : Tree → Node → Node → Prop
  /-- The children that a directory may get, by their identity and name. -/
  names : FileId → FileId → String → Prop
  /-- What is known of a directory stays so. -/
  stands_update : ∀ {t t' dir}, Update t t' → stands t dir → stands t' dir
  /-- So do the bonds of directories. -/
  binds_update : ∀ {t t' dir n}, Update t t' → (t.children? dir).isSome = true → binds t dir n →
    binds t' dir n
  /-- As much is known of the children of a directory as of the directory. -/
  stands_child : ∀ {t dir n}, stands t dir → binds t dir n → stands t n
  /-- A node is bound to the directory that it was made in, whichever node stands for it. -/
  binds_make : ∀ {t dir id name}, (t.children? dir).isSome = true → stands t dir →
    names dir.id id name → ∀ attributes d, d.serial = dir.serial →
      binds (t.make dir id name attributes).2 d (t.make dir id name attributes).1

/-- A node is bound to a directory, whichever node stands for that. -/
def Bond.offers (B : Bond) (t : Tree) (dir n : Node) : Prop :=
  ∀ d, d.serial = dir.serial → B.binds t d n

/-- The tree is set as the bond says, and all children are bound to their directories. -/
structure Bonded (t : Tree) (B : Bond) : Prop where
  /-- All arrays are tidy. -/
  tidy : t.Tidy
  /-- Case distinguishes names or not, as the bond says. -/
  policy : t.policy = B.policy
  /-- The choices are those. -/
  config : t.config = B.config
  /-- The children are bound. -/
  binds : ∀ dir c n, t.children? dir = some c → n ∈ c.present → B.binds t dir n

/-- The children of a tree are bound, and a directory is known. -/
structure BondedAt (t : Tree) (B : Bond) (dir : Node) : Prop extends Bonded t B where
  /-- The directory is known. -/
  stands : B.stands t dir
  /-- It has an array. -/
  array : (t.children? dir).isSome = true

variable {B : Bond} {t t' : Tree} {dir n : Node} {c : Children}

/-! ### Updates -/

/-- An update that adds no child to any array keeps children bound. -/
theorem Bonded.update (h : t.Bonded B) (hupdate : Update t t')
    (hkept : ∀ d c' n, t'.children? d = some c' → n ∈ c'.present →
      ∃ c, t.children? d = some c ∧ n ∈ c.present) : t'.Bonded B := by
  obtain ⟨htidy, hlater⟩ := (stable_tidy t).update t t' hupdate ⟨h.tidy, .refl t⟩
  refine ⟨htidy, hlater.policy.trans h.policy, hlater.config.trans h.config,
    fun d c' n hc' hn => ?_⟩
  obtain ⟨c, hc, hn⟩ := hkept d c' n hc' hn
  exact B.binds_update hupdate (by rw [hc]; rfl) (h.binds d c n hc hn)

/-- Neither the registry nor the holders of objects matter. -/
theorem Bonded.frame (h : t.Bonded B) (registry : Registry) (held : List Nat) :
    ({ t with registry := registry, held := held } : Tree).Bonded B :=
  (h.update (.registry t registry) fun _ c _ hc hn => ⟨c, hc, hn⟩).update (.held _ held)
    fun _ c _ hc hn => ⟨c, hc, hn⟩

/-- Making nodes stand for their identities keeps children bound. -/
theorem Bonded.foldl_register (h : t.Bonded B) (nodes : List Node) :
    (nodes.foldl register t).Bonded B := by
  rw [foldl_register_eq]
  exact h.frame _ t.held

/-- Making an object keeps children bound. -/
theorem Bonded.make (h : t.Bonded B) (parent : Node) (id : FileId) (name : String)
    (attributes : Attributes) : (t.make parent id name attributes).2.Bonded B := by
  exact h.update (.make t parent id name attributes) fun d c n hc hn =>
    ⟨c, children?_of_make hc hn, hn⟩

/-- Saying that objects need a refresh keeps children bound. -/
theorem Bonded.foldl_setDirty (h : t.Bonded B) (dirty : Bool) (serials : List Nat) :
    (serials.foldl (setDirty · dirty) t).Bonded B := by
  induction serials generalizing t with
  | nil => exact h
  | cons serial rest ih =>
    exact ih (h.update (.dirty t dirty serial) fun d c n hc hn =>
      ⟨c, (children?_setDirty t d dirty serial).symm.trans hc, hn⟩)

/-- A change of an array keeps children bound, if those that it offers are bound to the directory.
-/
theorem Bonded.change (h : t.Bonded B) (hc : t.children? dir = some c) (op : Children.Op)
    (hop : op.Admissible c.policy) (hoffered : ∀ n ∈ op.offered, B.offers t dir n) :
    (t.setChildren dir (c.apply op).2).Bonded B := by
  obtain ⟨hcpolicy, hctidy⟩ := h.tidy dir c hc
  have hupdate : Update t _ := .change t dir c op hc (hcpolicy ▸ hop)
  obtain ⟨htidy, hlater⟩ := (stable_tidy t).update t _ hupdate ⟨h.tidy, .refl t⟩
  refine ⟨htidy, hlater.policy.trans h.policy, hlater.config.trans h.config,
    fun d cd n hcd hn => ?_⟩
  rw [children?_setChildren] at hcd
  split at hcd
  · next hserial =>
    -- whichever node stands for the directory, its children are old ones or offered
    obtain ⟨cd', hcd', rfl⟩ := Option.map_eq_some_iff.mp hcd
    have hd : t.children? d = some c := (children?_congr hserial.symm).trans hc
    refine B.binds_update hupdate (by rw [hcd']; rfl) ?_
    rcases Children.mem_present_or_offered hctidy hop hn with hold | hnew
    · exact h.binds d c n hd hold
    · exact hoffered n hnew d hserial.symm
  · exact B.binds_update hupdate (by rw [hcd]; rfl) (h.binds d cd n hcd hn)

/-- What is known of a directory stays so. -/
theorem Bond.stable_stands (B : Bond) (dir : Node) :
    Stable B.policy fun t => t.policy = B.policy ∧ B.stands t dir where
  policy _ h := h.1
  update t t' hupdate h := by
    refine ⟨?_, B.stands_update hupdate h.2⟩
    cases hupdate <;> exact h.1

/-- A node that is bound to a directory stays bound to it. -/
theorem Bond.stable_offers (B : Bond) (dir n : Node) : Stable B.policy fun t =>
    t.Tidy ∧ t.policy = B.policy ∧ (t.children? dir).isSome = true ∧ B.offers t dir n where
  policy _ h := h.2.1
  update := by
    rintro t t' hupdate ⟨htidy, hpolicy, harray, hoffers⟩
    obtain ⟨htidy', hlater⟩ := (stable_tidy t).update t t' hupdate ⟨htidy, .refl t⟩
    refine ⟨htidy', hlater.policy.trans hpolicy, hlater.isSome dir harray, fun d hd => ?_⟩
    refine B.binds_update hupdate ?_ (hoffers d hd)
    rwa [children?_congr hd]

namespace BondedAt

/-- An update that keeps children bound leaves what is known of a directory as it is. -/
theorem update (h : t.BondedAt B dir) (hupdate : Update t t') (hbonded : t'.Bonded B) :
    t'.BondedAt B dir :=
  ⟨hbonded, B.stands_update hupdate h.stands,
    ((stable_tidy t).update t t' hupdate ⟨h.tidy, .refl t⟩).2.isSome dir h.array⟩

/-- Neither the registry nor the holders of objects matter. -/
theorem frame (h : t.BondedAt B dir) (registry : Registry) (held : List Nat) :
    ({ t with registry := registry, held := held } : Tree).BondedAt B dir :=
  (h.update (.registry t registry) (h.toBonded.frame registry t.held)).update (.held _ held)
    (h.toBonded.frame registry held)

/-- Making an object keeps children bound. -/
theorem make (h : t.BondedAt B dir) (parent : Node) (id : FileId) (name : String)
    (attributes : Attributes) : (t.make parent id name attributes).2.BondedAt B dir :=
  h.update (.make t parent id name attributes) (h.toBonded.make parent id name attributes)

/-- A change of the array keeps children bound, if those that it offers are bound. -/
theorem change (h : t.BondedAt B dir) (hc : t.children? dir = some c) (op : Children.Op)
    (hop : op.Admissible c.policy) (hoffered : ∀ n ∈ op.offered, B.offers t dir n) :
    (t.setChildren dir (c.apply op).2).BondedAt B dir :=
  h.update (.change t dir c op hc ((h.tidy dir c hc).1 ▸ hop))
    (h.toBonded.change hc op hop hoffered)

/-- As much is known of the children as of the directory. -/
theorem stands_of_mem (h : t.BondedAt B dir) (hc : t.children? dir = some c)
    (hn : n ∈ c.present) : B.stands t n :=
  B.stands_child h.stands (h.binds dir c n hc hn)

/-- A node that is bound to the directory stays so after an update. -/
theorem offers_update (h : t.BondedAt B dir) (hn : B.offers t dir n) (hupdate : Update t t') :
    B.offers t' dir n :=
  fun d hd => B.binds_update hupdate ((children?_congr hd).symm ▸ h.array) (hn d hd)

/-- So it does whatever happens. -/
theorem offers_later (h : t.BondedAt B dir) (hn : B.offers t dir n) (hhappens : Happens t t') :
    B.offers t' dir n :=
  ((B.stable_offers dir n).happens hhappens ⟨h.tidy, h.policy, h.array, hn⟩).2.2.2

/-- The children of the directory are bound, whichever node stands for it. -/
theorem offers_of_mem (h : t.BondedAt B dir) (hc : t.children? dir = some c)
    (hn : n ∈ c.present) : B.offers t dir n :=
  fun d hd => h.binds d c n ((children?_congr hd).trans hc) hn

end BondedAt

/-- Children stay bound while no child is offered. -/
theorem lasting_bonded (B : Bond) : Lasting (·.Bonded B) where
  frame _ registry held h := h.frame registry held
  change _ _ _ _ h hc hop hnone := h.change hc _ hop fun n hn => by
    rw [hnone] at hn
    cases hn

/-- So they do with what is known of a directory. -/
theorem lasting_bondedAt (B : Bond) (n : Node) : Lasting fun t => t.BondedAt B n where
  frame _ registry held h := h.frame registry held
  change t dir c op h hc hop hnone :=
    h.update (.change t dir c op hc ((h.tidy dir c hc).1 ▸ hop))
      ((lasting_bonded B).change t dir c op h.toBonded hc hop hnone)

/-! ### Questions -/

/-- The backend tells what a bond is made for, and whatever happens while it is asked keeps children
bound. -/
structure Bond.Trusts (B : Bond) (w : World) : Prop where
  /-- Anything may happen that keeps children bound. -/
  happens : ∀ {q t reply t'}, w q t reply t' → Happens t t'
  /-- Children stay bound. -/
  bonded : ∀ {q t reply t'}, w q t reply t' → t.Bonded B → t'.Bonded B
  /-- The lines of a listing may have their names. -/
  list : ∀ {d listing}, w.Tells (.list d) listing → ∀ line ∈ listing, B.names d line.id line.name
  /-- So may an identity that was told for a spelling that was told. -/
  spelled : ∀ {d name query id}, w.Tells (.canonical d name) query →
    w.Tells (.resolve d query B.policy) (some id) → B.names d id query

/-- A name that is looked up without its spelling may be that of what is found. -/
def Bond.Sure (B : Bond) (w : World) (d : FileId) (name : String) : Prop :=
  ∀ id attributes, w.Tells (.resolve d name B.policy) (some id) →
    w.Tells (.attributes d name) (some attributes) → B.names d id name

section Questions

variable {w : World} (hw : B.Trusts w)
include hw

/-- What happens while the backend is asked keeps children bound, and what is known of a directory.
-/
theorem BondedAt.told (h : t.BondedAt B dir) {q : Query} {reply : Except BackendError q.Reply}
    (ht : w q t reply t') : t'.BondedAt B dir :=
  ⟨hw.bonded ht h.toBonded, ((B.stable_stands dir).happens (hw.happens ht)
    ⟨h.policy, h.stands⟩).2, ((hw.happens ht).later h.tidy).isSome dir h.array⟩

/-- An operation goes on from a tree with bound children with what the backend tells. -/
theorem BondedAt.ask {α : Type} {q : Query} {f : q.Reply → TreeM α}
    {post : Except TreeError α → Tree → Prop} (h : t.BondedAt B dir)
    (herror : ∀ e t', t'.BondedAt B dir → post (.error (.backend e)) t')
    (hok : ∀ reply t', Happens t t' → w.Tells q reply → t'.BondedAt B dir →
      ((f reply).run t').Always w post) :
    ((TreeM.ask q >>= f).run t).Always w post :=
  always_ask_bind_iff.mpr
    ⟨fun reply t' ht => hok reply t' (hw.happens ht) ⟨t, t', ht⟩ (h.told hw ht),
      fun e t' ht => herror e t' (h.told hw ht)⟩

/-- A property that updates keep is kept in this world. -/
theorem Bond.Trusts.stable {α : Type} {P : Tree → Prop} {act : TreeM α} (hP : Stable B.policy P)
    (hact : Keeps P act) (ht : P t) : (act.run t).Always w fun _ t' => P t' :=
  (hact t ht).of_world fun _ _ _ _ h => hP.happens (hw.happens h)

/-- What keeps children bound does so in this world. -/
theorem Bonded.keeps {α : Type} {act : TreeM α} (h : t.Bonded B) (hact : Keeps (·.Bonded B) act) :
    (act.run t).Always w fun _ t' => t'.Bonded B :=
  (hact t h).of_world fun _ _ _ _ ht => hw.bonded ht

/-- So does what keeps a directory known as well. -/
theorem BondedAt.keeps {α : Type} {act : TreeM α} (h : t.BondedAt B dir)
    (hact : Keeps (·.BondedAt B dir) act) :
    (act.run t).Always w fun _ t' => t'.BondedAt B dir :=
  (hact t h).of_world fun _ _ _ _ ht h' => h'.told hw ht

end Questions

/-! ### Lookups -/

/-- What holds after a lookup in a directory: the children are bound, and as much is known of a
child that was found as of the directory. -/
structure FoundBonded (B : Bond) (dir : Node) (result : Except TreeError Lookup) (t : Tree) :
    Prop where
  /-- The children are bound. -/
  bonded : t.Bonded B
  /-- The directory is known. -/
  stands : B.stands t dir
  /-- If the lookup did not fail, then the directory has an array. -/
  array : ∀ answer, result = .ok answer → (t.children? dir).isSome = true
  /-- A child that was found is known. -/
  child : ∀ n, result = .ok (.present n) → B.stands t n

/-- A lookup has found nothing. -/
theorem BondedAt.unfound (h : t.BondedAt B dir) {result : Except TreeError Lookup}
    (hresult : ∀ n, result ≠ .ok (.present n)) : FoundBonded B dir result t :=
  ⟨h.toBonded, h.stands, fun _ _ => h.array, fun n hn => absurd hn (hresult n)⟩

/-- A lookup has found a child of the array. -/
theorem BondedAt.found (h : t.BondedAt B dir) (hc : t.children? dir = some c) (hn : n ∈ c.present) :
    FoundBonded B dir (.ok (.present n)) t := by
  refine ⟨h.toBonded, h.stands, fun _ _ => h.array, ?_⟩
  rintro _ ⟨⟩
  exact h.stands_of_mem hc hn

section Lookups

variable {w : World} (h : t.BondedAt B dir)
include h

/-- Recording what was told of a name keeps children bound, if the directory may get a child of that
name. -/
theorem BondedAt.recordAnswer (name query : String) {id : Option FileId}
    {attributes : Option Attributes}
    (hnames : ∀ i a, id = some i → attributes = some a → B.names dir.id i query) :
    ((recordAnswer dir name query id attributes).run t).Always w (FoundBonded B dir) := by
  obtain ⟨c, hc⟩ := Option.isSome_iff_exists.mp h.array
  have htidy := (h.tidy dir c hc).2
  have hmissing : ((Tree.recordAnswer dir name query none none).run t).Always w
      (FoundBonded B dir) := by
    have hafter := h.change hc (.insertAbsent name) trivial nofun
    rw [run_recordAnswer_none h.tidy hc]
    refine ⟨hafter.toBonded, hafter.stands, fun _ _ => hafter.array, fun n hn => ?_⟩
    have hgains := Children.gains_insertAbsent htidy name
    have hanswer : (c.ledger.insertAbsent name).1 = .present n :=
      Lookup.node?_ofKnowledge.mp (by rw [Except.ok.inj hn]; rfl)
    exact hafter.stands_of_mem (children?_setChildren_self hc _)
      (hgains.keeps n (mem_present_of_fact? htidy (Ledger.insertAbsent_answered hanswer)).1)
  cases id with
  | none => exact hmissing
  | some id =>
    cases attributes with
    | none => exact hmissing
    | some attributes =>
      have hmade := h.make dir id query attributes
      have hc' := children?_make_of_children? hc dir id query attributes
      have hoffers : B.offers (t.make dir id query attributes).2 dir
          (t.make dir id query attributes).1 :=
        B.binds_make h.array h.stands (hnames id attributes rfl rfl) attributes
      rw [run_recordAnswer_found h.tidy hc]
      generalize t.make dir id query attributes = made at *
      obtain ⟨node, t₁⟩ := made
      dsimp only at *
      have hafter := hmade.change hc' (.insertIfUnknown node) trivial fun n hn =>
        List.mem_singleton.mp hn ▸ hoffers
      have hgains := Children.gains_insertIfUnknown htidy node
      rw [foldl_register_eq]
      have hlast := fun registry => hafter.frame registry t₁.held
      refine ⟨(hlast _).toBonded, (hlast _).stands, fun _ _ => (hlast _).array, fun n hn => ?_⟩
      refine (hlast _).stands_of_mem (children?_setChildren_self hc' _) (hgains.answered n ?_)
      rw [Except.ok.inj hn]
      rfl

section Told

variable (hw : B.Trusts w)
include hw

/-- Asking for a name under a spelling keeps children bound, if what is found may have that name. -/
theorem BondedAt.askFor (name : String) {query : String} (hsure : B.Sure w dir.id query) :
    ((askFor dir name query B.policy).run t).Always w (FoundBonded B dir) := by
  refine h.ask hw (fun e t' h' => h'.unfound nofun) fun id t₁ _ hid h₁ => ?_
  cases id with
  | none => exact h₁.recordAnswer name query nofun
  | some id =>
    refine h₁.ask hw (fun e t' h' => h'.unfound nofun) fun attributes t₂ _ hattributes h₂ => ?_
    refine h₂.recordAnswer name query ?_
    rintro _ a ⟨⟩ rfl
    exact hsure id a hid hattributes

end Told

end Lookups

section Operations

variable {w : World} (hw : B.Trusts w)
include hw

/-- A lookup keeps children bound, if it asks for spellings, or if what is found without them may
have the name. -/
theorem Bonded.findChild (h : t.Bonded B) (hdir : B.stands t dir) (name : String)
    (canonicalize : Bool) (hplain : (canonicalize && !B.policy.isSensitive) = false →
      isFileName name = true → B.Sure w dir.id name) :
    ((findChild dir name canonicalize).run t).Always w (FoundBonded B dir) := by
  rw [run_findChild, h.policy]
  cases hc : t.children? dir with
  | none => exact ⟨h, hdir, nofun, nofun⟩
  | some c =>
    have hat : t.BondedAt B dir := ⟨h, hdir, by rw [hc]; rfl⟩
    have htidy := (h.tidy dir c hc).2
    dsimp only
    cases hname : isFileName name with
    | false => exact hat.unfound nofun
    | true =>
      rw [if_pos rfl, Children.find_of_isFileName htidy hname]
      cases hknown : c.ledger.answer name with
      | present n =>
        exact hat.found hc (mem_present_of_fact? htidy (Ledger.answer_eq_present_iff.mp hknown)).1
      | absent => exact hat.unfound nofun
      | unknown =>
        dsimp only
        split
        · refine hat.ask hw (fun e t' h' => h'.unfound nofun) fun query t₁ _ hquery h₁ => ?_
          exact h₁.askFor hw name fun id _ hid _ => hw.spelled hquery hid
        · next hspelled =>
          exact hat.askFor hw name (hplain (Bool.not_eq_true _ ▸ hspelled) hname)

/-- Looking a path up keeps children bound. -/
theorem Bonded.lookupNames (h : t.Bonded B) (hdir : B.stands t dir)
    (hplain : (B.config.canonicalizeNames && !B.policy.isSensitive) = false →
      ∀ d name, isFileName name = true → B.Sure w d name) (names : List String) :
    ((lookupNames dir names).run t).Always w fun _ t' => t'.Bonded B := by
  induction names generalizing dir t with
  | nil => exact h
  | cons name rest ih =>
    rw [Tree.lookupNames]
    split
    · have hheld : (t.hold [dir]).Bonded B := h.frame t.registry _
      have hfound : ((Tree.lookup dir name).run (t.hold [dir])).Always w (FoundBonded B dir) :=
        hheld.findChild hw (B.stands_update (.held t _) hdir) name _
          fun hspelled hname => hplain (hheld.config ▸ hspelled) dir.id name hname
      rw [run_bind, run_holding, Run.always_bind_iff, Run.always_settle_iff]
      refine hfound.mono fun result t' hafter => ?_
      have hreleased : (t'.release [dir]).Bonded B := hafter.bonded.frame t'.registry _
      cases result with
      | error e => exact hreleased
      | ok answer =>
        cases answer with
        | absent => exact hreleased
        | present next =>
          exact ih hreleased (B.stands_update (.held t' _) (hafter.child next rfl))
    · exact h

/-- Looking for an identity keeps children bound, if what is found under its name may have that
name. -/
theorem Bonded.findChildById (h : t.Bonded B) (hdir : B.stands t dir) (id : FileId)
    {cachedOnly : Bool} (hplain : cachedOnly = false → ∀ name, w.Tells (.nameOf id) (some name) →
      isFileName name = true → B.Sure w dir.id name) :
    ((findChildById dir id cachedOnly).run t).Always w fun _ t' => t'.Bonded B := by
  unfold Tree.findChildById
  cases hc : t.children? dir with
  | none =>
    rw [run_childrenOf_bind_none hc]
    exact h
  | some c =>
    have hat : t.BondedAt B dir := ⟨h, hdir, by rw [hc]; rfl⟩
    rw [run_childrenOf_bind hc]
    split
    · exact h
    · cases cachedOnly with
      | true => exact h
      | false =>
        refine hat.ask hw (fun e t' h' => h'.toBonded) fun known t' _ hknown h' => ?_
        cases known with
        | none => exact h'.toBonded
        | some name =>
          exact always_then ((h'.findChild hw h'.stands name false fun _ hname =>
            hplain rfl name hknown hname).mono fun _ _ hfound => hfound.bonded) fun _ _ h'' => h''

/-! ### Checks -/

omit hw in
/-- Reporting that a child came keeps children bound, if it is bound. -/
theorem Bonded.addChild (h : t.Bonded B) (hn : B.offers t dir n) :
    ((addChild dir n).run t).Always w fun _ t' => t'.Bonded B := by
  cases hc : t.children? dir with
  | none =>
    unfold Tree.addChild
    rw [run_bind, run_change, hc]
    exact h
  | some c =>
    rw [run_addChild h.tidy hc]
    have hchanged := h.change hc (.insert n) trivial fun m hm => List.mem_singleton.mp hm ▸ hn
    exact hchanged.foldl_register [(c.ledger.insert n).1]

/-- Adding a child that the backend has keeps children bound. -/
theorem BondedAt.materializeCreated (h : t.BondedAt B dir) (name : String) :
    ((materializeCreated dir name).run t).Always w fun _ t' => t'.Bonded B := by
  unfold Tree.materializeCreated
  split
  · exact h.toBonded
  · refine h.ask hw (fun e t' h' => h'.toBonded) fun attributes t₁ _ _ h₁ => ?_
    cases attributes with
    | none => exact h₁.toBonded
    | some attributes =>
      refine h₁.ask hw (fun e t' h' => h'.toBonded) fun spelling t₂ _ hspelling h₂ => ?_
      rw [run_bind, run_get, Run.bind_done_ok, h₂.policy]
      refine h₂.ask hw (fun e t' h' => h'.toBonded) fun id t₃ _ hid h₃ => ?_
      cases id with
      | none => exact h₃.toBonded
      | some id =>
        have hadded := (h₃.toBonded.make dir id spelling attributes).addChild (w := w)
          (B.binds_make h₃.array h₃.stands (hw.spelled hspelling hid) attributes)
        show ((newChild dir id spelling attributes >>= fun child =>
          some <$> Tree.addChild dir child).run t₃).Always w _
        rw [run_bind, run_newChild, Run.bind_done_ok]
        exact always_then (f := fun child => pure (some child)) hadded fun _ _ h' => h'

/-- Checking a cached child keeps children bound. -/
theorem BondedAt.recheck (h : t.BondedAt B dir) (n : Node) :
    ((recheck dir n).run t).Always w fun _ t' => t'.Bonded B := by
  refine h.ask hw (fun e t' h' => h'.toBonded) fun attributes t₁ _ _ h₁ => ?_
  cases attributes with
  | none =>
    have hremoved := h₁.toBonded.keeps hw ((lasting_bonded B).steady.removeChild dir n)
    exact always_then hremoved fun _ _ h' => h'
  | some attributes =>
    dsimp only
    split
    · exact h₁.toBonded
    · rw [run_bind, Run.always_bind_iff]
      have hremoved := h₁.keeps hw ((lasting_bondedAt B dir).steady.removeChild dir n)
      refine hremoved.mono fun result t' h' => ?_
      cases result with
      | error e => exact h'.toBonded
      | ok removed => exact h'.materializeCreated hw n.name

/-- Looking a name up and checking the answer keeps children bound. -/
theorem Bonded.refreshAndFindChild (h : t.Bonded B) (hdir : B.stands t dir) (name : String)
    (hplain : B.policy.isSensitive = true → isFileName name = true → B.Sure w dir.id name) :
    ((refreshAndFindChild dir name).run t).Always w fun _ t' => t'.Bonded B := by
  have hfound := h.findChild hw hdir name true fun hspelled =>
    hplain (by simpa using hspelled)
  unfold Tree.refreshAndFindChild
  rw [run_bind, Run.always_bind_iff]
  refine hfound.mono fun result t' hafter => ?_
  cases result with
  | error e => exact hafter.bonded
  | ok answer =>
    have hat : t'.BondedAt B dir := ⟨hafter.bonded, hafter.stands, hafter.array answer rfl⟩
    cases answer with
    | absent => exact hat.materializeCreated hw name
    | present node =>
      show ((holding [node] (Tree.recheck dir node)).run t').Always w _
      rw [run_holding, Run.always_settle_iff]
      have hheld : (t'.hold [node]).BondedAt B dir := hat.frame t'.registry _
      exact (hheld.recheck hw node).mono fun _ t'' h'' => h''.frame t''.registry _

end Operations

/-! ### Listings -/

/-- What holds after a listing was merged: the children are bound, and so are the nodes for the
listing. -/
structure MergedBonded (B : Bond) (dir : Node) (result : Except TreeError (List Node)) (t : Tree) :
    Prop extends BondedAt t B dir where
  /-- The nodes are bound. -/
  offers : ∀ merged, result = .ok merged → ∀ n ∈ merged, B.offers t dir n

/-- Where merging ends in an error, there is nothing to say of nodes. -/
theorem BondedAt.unmerged (h : t.BondedAt B dir) (e : TreeError) :
    MergedBonded B dir (.error e) t := by
  refine ⟨h, ?_⟩
  rintro _ ⟨⟩

/-- Who holds objects does not matter. -/
theorem MergedBonded.frame {result : Except TreeError (List Node)} (h : MergedBonded B dir result t)
    (held : List Nat) : MergedBonded B dir result { t with held := held } :=
  ⟨h.toBondedAt.frame t.registry held, fun merged hresult n hn =>
    h.toBondedAt.offers_update (h.offers merged hresult n hn) (.held t held)⟩

section Listings

variable {w : World} (hw : B.Trusts w)
include hw

/-- A bound node in front of the nodes for a listing makes one list with them. -/
theorem mergedBonded_cons {act : TreeM (List Node)} (h : t.BondedAt B dir)
    (hn : B.offers t dir n)
    (hstays : ∀ {P : Tree → Prop}, Stable B.policy P → Keeps P act)
    (hact : (act.run t).Always w (MergedBonded B dir)) :
    ((do return n :: (← act) : TreeM (List Node)).run t).Always w (MergedBonded B dir) := by
  have hoffers := hw.stable (B.stable_offers dir n) (hstays (B.stable_offers dir n))
    ⟨h.tidy, h.policy, h.array, hn⟩
  rw [run_bind, Run.always_bind_iff]
  refine (hact.and hoffers).mono fun result t' hboth => ?_
  obtain ⟨hmerged, -, -, -, hn'⟩ := hboth
  cases result with
  | error e => exact hmerged.toBondedAt.unmerged e
  | ok merged =>
    refine ⟨hmerged.toBondedAt, ?_⟩
    rintro _ ⟨⟩
    exact List.forall_mem_cons.mpr ⟨hn', hmerged.offers merged rfl⟩

/-- Merging a listing keeps children bound, and gives nodes that are bound to the directory.

**Proof sketch.** By induction on the listing. A cached node that is used again is bound already,
and a node that is made for an entry is bound as the directory may get it. Either stays bound while
the entries behind are merged. -/
theorem BondedAt.mergeListing {cached : List Node} (h : t.BondedAt B dir)
    (hcached : ∀ n ∈ cached, B.offers t dir n) {entries : List Listed}
    (hentries : ∀ e ∈ entries, B.names dir.id e.id e.name) :
    ((mergeListing dir cached entries).run t).Always w (MergedBonded B dir) := by
  induction entries generalizing t cached with
  | nil =>
    refine ⟨h, ?_⟩
    rintro _ ⟨⟩
    exact fun n hn => absurd hn List.not_mem_nil
  | cons entry rest ih =>
    obtain ⟨hentry, hrest⟩ := List.forall_mem_cons.mp hentries
    obtain ⟨hcandidate, hlater⟩ := mem_of_passed t.policy cached entry
    have hmerging : ∀ {P : Tree → Prop}, Stable B.policy P →
        Keeps P (Tree.mergeListing dir (passed t.policy cached entry).2 rest) :=
      fun hP t ht => (hP.mergeListing_always dir rest _ t ht).mono fun _ _ h => h.1
    rw [run_mergeListing_cons, mergeEntry]
    split
    · next node hnode =>
      -- a cached node is used again
      obtain ⟨hnode, -⟩ := Option.filter_eq_some_iff.mp hnode
      exact mergedBonded_cons hw h (hcached node (hcandidate node hnode)) hmerging
        (ih h (fun n hn => hcached n (hlater n hn)) hrest)
    · refine h.ask hw (fun e t' h' => h'.unmerged _) fun attributes t₁ hhappens _ h₁ => ?_
      have hcached₁ : ∀ n ∈ (passed t.policy cached entry).2, B.offers t₁ dir n :=
        fun n hn => h.offers_later (hcached n (hlater n hn)) hhappens
      cases attributes with
      | none => exact ih h₁ hcached₁ hrest
      | some attributes =>
        have h₂ := h₁.make dir entry.id entry.name attributes
        have hnew : B.offers (t₁.make dir entry.id entry.name attributes).2 dir
            (t₁.make dir entry.id entry.name attributes).1 :=
          B.binds_make h₁.array h₁.stands hentry attributes
        have hcached₂ : ∀ n ∈ (passed t.policy cached entry).2,
            B.offers (t₁.make dir entry.id entry.name attributes).2 dir n :=
          fun n hn => h₁.offers_update (hcached₁ n hn) (.make t₁ dir entry.id entry.name attributes)
        dsimp only
        rw [run_bind, run_newChild, Run.bind_done_ok]
        generalize t₁.make dir entry.id entry.name attributes = made at *
        obtain ⟨node, t₂⟩ := made
        have hrest : ((holding [node] (Tree.mergeListing dir (passed t.policy cached entry).2
            rest)).run t₂).Always w (MergedBonded B dir) := by
          rw [run_holding, Run.always_settle_iff]
          exact (ih (h₂.frame t₂.registry _)
            (fun n hn => h₂.offers_update (hcached₂ n hn) (.held t₂ _)) hrest).mono
              fun _ t' hmerged => hmerged.frame (t'.release [node]).held
        exact mergedBonded_cons hw h₂ hnew (fun hP => hP.firm.holding [node] (hmerging hP)) hrest

/-- Installing nodes keeps children bound, if they are bound. -/
theorem BondedAt.installListing (h : t.BondedAt B dir) (cached : List Node) {merged : List Node}
    (hascending : Ascending B.policy merged) (hmerged : ∀ n ∈ merged, B.offers t dir n)
    (generation : Nat) : ((installListing dir cached merged generation).run t).Always w
      fun _ t' => t'.Bonded B := by
  obtain ⟨c, hc⟩ := Option.isSome_iff_exists.mp h.array
  have hop : Children.Op.Admissible c.policy (.install merged generation) := by
    rw [(h.tidy dir c hc).1, h.policy]
    exact hascending
  have hchanged := h.toBonded.change hc (.install merged generation) hop hmerged
  have hrun : (Tree.installListing dir cached merged generation).run t = _ :=
    run_change_bind h.tidy hc hop _
  rw [hrun]
  split
  · exact (hchanged.foldl_register merged).keeps hw ((lasting_bonded B).steady.unregisterSubtrees _)
  · exact hchanged

/-- Listing a directory keeps children bound. -/
theorem Bonded.refreshChildren (h : t.Bonded B) (hdir : B.stands t dir) :
    ((refreshChildren dir).run t).Always w fun _ t' => t'.Bonded B := by
  refine always_refreshChildren (fun t held h => h.frame t.registry held) h
    (fun _ _ ht => hw.bonded ht h) fun c listing t₁ c₁ hc ht hc₁ => ?_
  have hat : t.BondedAt B dir := ⟨h, hdir, by rw [hc]; rfl⟩
  have h₁ := hat.told hw ht
  have hheld : (t₁.hold c₁.present).BondedAt B dir := h₁.frame t₁.registry _
  rw [h₁.policy]
  have hmerging : ((Tree.mergeListing dir c₁.present (sortedListing B.policy listing)).run
      (t₁.hold c₁.present)).Always w (MergedBonded B dir) :=
    hheld.mergeListing hw (fun n hn => hheld.offers_of_mem hc₁ hn)
      fun e he => hw.list ⟨t, t₁, ht⟩ e (mem_of_mem_sortedListing he)
  have hsorting := ((B.stable_stands dir).mergeListing_always dir (sortedListing B.policy listing)
    c₁.present _ ⟨hheld.policy, hheld.stands⟩).of_world
      fun q u reply u' (ht : w q u reply u') => (B.stable_stands dir).happens (hw.happens ht)
  refine (hmerging.and hsorting).mono fun result t₂ hboth => ?_
  obtain ⟨hmerged, -, hkeys⟩ := hboth
  refine ⟨hmerged.toBonded, fun merged hresult => ?_⟩
  have hascending : Ascending B.policy merged :=
    ascending_of_sublist (ascending_sortedListing B.policy listing) (hkeys merged hresult)
  have hheld₂ : (t₂.hold merged).BondedAt B dir := hmerged.toBondedAt.frame t₂.registry _
  exact hheld₂.installListing hw c₁.present hascending (fun n hn =>
    hmerged.toBondedAt.offers_update (hmerged.offers merged hresult n hn) (.held t₂ _)) c.generation

end Listings

/-! ### All operations -/

/-- Every operation keeps children bound, on two conditions. A child that is reported has to be
bound. And what is found under a name without asking for its spelling may have that name: for all
names if spellings are not asked for at all, and otherwise for the name of an identity that is
searched. -/
theorem Bonded.command {w : World} (hw : B.Trusts w) (h : t.Bonded B) (handles : Handles)
    {on : Operands} (hdir : B.stands t on.dir) {command : Command}
    (hadded : command = .addChild → B.offers t on.dir on.child)
    (hplain : (B.config.canonicalizeNames && !B.policy.isSensitive) = false →
      ∀ d name, isFileName name = true → B.Sure w d name)
    (hsearched : ∀ source id, command = .findChildById source false →
      source.resolve handles = .ok id → ∀ name, w.Tells (.nameOf id) (some name) →
        isFileName name = true → B.Sure w on.dir.id name) :
    ((command.run handles on).run t).Always w fun _ t' => t'.Bonded B := by
  have hmap : ∀ {α β : Type} {act : TreeM α} (f : α → β),
      (act.run t).Always w (fun _ t' => t'.Bonded B) →
      ((f <$> act).run t).Always w fun _ t' => t'.Bonded B :=
    fun f hact => always_then (f := fun a => pure (f a)) hact fun _ _ h' => h'
  cases command with
  | lookup name =>
    have hfound : ((Tree.lookup on.dir name).run t).Always w (FoundBonded B on.dir) :=
      h.findChild hw hdir name t.config.canonicalizeNames
        fun hspelled hname => hplain (h.config ▸ hspelled) on.dir.id name hname
    exact hmap _ (hfound.mono fun _ _ hfound => hfound.bonded)
  | lookupPath path => exact hmap _ (h.lookupNames hw hdir hplain _)
  | cached name => exact h.keeps hw (.map _ (keeps_findCached on.dir name))
  | children => exact h.keeps hw (.map _ (.bind (keeps_childrenOf on.dir) fun _ => .pure _))
  | refreshChildren => exact hmap _ (h.refreshChildren hw hdir)
  | newChild raw name attributes =>
    simp only [Command.run]
    split
    · exact h
    · exact hmap _ (h.make _ _ _ _)
  | addChild => exact hmap _ (h.addChild (hadded rfl))
  | removeChild =>
    exact h.keeps hw (.map _ ((lasting_bonded B).steady.removeChild on.dir on.child))
  | clearChildren => exact h.keeps hw (.map _ ((lasting_bonded B).steady.clearChildren on.dir))
  | markAllLoaded =>
    exact h.keeps hw (.map _ ((lasting_bonded B).steady.change on.dir .markAllLoaded rfl))
  | absentNames => exact h.keeps hw (.map _ (.bind (keeps_childrenOf on.dir) fun _ => .pure _))
  | findChildById source cachedOnly =>
    simp only [Command.run]
    split
    · exact h
    · next id hid =>
      refine hmap _ (h.findChildById hw hdir id ?_)
      rintro rfl
      exact hsearched source id rfl hid
  | refreshAndFindChild name =>
    refine hmap _ (h.refreshAndFindChild hw hdir name fun hsensitive =>
      hplain (by rw [hsensitive, Bool.not_true, Bool.and_false]) on.dir.id name)
  | pathOf =>
    refine h.keeps hw (.map _ (.bind .get fun t => ?_))
    split
    · exact .pure _
    · exact .fail _
  | node raw =>
    simp only [Command.run]
    split
    · exact h
    · exact h.keeps hw (.bind .get fun _ => .pure _)
  | mark dirty =>
    exact h.keeps hw (.map _ (.modify fun _ h' => h'.foldl_setDirty dirty [on.node.serial]))
  | markRecursively =>
    exact h.keeps hw (.map _ (.bind .get fun _ => .bind (.require _ _) fun serials =>
      .modify fun _ h' => h'.foldl_setDirty true serials))
  | info => exact h
  | treeInfo => exact h.keeps hw (.bind .get fun _ => .pure _)
  | drop handle => exact h

/-! ### The tree before anything happened -/

/-- Nothing is cached in a tree that holds nothing but its root. -/
theorem present_of_ofRoot {policy : CasePolicy} {config : TreeConfig} {root : FileId}
    {name : String} (hc : (ofRoot policy config root name).children? dir = some c) :
    c.present = [] := by
  unfold children? cell? ofRoot freshCell at hc
  rcases hserial : dir.serial with _ | serial
  · rw [hserial] at hc
    cases hc
    exact Children.present_empty policy
  · rw [hserial] at hc
    cases hc

/-- The children of a tree that holds nothing but its root are bound. -/
theorem bonded_ofRoot (B : Bond) (root : FileId) (name : String) :
    (ofRoot B.policy B.config root name).Bonded B := by
  refine ⟨tidy_ofRoot B.policy B.config root name, rfl, rfl, fun dir c n hc hn => ?_⟩
  rw [present_of_ofRoot hc] at hn
  cases hn

end Tree

end LazyTree
