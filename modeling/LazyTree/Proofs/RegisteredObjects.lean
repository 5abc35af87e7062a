import LazyTree.Proofs.AdmittedChildren
import LazyTree.Proofs.RegistryEntries

set_option autoImplicit false

/-!
# Objects in the registry

Operations give entries in the registry to nodes that they have made, or have found in arrays, and
to those that are reported. So as long as only objects are reported, all nodes in the registry are
objects of the tree, whatever the backend answers, and whatever happens while it is asked. They
need not be attached, and may have died.

## Main definitions

* `LazyTree.Tree.Enrolled` — the nodes in arrays and in the registry are objects of the tree.

## Main results

* `LazyTree.Tree.Admits.enrolled` — they stay so as long as only objects are reported.
-/

namespace LazyTree.Tree

open TreeM

/-- The nodes in arrays and in the registry are objects of the tree. -/
structure Enrolled (t : Tree) : Prop extends Peopled t where
  /-- The nodes with entries are objects. -/
  entries : ∀ n ∈ t.registry.nodes, t.Owns n

variable {t t' : Tree} {dir n : Node} {c : Children} {nodes : List Node}

/-! ### Updates -/

namespace Enrolled

/-- Who holds objects does not matter. -/
theorem frame (h : t.Enrolled) (held : List Nat) : ({ t with held := held } : Tree).Enrolled :=
  ⟨⟨h.tidy, h.objects⟩, h.entries⟩

/-- Making an object adds no entry. -/
theorem make (h : t.Enrolled) (parent : Node) (id : FileId) (name : String)
    (attributes : Attributes) : (t.make parent id name attributes).2.Enrolled :=
  ⟨h.toPeopled.made (.make _ _ _ _ (.refl _)), fun n hn => (h.entries n hn).make parent id name
    attributes⟩

/-- Neither does a change of an array, which may be offered objects. -/
theorem change (h : t.Enrolled) (hc : t.children? dir = some c) (op : Children.Op)
    (hop : op.Admissible c.policy) (hoffered : ∀ n ∈ op.offered, t.Owns n) :
    (t.setChildren dir (c.apply op).2).Enrolled :=
  ⟨h.toPeopled.change hc op hop hoffered, fun n hn =>
    (owns_setChildren t dir n _).mpr (h.entries n hn)⟩

/-- Neither does it to say that an object needs a refresh. -/
theorem setDirty (h : t.Enrolled) (dirty : Bool) (serial : Nat) :
    (t.setDirty dirty serial).Enrolled := by
  refine ⟨⟨fun n c hc => ?_, fun d c n hc hn => ?_⟩, fun n hn => ?_⟩
  · exact h.tidy n c ((children?_setDirty t n dirty serial).symm.trans hc)
  · rw [children?_setDirty] at hc
    exact (owns_setDirty t n dirty serial).mpr (h.objects d c n hc hn)
  · exact (owns_setDirty t n dirty serial).mpr (h.entries n hn)

/-- Objects may get entries. -/
theorem foldl_register (h : t.Enrolled) (hnodes : ∀ n ∈ nodes, t.Owns n) :
    (nodes.foldl register t).Enrolled := by
  have hentries : ∀ n ∈ (nodes.foldl register t).registry.nodes, t.Owns n := fun n hn =>
    (mem_of_mem_foldl_register hn).elim (hnodes n) (h.entries n)
  rw [foldl_register_eq]
  exact ⟨⟨h.tidy, h.objects⟩, hentries⟩

/-- So may a single one. -/
theorem register (h : t.Enrolled) (hn : t.Owns n) : (t.register n).Enrolled := by
  have hentered : ([n].foldl Tree.register t).Enrolled :=
    h.foldl_register (List.forall_mem_singleton.mpr hn)
  exact hentered

/-- Entries may be dropped. -/
theorem unregisterAll (h : t.Enrolled) (serials : List Nat) :
    (t.unregisterAll serials).Enrolled := by
  have hentries : ∀ n ∈ (t.unregisterAll serials).registry.nodes, t.Owns n := fun n hn =>
    h.entries n ((sublist_unregisterAll t serials).subset hn)
  rw [unregisterAll_eq]
  exact ⟨⟨h.tidy, h.objects⟩, hentries⟩

end Enrolled

/-! ### Operations -/

/-- Recording a child that the backend told of keeps all nodes objects: it is the child that was
made for it, or one of the array, that gets an entry. -/
theorem Enrolled.recordFound {w : World} (h : t.Enrolled) (dir : Node) (name query : String)
    (id : FileId) (attributes : Attributes) :
    ((recordAnswer dir name query (some id) (some attributes)).run t).Always w
      fun _ t' => t'.Enrolled := by
  let made := t.make dir id query attributes
  have hmade : made.2.Enrolled := h.make dir id query attributes
  cases hc : made.2.children? dir with
  | none =>
    unfold Tree.recordAnswer
    rw [run_bind, run_newChild, Run.bind_done_ok, run_bind, run_change, hc]
    exact hmade
  | some c =>
    have hop : Children.Op.Admissible c.policy (.insertIfUnknown made.1) := trivial
    have hafter := hmade.change hc (.insertIfUnknown made.1) hop fun n hn =>
      List.mem_singleton.mp hn ▸ owns_make t dir id query attributes
    have hgains := Children.gains_insertIfUnknown (hmade.tidy dir c hc).2 made.1
    have hrun : (recordAnswer dir name query (some id) (some attributes)).run t = _ :=
      run_change_bind hmade.tidy hc hop _
    rw [hrun]
    simp only [Ledger.apply]
    cases hknown : (c.ledger.insertIfUnknown made.1).1 with
    | present node =>
      have hpresent := hgains.answered node (by rw [hknown]; rfl)
      exact hafter.register (hafter.objects dir _ node (children?_setChildren_self hc _) hpresent)
    | absent => exact hafter
    | unknown => exact hafter

/-- Reporting that an object came keeps all nodes objects. -/
theorem Enrolled.addChild {w : World} (h : t.Enrolled) (hn : t.Owns n) :
    ((addChild dir n).run t).Always w fun _ t' => t'.Enrolled := by
  cases hc : t.children? dir with
  | none =>
    unfold Tree.addChild
    rw [run_bind, run_change, hc]
    exact h
  | some c =>
    rw [run_addChild h.tidy hc]
    have hafter := h.change hc (.insert n) trivial fun m hm => List.mem_singleton.mp hm ▸ hn
    have hpresent := (Children.gains_insert (h.tidy dir c hc).2 n).answered _ rfl
    exact hafter.register (hafter.objects dir _ _ (children?_setChildren_self hc _) hpresent)

/-- What operations do from one question to the next keeps all nodes objects. -/
theorem firm_enrolled : Firm Enrolled where
  held _ held h := h.frame held
  change dir op hoffered := keeps_change fun t c h hc =>
    h.change hc op (Children.Op.admissible_of_offered hoffered c.policy) (by simp [hoffered])
  unregisterAll _ serials h := h.unregisterAll serials
  make _ dir id name attributes h := h.make dir id name attributes
  dirty _ dirty serial h := h.setDirty dirty serial
  recordFound dir name query id attributes _ h := h.recordFound dir name query id attributes
  addNew dir id name attributes t h := by
    rw [run_bind, run_newChild, Run.bind_done_ok]
    exact (h.make dir id name attributes).addChild (owns_make t dir id name attributes)

/-- Anything may happen after which the nodes in arrays and in the registry are objects if they
were so before. -/
def enrolling : World :=
  fun q t reply t' => admitting q t reply t' ∧ (t.Enrolled → t'.Enrolled)

/-- What keeps all nodes objects does so in this world. -/
theorem Enrolled.keeps {α : Type} {act : TreeM α} (h : t.Enrolled) (hact : Keeps Enrolled act) :
    (act.run t).Always enrolling fun _ t' => t'.Enrolled :=
  (hact t h).of_world fun _ _ _ _ hw => hw.2

/-- Merging a listing keeps all nodes objects, and gives objects in the order of their names. -/
theorem Enrolled.mergeListing (h : t.Enrolled) (hdir : (t.children? dir).isSome = true)
    {cached : List Node} (hcached : ∀ n ∈ cached, t.Owns n) {entries : List Listed}
    (hentries : Ascending t.policy entries) :
    ((mergeListing dir cached entries).run t).Always enrolling fun result t' => t'.Enrolled ∧
      ∀ merged, result = .ok merged → Ascending t'.policy merged ∧ ∀ n ∈ merged, t'.Owns n := by
  have hbonded : t.BondedAt (membership t.policy t.config) dir :=
    ⟨bonded_membership_iff.mpr h.toPeopled, trivial, hdir⟩
  have howned : ((Tree.mergeListing dir cached entries).run t).Always enrolling
      (MergedBonded (membership t.policy t.config) dir) :=
    (hbonded.mergeListing (trusts_admitting t.policy t.config) (fun n hn _ _ => hcached n hn)
      fun _ _ => trivial).of_world fun _ _ _ _ hw => hw.1
  have hentered := h.keeps (firm_enrolled.mergeListing dir entries cached)
  have hstable := stable_tidy t
  have hsorted := (hstable.mergeListing_always dir entries cached t ⟨h.tidy, .refl t⟩).of_world
    fun q u reply u' (hw : enrolling q u reply u') => hstable.happens hw.1.1
  refine ((howned.and hentered).and hsorted).mono fun result t' hall => ?_
  obtain ⟨⟨hmerged, hafter⟩, ⟨-, hlater⟩, hkeys⟩ := hall
  refine ⟨hafter, fun merged hresult => ⟨?_, fun n hn => ?_⟩⟩
  · rw [hlater.policy]
    exact ascending_of_sublist hentries (hkeys merged hresult)
  · exact hmerged.offers merged hresult n hn dir rfl

/-- Installing objects keeps all nodes objects. -/
theorem Enrolled.installListing (h : t.Enrolled) (dir : Node) (cached : List Node)
    {merged : List Node} (hascending : Ascending t.policy merged) (hmerged : ∀ n ∈ merged, t.Owns n)
    (generation : Nat) : ((installListing dir cached merged generation).run t).Always enrolling
      fun _ t' => t'.Enrolled := by
  cases hc : t.children? dir with
  | none =>
    unfold Tree.installListing
    rw [run_bind, run_change, hc]
    exact h
  | some c =>
    have hop : Children.Op.Admissible c.policy (.install merged generation) :=
      (h.tidy dir c hc).1 ▸ hascending
    have hchanged := h.change hc (.install merged generation) hop hmerged
    have hrun : (Tree.installListing dir cached merged generation).run t = _ :=
      run_change_bind h.tidy hc hop _
    rw [hrun]
    split
    · have hentered := hchanged.foldl_register fun n hn =>
        (owns_setChildren t dir n _).mpr (hmerged n hn)
      exact hentered.keeps (firm_enrolled.unregisterSubtrees _)
    · exact hchanged

/-- Listing a directory keeps all nodes objects. -/
theorem Enrolled.refreshChildren (h : t.Enrolled) (dir : Node) :
    ((refreshChildren dir).run t).Always enrolling fun _ t' => t'.Enrolled := by
  refine always_refreshChildren (fun _ held h => h.frame held) h (fun _ _ hw => hw.2 h)
    fun c listing t₁ now _ hw hnow => ?_
  have h₁ := hw.2 h
  have hdir : ((t₁.hold now.present).children? dir).isSome = true :=
    Option.isSome_iff_exists.mpr ⟨now, hnow⟩
  refine ((h₁.frame _).mergeListing hdir (fun n hn => h₁.objects dir now n hnow hn)
    (ascending_sortedListing t₁.policy listing)).mono fun result t₂ hafter => ?_
  obtain ⟨h₂, hmerged⟩ := hafter
  refine ⟨h₂, fun merged hresult => ?_⟩
  obtain ⟨hascending, howns⟩ := hmerged merged hresult
  have hheld : (t₂.hold merged).Enrolled := h₂.frame _
  exact hheld.installListing dir now.present hascending howns c.generation

/-! ### All operations -/

/-- Whatever happens as long as only objects are reported, the nodes in arrays and in the registry
stay objects. -/
theorem Admits.enrolled (h : Admits t t') (ht : t.Enrolled) : t'.Enrolled := by
  induction h with
  | refl t => exact ht
  | command handles on command hadded took hmeanwhile _ henrolled hrest =>
    have hafter := firm_enrolled.command (w := enrolling) (fun _ _ _ _ hw => hw.2) ht handles on
      (fun _ => ht.refreshChildren on.dir) fun hadd => ht.addChild (hadded hadd)
    refine hrest (took.always hafter fun x hx => ⟨⟨(hmeanwhile x hx).happens, ?_⟩, henrolled x hx⟩)
    exact (hmeanwhile x hx).peopled
  | held held _ hrest => exact hrest (ht.frame held)

/-- The only node of a new tree is an object of it. -/
theorem enrolled_ofRoot (policy : CasePolicy) (config : TreeConfig) (root : FileId)
    (name : String) : (ofRoot policy config root name).Enrolled := by
  refine ⟨peopled_ofRoot policy config root name, fun n hn => ?_⟩
  obtain rfl := List.mem_singleton.mp hn
  rfl

end LazyTree.Tree
