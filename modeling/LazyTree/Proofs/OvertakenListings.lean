import LazyTree.Proofs.CoherentListings
import LazyTree.Proofs.Publishing

set_option autoImplicit false

/-!
# Listings that are overtaken

A listing of a directory asks the backend for the listing, and then for the attributes of the
children that are not cached. If any change of the directory is published while it does, then the
listing changes nothing: array, flag, count and registry are as the others left them. Otherwise the
array is still the one at the beginning, and the listing replaces it. The listing tells one case
from the other by the count of changes alone, also where the others have brought back the very array
that was there before.

## Main definitions

* `LazyTree.Tree.LeftAlone` — the array of a directory and the registry are left alone.

## Main results

* `LazyTree.Tree.moves_mergeListing` — merging a listing makes objects, and does nothing else.
* `LazyTree.Tree.refreshChildren_overtaken` — a listing never replaces a change made meanwhile.
-/

namespace LazyTree

namespace Tree

open TreeM

variable {t t' last : Tree} {dir : Node} {c : Children} {exchanges : List Exchange}

/-! ### What a listing does itself -/

instance : Std.Refl Made := ⟨.refl⟩

instance : Trans Made Made Made := ⟨Made.trans⟩

/-- The array of a directory and the registry are left alone. -/
structure LeftAlone (dir : Node) (t t' : Tree) : Prop where
  /-- The array stays, with its flag and its count. -/
  children : ∀ c, t.children? dir = some c → t'.children? dir = some c
  /-- So do the entries of the registry. -/
  registry : t'.registry = t.registry

instance (dir : Node) : Trans (LeftAlone dir) (LeftAlone dir) (LeftAlone dir) :=
  ⟨fun h h' => ⟨fun c hc => h'.children c (h.children c hc), h'.registry.trans h.registry⟩⟩

/-- Making objects leaves arrays and the registry alone. -/
theorem Made.leftAlone (h : Made t t') (dir : Node) : LeftAlone dir t t' :=
  ⟨fun _ hc => h.children? hc, h.unchanged.2⟩

/-- Making objects is an update after another. -/
theorem Made.updates (h : Made t t') : Updates t t' := by
  induction h with
  | refl t => exact .refl
  | @make t t' dir id name attributes _ ih =>
    exact Relation.ReflTransGen.head (.make t dir id name attributes) ih
  | @held t t' held _ ih => exact Relation.ReflTransGen.head (.held t held) ih

/-- Merging a listing makes objects, and does nothing else itself. -/
theorem moves_mergeListing (dir : Node) (entries : List Listed) (cached : List Node) :
    Moves Made (mergeListing dir cached entries) := by
  induction entries generalizing cached with
  | nil => exact .pure _
  | cons entry rest ih =>
    intro t exchanges result last htook
    rw [run_mergeListing_cons] at htook
    refine (?_ : Moves Made (mergeEntry dir entry _ _)) _ _ _ _ htook
    rw [mergeEntry]
    split
    · exact (ih _).bind fun _ => .pure _
    · refine .bind (.ask _) fun attributes => ?_
      cases attributes with
      | none => exact ih _
      | some attributes =>
        refine .bind (.of_done fun t => ⟨_, _, run_newChild .., .make _ _ _ _ (.refl _)⟩)
          fun node => .bind ((ih _).holding ?_ ?_) fun _ => .pure _
        · exact fun t => .held _ (.refl _)
        · exact fun t => .held _ (.refl _)

/-- Over exchanges between which only objects are made, a directory gets a greater count if some
change of it is published, and keeps its array if none is. After the last exchange nothing changes. -/
theorem generation_linked (h : Run.Linked Made t exchanges last) (ht : t.Tidy)
    (hc : t.children? dir = some c) (hworld : ∀ x ∈ exchanges, Happens x.asked x.resumed) :
    last.Tidy ∧ last.policy = t.policy ∧ ∃ c', last.children? dir = some c' ∧
      (∀ x, exchanges.getLast? = some x → x.resumed.children? dir = some c') ∧
      c.generation ≤ c'.generation ∧
      ((∃ x ∈ exchanges, Disturbed dir x.asked x.resumed) → c.generation < c'.generation) ∧
      ((∀ x ∈ exchanges, ¬ Disturbed dir x.asked x.resumed) →
        c' = c ∧ ∀ x ∈ exchanges, x.resumed.children? dir = some c) := by
  induction exchanges generalizing t c with
  | nil =>
    have hmade : Made t last := h
    obtain ⟨htidy, hlater⟩ := (stable_tidy t).updates hmade.updates ⟨ht, .refl t⟩
    have hend (x : Exchange) (hx : [].getLast? = some x) : x.resumed.children? dir = some c := by
      cases hx
    exact ⟨htidy, hlater.policy, c, hmade.children? hc, hend, Nat.le_refl _,
      fun ⟨x, hx, _⟩ => absurd hx List.not_mem_nil,
      fun _ => ⟨rfl, fun x hx => absurd hx List.not_mem_nil⟩⟩
  | cons x rest ih =>
    obtain ⟨hmade, hrest⟩ := h
    obtain ⟨hhappens, hworld⟩ := List.forall_mem_cons.mp hworld
    obtain ⟨hasked, hlater⟩ := (stable_tidy t).updates hmade.updates ⟨ht, .refl t⟩
    have hcasked := hmade.children? hc
    obtain ⟨c₁, hc₁, hle₁, hlt₁, hsame₁⟩ : ∃ c₁, x.resumed.children? dir = some c₁ ∧
        c.generation ≤ c₁.generation ∧
        (Disturbed dir x.asked x.resumed → c.generation < c₁.generation) ∧
        (¬ Disturbed dir x.asked x.resumed → c₁ = c) := by
      by_cases hdisturbed : Disturbed dir x.asked x.resumed
      · obtain ⟨c₁, hc₁, hlt⟩ := hdisturbed.generation_lt hasked hcasked
        exact ⟨c₁, hc₁, Nat.le_of_lt hlt, fun _ => hlt, fun hnot => absurd hdisturbed hnot⟩
      · have hundisturbed := (hhappens.undisturbed_iff hasked hcasked).mpr hdisturbed
        exact ⟨c, hundisturbed.children? hasked hcasked, Nat.le_refl _,
          fun h => absurd h hdisturbed, fun _ => rfl⟩
    obtain ⟨hlast, hpolicy, c', hc', hend, hle, hlt, hsame⟩ :=
      ih hrest (hhappens.tidy hasked) hc₁ hworld
    refine ⟨hlast, ?_, c', hc', fun z hz => ?_, Nat.le_trans hle₁ hle, ?_, fun hnone => ?_⟩
    · rw [hpolicy, (hhappens.later hasked).policy, hlater.policy]
    · cases rest with
      | nil =>
        obtain rfl : x = z := Option.some.inj hz
        have hmade : Made x.resumed last := hrest
        rw [hc₁, Option.some.inj ((hmade.children? hc₁).symm.trans hc')]
      | cons y rest => exact hend z (by simpa using hz)
    · rintro ⟨y, hy, hdisturbed⟩
      rcases List.mem_cons.mp hy with rfl | hy
      · exact Nat.lt_of_lt_of_le (hlt₁ hdisturbed) hle
      · exact Nat.lt_of_le_of_lt hle₁ (hlt ⟨y, hy, hdisturbed⟩)
    · obtain ⟨hfirst, hnone⟩ := List.forall_mem_cons.mp hnone
      obtain rfl := hsame₁ hfirst
      obtain ⟨rfl, hrest⟩ := hsame hnone
      exact ⟨rfl, List.forall_mem_cons.mpr ⟨hc₁, hrest⟩⟩

/-! ### Installing what was listed -/

/-- A listing whose count is not that of the directory is turned down. -/
theorem run_installListing_of_ne (ht : t.Tidy) (hc : t.children? dir = some c)
    {merged : List Node} (hmerged : Ascending c.policy merged) (cached : List Node)
    {generation : Nat} (hgeneration : c.generation ≠ generation) :
    (installListing dir cached merged generation).run t = .done (.ok ()) (t.setChildren dir c) := by
  have hop : Children.Op.Admissible c.policy (.install merged generation) := hmerged
  have hrun : (installListing dir cached merged generation).run t = _ :=
    run_change_bind ht hc hop _
  have hledger : (c.ledger.apply (.install merged generation)).1 = false :=
    congrArg Prod.fst (if_pos hgeneration)
  have harray : (c.apply (.install merged generation)).2 = c :=
    congrArg Prod.snd (if_pos hgeneration)
  rw [hrun, hledger, harray]
  rfl

/-- A listing whose count is that of the directory becomes the array. Its nodes then get entries,
and those of the cached children that are not among them lose theirs, with all that is cached
below. -/
theorem run_installListing_of_eq (ht : t.Tidy) (hc : t.children? dir = some c) {merged : List Node}
    (hmerged : Ascending c.policy merged) (cached : List Node) :
    (installListing dir cached merged c.generation).run t =
      (unregisterSubtrees (cached.filter fun n => !merged.any (·.serial = n.serial))).run
        (merged.foldl register (t.setChildren dir
          (c.apply (.install merged c.generation)).2)) := by
  have hop : Children.Op.Admissible c.policy (.install merged c.generation) := hmerged
  have hrun : (installListing dir cached merged c.generation).run t = _ :=
    run_change_bind ht hc hop _
  have hledger : (c.ledger.apply (.install merged c.generation)).1 = true :=
    congrArg Prod.fst (if_neg (not_not_intro rfl))
  rw [hrun, hledger]
  simp only [if_true]
  rw [run_bind, run_modify, Run.bind_done_ok]

/-- So it leaves that array, whatever becomes of the entries. -/
theorem run_installListing_self (ht : t.Tidy) (hc : t.children? dir = some c)
    {merged : List Node} (hmerged : Ascending c.policy merged) (cached : List Node) :
    ∃ result registry, (installListing dir cached merged c.generation).run t = .done result
      { t.setChildren dir { c with
          slots := (merged.map Slot.present).toArray, allLoaded := true,
          generation := c.generation + 1 } with registry := registry } := by
  have harray : (c.apply (.install merged c.generation)).2 = _ :=
    congrArg Prod.snd (Children.install_of_ascending (ht dir c hc).2 hmerged)
  rw [run_installListing_of_eq ht hc hmerged, harray, foldl_register_eq]
  exact run_unregisterSubtrees _ _

/-! ### Whole listings -/

/-- A listing that ends with nodes, of a directory whose children are not known to be all there are,
asks for the listing, merges what it is told with the cached children, and installs the nodes. -/
theorem refreshChildren_took {nodes : List Node} (ht : t.Tidy) (hc : t.children? dir = some c)
    (hloaded : c.allLoaded = false)
    (htook : ((refreshChildren dir).run t).Took exchanges (.ok nodes) last)
    (hworld : ∀ x ∈ exchanges, Happens x.asked x.resumed) :
    ∃ cached front back merged after, exchanges = front ++ back ∧ front ≠ [] ∧
      Run.Linked Made t front merged ∧ Ascending t.policy nodes ∧
      ((installListing dir cached nodes c.generation).run (merged.hold nodes)).Took back (.ok ())
        after ∧
      last = (after.release nodes).release cached := by
  rw [Tree.refreshChildren, run_childrenOf_bind hc, hloaded] at htook
  obtain ⟨listing, t₁, rest, rfl, hrest⟩ := took_ask_bind_ok htook
  obtain ⟨hfirst, hworld⟩ := List.forall_mem_cons.mp hworld
  have ht₁ : t₁.Tidy := hfirst.tidy ht
  have hpolicy : t₁.policy = t.policy := (hfirst.later ht).policy
  have hdir : (t.children? dir).isSome = true := by rw [hc]; rfl
  obtain ⟨c₁, hc₁⟩ := Option.isSome_iff_exists.mp ((hfirst.later ht).isSome dir hdir)
  rw [run_bind, run_get, Run.bind_done_ok, run_childrenOf_bind hc₁, run_holding] at hrest
  obtain ⟨released, hinner, rfl⟩ := Run.took_settle hrest
  rcases Run.took_bind hinner with ⟨merged, t₂, front, back, rfl, hmerging, hrest⟩ | ⟨e, h, -⟩
  · -- the nodes are those of the merged listing, and what is left to do is to install them
    rcases Run.took_bind hrest with ⟨_, t₃, back, ending, rfl, hinstalling, hend⟩ | ⟨e, h, -⟩
    · obtain ⟨rfl, h, rfl⟩ := Run.took_done_iff.mp hend
      obtain rfl : nodes = merged := Except.ok.inj h
      obtain ⟨after, hinstall, rfl⟩ := Run.took_settle (f := (·.release nodes)) hinstalling
      have hlinked : Run.Linked Made (t₁.hold c₁.present) front t₂ :=
        moves_mergeListing _ _ _ _ _ _ _ hmerging
      have hhold : Made t₁ (t₁.hold c₁.present) := .held _ (.refl _)
      have hheld := (stable_tidy t₁).update _ _
        (.held t₁ (t₁.hold c₁.present).held) ⟨ht₁, .refl t₁⟩
      have hsorted := hmerging.always ((stable_tidy t₁).mergeListing_always dir _ _ _ hheld)
        fun x hx => (stable_tidy t₁).happens (hworld x (List.mem_append_left _ hx))
      refine ⟨c₁.present, ⟨.list dir.id, t, .ok listing, t₁⟩ :: front, back, t₂, after, ?_,
        List.cons_ne_nil _ _, ⟨.refl t, hlinked.head hhold⟩, ?_, hinstall, rfl⟩
      · rw [List.append_nil, List.cons_append]
      · rw [← hpolicy]
        exact ascending_of_sublist (ascending_sortedListing t₁.policy listing) (hsorted.2 _ rfl)
    · cases h
  · cases h

/-- As long as the counter has not come round, it tells whether changes were published. -/
theorem counter_eq_iff {c c' : Children} (hle : c.generation ≤ c'.generation)
    (hlt : c'.generation < c.generation + UInt64.size) :
    c'.counter = c.counter ↔ c'.generation = c.generation := by
  rw [Children.counter, Children.counter, ← UInt64.toNat_inj, UInt64.toNat_ofNat',
    UInt64.toNat_ofNat']
  have hsize : UInt64.size = 2 ^ 64 := rfl
  omega

/-- A listing never replaces a change made meanwhile. Say that a listing of a directory whose
children are not known to be all there are ended with nodes, whatever happened while it was asking.

If some change of the directory was published meanwhile, then the listing itself leaves the array of
the directory and the registry alone, between its questions and at the end. If none was, then the
array when the last answer came is the one from the beginning, and what replaces it are the nodes,
as the complete listing, with a count that is greater by one.

The count is a number without a bound here. A counter of 64 bits tells the one case from the other just
as well, as long as fewer than `2 ^ 64` changes of the directory were published meanwhile.

**Proof sketch.** Merging only makes objects. So at the installation the count of the directory is
greater than the old one if some change was published; and if none was, then the whole array is the
old one. -/
theorem refreshChildren_overtaken {nodes : List Node} (ht : t.Tidy)
    (hc : t.children? dir = some c) (hloaded : c.allLoaded = false)
    (htook : ((refreshChildren dir).run t).Took exchanges (.ok nodes) last)
    (hworld : ∀ x ∈ exchanges, Happens x.asked x.resumed) :
    ((∃ y ∈ exchanges, Disturbed dir y.asked y.resumed) →
      Run.Linked (LeftAlone dir) t exchanges last) ∧
    ((∀ y ∈ exchanges, ¬ Disturbed dir y.asked y.resumed) →
      ∃ x, exchanges.getLast? = some x ∧ x.resumed.children? dir = some c ∧
        last.children? dir = some { c with
          slots := (nodes.map Slot.present).toArray, allLoaded := true,
          generation := c.generation + 1 }) ∧
    ∃ x c', exchanges.getLast? = some x ∧ x.resumed.children? dir = some c' ∧
      c.generation ≤ c'.generation ∧
      (c'.generation < c.generation + UInt64.size →
        (c'.counter = c.counter ↔ ∀ y ∈ exchanges, ¬ Disturbed dir y.asked y.resumed)) := by
  obtain ⟨cached, front, back, merged, after, rfl, hfront, hlinked, hascending, hinstalling,
    rfl⟩ := refreshChildren_took ht hc hloaded htook hworld
  obtain ⟨htidy, hpolicy, c', hc', hend, hle, hgreater, hsame⟩ := generation_linked hlinked ht hc
    fun x hx => hworld x (List.mem_append_left _ hx)
  have hlast := List.getLast?_eq_some_getLast hfront
  have hcounter (hlt : c'.generation < c.generation + UInt64.size) : c'.counter = c.counter ↔
      ∀ y ∈ front, ¬ Disturbed dir y.asked y.resumed := by
    rw [counter_eq_iff hle hlt]
    constructor
    · intro hgeneration y hy hdisturbed
      exact absurd hgeneration (Nat.ne_of_gt (hgreater ⟨y, hy, hdisturbed⟩))
    · exact fun hnone => congrArg Children.generation (hsame hnone).1
  have hheld : (merged.hold nodes).Tidy := htidy
  have hcheld : (merged.hold nodes).children? dir = some c' := hc'
  have hnodes : Ascending c'.policy nodes := by
    rwa [(htidy dir c' hc').1, hpolicy]
  by_cases hgeneration : c'.generation = c.generation
  · -- the count is the old one, so nothing was published, and the listing is installed
    rw [← hgeneration] at hinstalling
    obtain ⟨result, registry, hrun⟩ := run_installListing_self hheld hcheld hnodes cached
    rw [hrun, Run.took_done_iff] at hinstalling
    obtain ⟨rfl, -, rfl⟩ := hinstalling
    rw [List.append_nil]
    refine ⟨?_, ?_, _, c', hlast, hend _ hlast, hle, hcounter⟩
    · intro hdisturbed
      exact absurd hgeneration (Nat.ne_of_gt (hgreater hdisturbed))
    · intro hnone
      obtain ⟨rfl, hresumed⟩ := hsame hnone
      refine ⟨front.getLast hfront, hlast, hresumed _ (List.getLast_mem hfront), ?_⟩
      exact children?_setChildren_self hcheld _
  · -- the count is another one, so the listing is turned down
    rw [run_installListing_of_ne hheld hcheld hnodes cached hgeneration, Run.took_done_iff]
      at hinstalling
    obtain ⟨rfl, -, rfl⟩ := hinstalling
    rw [List.append_nil]
    refine ⟨?_, ?_, _, c', hlast, hend _ hlast, hle, hcounter⟩
    · intro _
      refine (hlinked.mono fun a b h => h.leftAlone dir).tail ⟨fun c₂ hc₂ => ?_, rfl⟩
      rw [hc'] at hc₂
      exact (children?_setChildren_self hcheld c').trans hc₂
    · intro hnone
      exact absurd (congrArg Children.generation (hsame hnone).1) hgeneration

/-! ### A child that came and went

While a directory is listed, a child of it is looked up and removed again. The tree does not record
the names of removed children, so this leaves the array as it was, without any child. -/

namespace CameAndWent

/-- The root of the tree. -/
def root : Node :=
  ⟨0, ⟨1, FileId.raw_one_ne_zero⟩, "root", none, { directory := true }⟩

/-- The child, as the lookup makes a node for it. -/
def looked : Node :=
  ⟨1, ⟨2, FileId.raw_two_ne_zero⟩, "a", some root.id, {}⟩

/-- The child, as the listing makes a node for it. -/
def listed : Node :=
  { looked with serial := 2 }

/-- The backend, which lists the child. -/
def table : Table :=
  (Table.ofRoot .sensitive root.id).add root.id ⟨"a", some looked.id, some {}⟩

/-- The tree before the listing. -/
def start : Tree :=
  ofRoot .sensitive { cacheRemovedNames := false } root.id "root"

/-- Answers from the table while nothing else happens. -/
def quiet (q : Query) (t : Tree) (_ : Unit) : Except BackendError q.Reply × Tree × Unit :=
  (table.answer q, t, ())

/-- The tree after an operation while nothing else happens. -/
def after (command : Command) (t : Tree) : Tree :=
  (((command.run [] ⟨root, root, looked⟩).run t).serve quiet ()).2.1

/-- Answers from the table, while a child comes and goes before the listing is answered. -/
def racing (q : Query) (t : Tree) (_ : Unit) : Except BackendError q.Reply × Tree × Unit :=
  (table.answer q,
    if q.kind = .list then after .removeChild (after (.lookup "a") t) else t, ())

/-- The listing, at its beginning. -/
def listing : Run (List Node) :=
  (refreshChildren root).run start

/-- An operation while nothing else happens may happen. -/
theorem happens_after (command : Command) (t : Tree) : Happens t (after command t) := by
  refine .command [] ⟨root, root, looked⟩ command (Run.took_serve quiet _ ()) ?_ (.refl _)
  intro y hy
  obtain ⟨_, -, hresumed⟩ := Run.exists_of_mem_exchanges hy
  rw [hresumed]
  exact .refl _

/-- A child may come and go. -/
theorem happens_racing {x : Exchange} (hx : x ∈ listing.exchanges racing ()) :
    Happens x.asked x.resumed := by
  obtain ⟨_, -, hresumed⟩ := Run.exists_of_mem_exchanges hx
  rw [hresumed, racing]
  dsimp only
  split
  · exact (happens_after _ _).trans (happens_after _ _)
  · exact .refl _

/-- The listing answers the child, but leaves the directory without children, as the removal did,
after two changes, and not known to have no others. -/
theorem refreshChildren_overtaken_unchanged :
    (listing.serve racing ()).1 = .ok [listed] ∧
      Run.Linked (LeftAlone root) start (listing.exchanges racing ())
        (listing.serve racing ()).2.1 ∧
      (listing.serve racing ()).2.1.children? root = some ⟨.sensitive, #[], false, 2⟩ := by
  have hresult : (listing.serve racing ()).1.toOption = some [listed] := by decide +kernel
  have hanswer : (listing.serve racing ()).1 = .ok [listed] := by
    cases h : (listing.serve racing ()).1 with
    | ok nodes =>
      rw [h] at hresult
      exact congrArg Except.ok (Option.some.inj hresult)
    | error e =>
      rw [h] at hresult
      cases hresult
  have htook := Run.took_serve racing listing ()
  rw [hanswer] at htook
  have hc : start.children? root = some (Children.empty .sensitive) := rfl
  obtain ⟨hdisturbed, hundisturbed, -⟩ := refreshChildren_overtaken
    (tidy_ofRoot .sensitive { cacheRemovedNames := false } root.id "root") hc rfl htook
    fun x hx => happens_racing hx
  have hlast : ((listing.exchanges racing ()).getLast?.bind fun x => x.resumed.children? root) =
      some ⟨.sensitive, #[], false, 2⟩ := by decide +kernel
  refine ⟨hanswer, hdisturbed (Classical.byContradiction fun hnone => ?_), by decide +kernel⟩
  obtain ⟨x, hx, hc, -⟩ := hundisturbed fun y hy h => hnone ⟨y, hy, h⟩
  rw [hx, Option.bind_some, hc] at hlast
  cases hlast

end CameAndWent

end Tree

end LazyTree
