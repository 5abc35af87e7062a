import LazyTree.Proofs.KeptLookups
import LazyTree.Proofs.Publishing

set_option autoImplicit false

/-!
# Listings that leave the registry exact

A listing replaces the whole array of a directory: some children stay, some are dropped with all
that is cached below them, and some are new. As long as nothing else happens to the tree while the
backend is asked, and attached nodes differ in their identities, it leaves the tree in order,
whatever the backend lists and whichever files it knows by the time that it is asked about them.

## Main definitions

* `LazyTree.Tree.Gathered` — what holds after a listing was merged with the cached children.

## Main results

* `LazyTree.Tree.gathered_mergeListing` — each node for a listing is a cached child, or new.
* `LazyTree.Tree.Kept.refreshChildren` — a listing leaves the tree in order.
-/

namespace LazyTree.Tree

open TreeM

variable {t t' : Tree} {dir n : Node} {c : Children} {cached later merged : List Node}
  {result : Except TreeError (List Node)}

/-! ### Merging -/

/-- What holds after a listing was merged with the cached children of a directory: nothing but
objects was made, and each node for the listing is a cached child, or one of these objects. -/
structure Gathered (t : Tree) (dir : Node) (cached : List Node)
    (result : Except TreeError (List Node)) (t' : Tree) : Prop where
  /-- Objects were made. -/
  made : Made t t'
  /-- Objects are held as before. -/
  held : t'.held = t.held
  /-- Each node is a cached child, or was made meanwhile and is new. -/
  origin : ∀ merged, result = .ok merged →
    ∀ n ∈ merged, n ∈ cached ∨ t'.Spare dir n ∧ t.cells.size ≤ n.serial

/-- For an empty listing there is nothing to merge. -/
theorem gathered_nil : t.Gathered dir cached (.ok []) t := by
  refine ⟨.refl t, rfl, ?_⟩
  rintro _ ⟨⟩ n hn
  cases hn

/-- What was merged with some of the cached children was merged with all of them. -/
theorem Gathered.widen (h : t.Gathered dir later result t') (hlater : ∀ n ∈ later, n ∈ cached) :
    t.Gathered dir cached result t' :=
  ⟨h.made, h.held, fun merged hresult n hn => (h.origin merged hresult n hn).imp_left (hlater n)⟩

/-- The nodes behind the first one make one list with it. -/
theorem Gathered.cons (h : t.Gathered dir cached (.ok merged) t')
    (hn : n ∈ cached ∨ t'.Spare dir n ∧ t.cells.size ≤ n.serial) :
    t.Gathered dir cached (.ok (n :: merged)) t' := by
  refine ⟨h.made, h.held, ?_⟩
  rintro _ ⟨⟩
  exact List.forall_mem_cons.mpr ⟨hn, h.origin merged rfl⟩

/-- Merging that failed has made objects only. -/
theorem Gathered.failed (h : t.Gathered dir cached result t') (e : TreeError) :
    t.Gathered dir cached (.error e) t' :=
  ⟨h.made, h.held, nofun⟩

/-- What was merged after a node had been made, while that node was held, is merged. -/
theorem Gathered.of_make (h : t.Rooted) (hdir : t.Attached dir) {id : FileId} {name : String}
    {attributes : Attributes}
    (hrest : ((t.make dir id name attributes).2.hold [(t.make dir id name attributes).1]).Gathered
      dir cached result t') :
    t.Gathered dir cached result (t'.release [(t.make dir id name attributes).1]) ∧
      (t'.release [(t.make dir id name attributes).1]).Spare dir
        (t.make dir id name attributes).1 ∧
      t.cells.size ≤ (t.make dir id name attributes).1.serial := by
  obtain ⟨hmade, hloose⟩ := hrest.made.of_make h
  have hheld : (t.make dir id name attributes).2.held = t.held := rfl
  have hsize : t.cells.size ≤ (t.make dir id name attributes).2.cells.size := by
    show _ ≤ (t.cells.push _).size
    rw [Array.size_push]
    exact Nat.le_succ _
  refine ⟨⟨hmade, (held_release hrest.held).trans hheld, fun merged hresult n hn => ?_⟩,
    ⟨hloose, rfl, (h.owns dir hdir).serial_lt⟩, Nat.le_refl _⟩
  exact (hrest.origin merged hresult n hn).imp_right fun ⟨hnew, hlate⟩ =>
    ⟨hnew.frame _ _, Nat.le_trans hsize hlate⟩

/-- Merging a listing makes objects only, and each node for it is a cached child, or new.

**Proof sketch.** By induction on the listing. Where a cached child is used again, or the backend
has no attributes, this is so because of the entries behind. Where it has, a node is made, which is
held while the entries behind are merged, and is still new afterwards. -/
theorem gathered_mergeListing (h : t.Rooted) (hdir : t.Attached dir) (entries : List Listed) :
    ((mergeListing dir cached entries).run t).Always calm (t.Gathered dir cached) := by
  induction entries generalizing t cached with
  | nil => exact gathered_nil
  | cons entry rest ih =>
    obtain ⟨hcandidate, hlater⟩ := mem_of_passed t.policy cached entry
    rw [run_mergeListing_cons, mergeEntry]
    split
    · next node hnode =>
      -- a cached node is used again
      obtain ⟨hnode, -⟩ := Option.filter_eq_some_iff.mp hnode
      rw [run_bind, Run.always_bind_iff]
      refine (ih h hdir).mono fun result t' hrest => ?_
      cases result with
      | error e => exact (hrest.widen hlater).failed e
      | ok merged => exact (hrest.widen hlater).cons (.inl (hcandidate node hnode))
    · refine always_calm_ask (fun e => gathered_nil.failed _) fun attributes _ => ?_
      cases attributes with
      | none => exact (ih h hdir).mono fun _ _ hrest => hrest.widen hlater
      | some attributes =>
        have hrooted := h.make dir entry.id entry.name attributes
        have hattached := (h.attached_make dir entry.id entry.name attributes).mpr hdir
        dsimp only
        rw [run_bind, run_newChild, Run.bind_done_ok, run_bind, run_holding, Run.always_bind_iff,
          Run.always_settle_iff]
        refine (ih (hrooted.frame _ _) (hattached.frame _ _)).mono fun result t' hrest => ?_
        obtain ⟨hgathered, hnew⟩ := Gathered.of_make h hdir (hrest.widen hlater)
        cases result with
        | error e => exact hgathered.failed e
        | ok merged => exact hgathered.cons (.inr hnew)

/-! ### Installing -/

/-- Installing the nodes for a listing leaves the tree in order, if each of them was a child before,
or was made for the directory and is new. -/
theorem Kept.installListing (h : t.Kept) (hdistinct : t.Distinct) (hdir : t.Attached dir)
    (hc : t.children? dir = some c) (hascending : Ascending c.policy merged)
    (horigin : ∀ n ∈ merged, n ∈ c.present ∨ t.Spare dir n) :
    ∃ t', (installListing dir c.present merged c.generation).run t = .done (.ok ()) t' ∧
      t.Tended t' merged := by
  have hop : Children.Op.Admissible c.policy (.install merged c.generation) := hascending
  have hpresent := Children.present_install (h.tidy dir c hc).2 hascending
  have howns : ∀ n ∈ merged, t.Owns n := fun n hn =>
    (horigin n hn).elim (fun hold => h.owns n (.child hdir hc hold)) fun hnew => hnew.loose.owns
  obtain ⟨t', hrun, htended, -⟩ := h.change hdistinct hdir hc (.install merged c.generation) hop
    (hpresent.symm ▸ horigin) merged
    (c.present.filter fun n => !merged.any (·.serial = n.serial))
    (fun n hn => hpresent.symm ▸ hn) (fun n hn => .inr (hpresent ▸ hn)) fun n => by
      rw [hpresent, List.mem_filter]
      refine and_congr_right fun hn => ?_
      rw [Bool.not_eq_true', List.any_eq_false]
      constructor
      · intro hnone hmem
        exact hnone n hmem (decide_eq_true rfl)
      · intro hout m hm hserial
        obtain rfl := (howns m hm).eq_of_serial (h.owns n (.child hdir hc hn))
          (of_decide_eq_true hserial)
        exact hout hm
  refine ⟨t', ?_, htended⟩
  have hinstalled : (Tree.installListing dir c.present merged c.generation).run t = _ :=
    run_change_bind h.tidy hc hop _
  have hanswer : (c.ledger.apply (.install merged c.generation)).1 = true :=
    congrArg Prod.fst (if_neg (not_not_intro rfl))
  rw [hinstalled, hanswer, if_pos rfl, run_bind, run_modify, Run.bind_done_ok]
  exact hrun

/-- Installing the nodes that a listing was merged into, while they are held, leaves the tree in
order. -/
theorem Kept.installGathered (h : t.Kept) (hdistinct : t.Distinct) (hdir : t.Attached dir)
    (hc : t.children? dir = some c) (hgathered : t.Gathered dir c.present (.ok merged) t')
    (hascending : Ascending c.policy merged) :
    ∃ t'', (TreeM.holding merged (Tree.installListing dir c.present merged c.generation)).run t' =
      .done (.ok ()) t'' ∧ t.Tended t'' [] := by
  have htended := h.made hgathered.made hgathered.held
  have horigin := hgathered.origin merged rfl
  obtain ⟨t'', hrun, hinstalled⟩ := (htended.kept.hold merged).installListing
    ((hdistinct.made h.toRooted hgathered.made).frame _ _)
    ((hgathered.made.attached hdir).frame _ _) (hgathered.made.children? hc)
    hascending fun n hn => (horigin n hn).imp_right fun hnew => hnew.1.frame _ _
  refine ⟨t''.release merged, ?_, (htended.trans (hinstalled.release htended.kept)).unused hdir hc
    fun n hn => (horigin n hn).imp_right And.right⟩
  rw [run_holding, hrun]
  rfl

/-- Listing a directory leaves the tree in order. -/
theorem Kept.refreshChildren (h : t.Kept) (hdir : t.AttachedDirectory dir) :
    ((refreshChildren dir).run t).Always calm fun _ t' => t.Tended t' [] := by
  obtain ⟨c, hc⟩ := h.toRooted.exists_children hdir
  rw [Tree.refreshChildren, run_childrenOf_bind hc]
  split
  · exact h.tended
  refine always_calm_ask (fun e => h.tended) fun listing hdistinct => ?_
  rw [run_bind, run_get, Run.bind_done_ok, run_childrenOf_bind hc]
  generalize hlisting : sortedListing t.policy listing = entries
  have hheld := h.hold c.present
  have hdir' : (t.hold c.present).Attached dir := hdir.attached.frame _ _
  rw [run_holding, Run.always_settle_iff, run_bind, Run.always_bind_iff]
  have hsorted : ((Tree.mergeListing dir c.present entries).run (t.hold c.present)).Always calm _ :=
    ((stable_tidy (t.hold c.present)).mergeListing_always dir entries c.present _
      ⟨hheld.tidy, .refl _⟩).of_world fun _ _ _ _ hcalm hP => hcalm.1 ▸ hP
  refine ((gathered_mergeListing hheld.toRooted hdir' entries).and hsorted).mono
    fun result t₁ hafter => ?_
  obtain ⟨hgathered, -, hkeys⟩ := hafter
  cases result with
  | error e => exact (hheld.made hgathered.made hgathered.held).release h
  | ok merged =>
    have hascending : Ascending c.policy merged := by
      rw [(h.tidy dir c hc).1]
      exact ascending_of_sublist (hlisting ▸ ascending_sortedListing t.policy listing)
        (hkeys merged rfl)
    obtain ⟨t', hrun, htended⟩ :=
      hheld.installGathered (hdistinct.frame _ _) hdir' hc hgathered hascending
    show ((do TreeM.holding merged (Tree.installListing dir c.present merged c.generation)
              return merged : TreeM (List Node)).run t₁).Always calm _
    rw [run_bind, hrun]
    exact htended.release h

end LazyTree.Tree
