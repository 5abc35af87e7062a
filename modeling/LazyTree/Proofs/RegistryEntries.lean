import LazyTree.Proofs.Arborescence
import LazyTree.Proofs.Recording
import Mathlib.Data.List.Nodup

set_option autoImplicit false

/-!
# Entries of the registry

Which nodes have an entry after nodes were made to stand for their identities, and after the entries
of nodes that are no longer attached were dropped. Another node may stand for the identity of a
dropped node by then; if it is attached, then it lives, and its entry is left alone.

## Main definitions

* `LazyTree.Registry.Proper` — no identity has two entries.
* `LazyTree.Tree.Weeded` — entries were dropped, but none of an attached node.

## Main results

* `LazyTree.Tree.mem_foldl_register` — nodes that stand for different identities get entries.
* `LazyTree.Tree.weeded_unregisterSubtrees` — dropping the entries of branches that are no longer
  attached succeeds, and drops the entries of all their nodes.
-/

namespace LazyTree

namespace Registry

/-- No identity has two entries. -/
def Proper (r : Registry) : Prop :=
  (r.nodes.map Node.id).Nodup

variable {r r' : Registry} {n m : Node} {id : FileId}

/-- Dropping an entry leaves those of other identities. -/
@[simp] theorem mem_erase : n ∈ (r.erase id).nodes ↔ n ∈ r.nodes ∧ n.id ≠ id := by
  simp [erase]

/-- Putting an entry leaves those of other identities. -/
@[simp] theorem mem_put : n ∈ (r.put m).nodes ↔ n = m ∨ n ∈ r.nodes ∧ n.id ≠ m.id := by
  rw [put, List.mem_cons, mem_erase]

/-- Some of the entries are for different identities if all are. -/
theorem Proper.sublist (h : r.Proper) (hsub : r'.nodes.Sublist r.nodes) : r'.Proper :=
  List.Nodup.sublist (hsub.map Node.id) h

/-- Putting an entry leaves none other for its identity. -/
theorem Proper.put (h : r.Proper) (n : Node) : (r.put n).Proper := by
  have hrest : (r.erase n.id).Proper := h.sublist List.filter_sublist
  refine List.nodup_cons.mpr ⟨fun hmem => ?_, hrest⟩
  obtain ⟨m, hm, hid⟩ := List.mem_map.mp hmem
  exact (mem_erase.mp hm).2 hid

/-- An identity leads to the node of its entry. -/
theorem Proper.find_eq_some_iff (h : r.Proper) : r.find id = some n ↔ n ∈ r.nodes ∧ n.id = id := by
  constructor
  · intro hfind
    exact ⟨List.mem_of_find?_eq_some hfind, by simpa using List.find?_some hfind⟩
  · rintro ⟨hn, rfl⟩
    have hsome : (r.find n.id).isSome = true := List.find?_isSome.mpr ⟨n, hn, by simp⟩
    obtain ⟨m, hm⟩ := Option.isSome_iff_exists.mp hsome
    have hid : m.id = n.id := by simpa using List.find?_some hm
    rw [hm, List.inj_on_of_nodup_map h (List.mem_of_find?_eq_some hm) hn hid]

end Registry

namespace Tree

open TreeM

variable {t : Tree} {n top : Node} {nodes tops : List Node} {registry registry' : Registry}

/-! ### Getting entries -/

/-- After nodes were made to stand for their identities, no identity has two entries. -/
theorem proper_foldl_register (h : t.registry.Proper) :
    (nodes.foldl register t).registry.Proper := by
  induction nodes generalizing t with
  | nil => exact h
  | cons m rest ih => exact ih (h.put m)

/-- Only these nodes get entries. -/
theorem mem_of_mem_foldl_register (h : n ∈ (nodes.foldl register t).registry.nodes) :
    n ∈ nodes ∨ n ∈ t.registry.nodes := by
  induction nodes generalizing t with
  | nil => exact .inr h
  | cons m rest ih =>
    rcases ih h with hrest | hput
    · exact .inl (List.mem_cons_of_mem m hrest)
    · rcases Registry.mem_put.mp hput with rfl | ⟨hold, -⟩
      · exact .inl List.mem_cons_self
      · exact .inr hold

/-- One of these nodes, and one that had an entry before, has an entry, if none other of them has
its identity. -/
theorem mem_foldl_register (h : n ∈ nodes ∨ n ∈ t.registry.nodes)
    (hsame : ∀ m ∈ nodes, m.id = n.id → m = n) :
    n ∈ (nodes.foldl register t).registry.nodes := by
  induction nodes generalizing t with
  | nil => exact h.resolve_left (List.not_mem_nil)
  | cons m rest ih =>
    obtain ⟨hfirst, hrest⟩ := List.forall_mem_cons.mp hsame
    refine ih ?_ hrest
    by_cases hid : m.id = n.id
    · exact .inr (Registry.mem_put.mpr (.inl (hfirst hid).symm))
    · rcases h with hmem | hold
      · rcases List.mem_cons.mp hmem with rfl | hmem
        · exact absurd rfl hid
        · exact .inl hmem
      · exact .inr (Registry.mem_put.mpr (.inr ⟨hold, Ne.symm hid⟩))

/-! ### Losing entries -/

/-- Dropping the entry of a node adds none. -/
theorem sublist_unregister (t : Tree) (n : Node) :
    (t.unregister n).registry.nodes.Sublist t.registry.nodes := by
  rw [unregister]
  split
  · exact List.Sublist.refl _
  · split
    · exact List.Sublist.refl _
    · exact List.filter_sublist

/-- Who survives does not depend on the registry. -/
theorem survivors_frame (t : Tree) (registry : Registry) (rounds : Nat) (alive : List Nat) :
    ({ t with registry := registry } : Tree).survivors rounds alive = t.survivors rounds alive := by
  induction rounds generalizing alive with
  | zero => rfl
  | succ rounds ih =>
    rw [survivors, survivors, ← ih]
    rfl

/-- Nor does it matter who lives. -/
theorem isLive_frame (t : Tree) (registry : Registry) (n : Node) :
    ({ t with registry := registry } : Tree).isLive n = t.isLive n := by
  unfold isLive liveSerials
  rw [survivors_frame]

/-- Dropping the entry of a node drops the one for its identity, unless another node lives there. -/
theorem mem_unregister (hproper : t.registry.Proper) {n e : Node} :
    e ∈ (t.unregister n).registry.nodes ↔
      e ∈ t.registry.nodes ∧ (n.id = e.id → t.isLive e = true ∧ n.serial ≠ e.serial) := by
  rw [unregister]
  cases hfind : t.registry.find n.id with
  | none =>
    refine ⟨fun he => ⟨he, fun hid => ?_⟩, And.left⟩
    rw [hproper.find_eq_some_iff.mpr ⟨he, hid.symm⟩] at hfind
    cases hfind
  | some entry =>
    obtain ⟨hentry, hid⟩ := hproper.find_eq_some_iff.mp hfind
    have hsame : e ∈ t.registry.nodes → n.id = e.id → e = entry := fun he hid' =>
      List.inj_on_of_nodup_map hproper he hentry (hid'.symm.trans hid.symm)
    dsimp only
    split
    · next hother =>
      obtain ⟨hlive, hserial⟩ := Bool.and_eq_true_iff.mp hother
      refine ⟨fun he => ⟨he, fun hid' => ?_⟩, And.left⟩
      rw [hsame he hid']
      exact ⟨hlive, Ne.symm (of_decide_eq_true hserial)⟩
    · next hown =>
      rw [Registry.mem_erase]
      refine and_congr_right fun he => ⟨fun hne hid' => absurd hid'.symm hne, fun h hid' => hown ?_⟩
      obtain ⟨hlive, hserial⟩ := h hid'.symm
      rw [← hsame he hid'.symm]
      simp [hlive, Ne.symm hserial]

/-- Dropping the entries of some objects adds none. -/
theorem sublist_unregisterAll (t : Tree) (serials : List Nat) :
    (t.unregisterAll serials).registry.nodes.Sublist t.registry.nodes := by
  unfold unregisterAll
  induction serials generalizing t with
  | nil => exact List.Sublist.refl _
  | cons serial serials ih =>
    rw [List.foldl_cons]
    split
    · exact (ih _).trans (sublist_unregister _ _)
    · exact ih t

/-- The entry of an object is dropped before those of others. -/
theorem unregisterAll_cons {cell : Cell} {serial : Nat} (hcell : t.cells[serial]? = some cell)
    (rest : List Nat) :
    t.unregisterAll (serial :: rest) = (t.unregister cell.node).unregisterAll rest := by
  rw [unregisterAll, List.foldl_cons, hcell]
  rfl

/-- Dropping the entries of some objects drops those for their identities, unless other nodes live
there.

**Proof sketch.** By induction on the objects. What drops one entry changes no object, and who lives
does not depend on the registry. -/
theorem mem_unregisterAll (hproper : t.registry.Proper) {serials : List Nat} {e : Node} :
    e ∈ (t.unregisterAll serials).registry.nodes ↔ e ∈ t.registry.nodes ∧
      ∀ serial ∈ serials, ∀ cell, t.cells[serial]? = some cell → cell.node.id = e.id →
        t.isLive e = true ∧ cell.node.serial ≠ e.serial := by
  induction serials generalizing t with
  | nil => exact ⟨fun he => ⟨he, nofun⟩, And.left⟩
  | cons serial rest ih =>
    rw [List.forall_mem_cons]
    cases hcell : t.cells[serial]? with
    | none =>
      have hrest : t.unregisterAll (serial :: rest) = t.unregisterAll rest := by
        rw [unregisterAll, List.foldl_cons, hcell]
        rfl
      rw [hrest, ih hproper]
      exact and_congr_right fun _ => (and_iff_right nofun).symm
    | some cell =>
      have hfirst : (∀ cell', some cell = some cell' → cell'.node.id = e.id →
          t.isLive e = true ∧ cell'.node.serial ≠ e.serial) ↔
          (cell.node.id = e.id → t.isLive e = true ∧ cell.node.serial ≠ e.serial) :=
        ⟨fun h => h cell rfl, fun h _ hsame => Option.some.inj hsame ▸ h⟩
      rw [hfirst, ← and_assoc, ← mem_unregister hproper, unregisterAll_cons hcell, unregister_eq]
      simpa only [isLive_frame] using ih (t := { t with registry := (t.unregister cell.node).registry })
        (hproper.sublist (sublist_unregister t cell.node))

/-- Objects whose entries were dropped have none. -/
theorem not_mem_unregisterAll (hproper : t.registry.Proper) (hn : t.Owns n) {serials : List Nat}
    (hserial : n.serial ∈ serials) : n ∉ (t.unregisterAll serials).registry.nodes := by
  intro hmem
  obtain ⟨cell, hcell, hnode⟩ := Option.map_eq_some_iff.mp hn
  have hdropped := ((mem_unregisterAll hproper).mp hmem).2 n.serial hserial cell hcell
  rw [hnode] at hdropped
  exact (hdropped rfl).2 rfl

/-- Entries were dropped, but none of an attached node. -/
structure Weeded (t : Tree) (registry : Registry) : Prop where
  /-- Nothing else happened to the entries. -/
  sublist : registry.nodes.Sublist t.registry.nodes
  /-- Those of attached nodes are left. -/
  keeps : ∀ n, t.Attached n → n ∈ t.registry.nodes → n ∈ registry.nodes

/-- No entry need be dropped. -/
theorem Weeded.refl (t : Tree) : t.Weeded t.registry :=
  ⟨List.Sublist.refl _, fun _ _ hn => hn⟩

/-- More entries may be dropped. -/
theorem Weeded.trans (h : t.Weeded registry)
    (h' : ({ t with registry := registry } : Tree).Weeded registry') : t.Weeded registry' :=
  ⟨h'.sublist.trans h.sublist,
    fun n hn hmem => h'.keeps n (hn.frame registry t.held) (h.keeps n hn hmem)⟩

section Weeding

variable (h : t.Arborescent) (hproper : t.registry.Proper)
include h hproper

/-- Dropping the entry of an object that is not attached drops no entry of an attached node: the
node lives, and is another object. -/
theorem weeded_unregister (hn : t.Owns n) (hapart : ¬ t.Attached n) :
    t.Weeded (t.unregister n).registry where
  sublist := sublist_unregister t n
  keeps m hm hmem := by
    rw [unregister]
    cases hfind : t.registry.find n.id with
    | none => exact hmem
    | some entry =>
      dsimp only
      split
      · exact hmem
      · next hsame =>
        refine Registry.mem_erase.mpr ⟨hmem, fun hid => hsame ?_⟩
        have hserial : m.serial ≠ n.serial := by
          intro hserial
          obtain rfl := (h.owns m hm).eq_of_serial hn hserial
          exact hapart hm
        obtain rfl : m = entry :=
          Option.some.inj ((hproper.find_eq_some_iff.mpr ⟨hmem, hid⟩).symm.trans hfind)
        simp [h.isLive hm, hserial]

/-- Dropping the entries of objects that are not attached drops none of an attached node. -/
theorem weeded_unregisterAll {serials : List Nat}
    (hserials : ∀ k ∈ serials, ∃ n, t.Owns n ∧ ¬ t.Attached n ∧ n.serial = k) :
    t.Weeded (t.unregisterAll serials).registry := by
  induction serials generalizing t with
  | nil => exact .refl t
  | cons k rest ih =>
    obtain ⟨⟨n, hn, hapart, rfl⟩, hrest⟩ := List.forall_mem_cons.mp hserials
    obtain ⟨cell, hcell, hnode⟩ := Option.map_eq_some_iff.mp hn
    have hweeded := weeded_unregister h hproper hn hapart
    rw [unregisterAll_cons hcell, hnode, unregister_eq]
    refine hweeded.trans (ih (h.frame (t.unregister n).registry)
      (hproper.sublist hweeded.sublist) fun k hk => ?_)
    obtain ⟨m, hm, hmapart, hserial⟩ := hrest k hk
    exact ⟨m, hm, fun hattached => hmapart (hattached.frame t.registry t.held), hserial⟩

/-- Dropping the entries of branches that are no longer attached succeeds. It drops the entries of
all their nodes, and none of an attached node. -/
theorem weeded_unregisterSubtrees
    (htops : ∀ top ∈ tops, t.Branch top ∧ ∀ n, t.Beneath top n → ¬ t.Attached n) :
    ∃ registry : Registry,
      (unregisterSubtrees tops).run t = .done (.ok ()) { t with registry := registry } ∧
      t.Weeded registry ∧ ∀ top ∈ tops, ∀ n, t.Beneath top n → n ∉ registry.nodes := by
  induction tops generalizing t with
  | nil => exact ⟨t.registry, rfl, .refl t, nofun⟩
  | cons top rest ih =>
    obtain ⟨⟨hbranch, hapart⟩, hrest⟩ := List.forall_mem_cons.mp htops
    obtain ⟨met, hmet, hmem⟩ := hbranch.exists_subtree? h.tidy
    have hmet_apart : ∀ k ∈ met, ∃ n, t.Owns n ∧ ¬ t.Attached n ∧ n.serial = k := by
      intro k hk
      obtain ⟨n, hn, hserial⟩ := (hmem k).mp hk
      exact ⟨n, hbranch.owns n hn, hapart n hn, hserial⟩
    have hweeded := weeded_unregisterAll h hproper hmet_apart
    obtain ⟨registry, hrun, hweeded', hgone'⟩ := ih (h.frame (t.unregisterAll met).registry)
      (hproper.sublist hweeded.sublist) fun top htop =>
        ⟨(hrest top htop).1.frame _, fun n hn hattached =>
          (hrest top htop).2 n (hn.frame t.registry) (hattached.frame t.registry t.held)⟩
    refine ⟨registry, ?_, hweeded.trans hweeded', List.forall_mem_cons.mpr ⟨fun n hn hentry => ?_,
      fun top htop n hn => hgone' top htop n (hn.frame _)⟩⟩
    · rw [unregisterSubtrees, run_bind, run_get, Run.bind_done_ok, hmet, run_bind,
        run_require_some, Run.bind_done_ok, run_bind, run_modify, Run.bind_done_ok,
        unregisterAll_eq]
      exact hrun
    · exact not_mem_unregisterAll hproper (hbranch.owns n hn) ((hmem n.serial).mpr ⟨n, hn, rfl⟩)
        (hweeded'.sublist.subset hentry)

end Weeding

end Tree

end LazyTree
