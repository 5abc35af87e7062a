import LazyTree.Proofs.Attachment

set_option autoImplicit false

/-!
# Attached nodes form a tree

The attached nodes form a tree in the sense of graphs: each child was made for its directory, and
after it. So nothing is below itself, the walk over a node and all cached nodes below it comes to an
end, and it meets exactly these nodes. Since the root is held, all attached nodes live.

## Main definitions

* `LazyTree.Tree.Beneath` — a node is another one, or is cached below it.
* `LazyTree.Tree.Branch` — the nodes below a node are objects, each made after its directory.
* `LazyTree.Tree.Arborescent` — the attached nodes form a tree.

## Main results

* `LazyTree.Tree.Branch.exists_subtree?` — the walk over a branch meets exactly its nodes.
* `LazyTree.Tree.Arborescent.isLive` — attached nodes live.
-/

namespace LazyTree.Tree

/-- A node is another one, or is cached below it. -/
inductive Beneath (t : Tree) (top : Node) : Node → Prop where
  /-- The node itself is. -/
  | top : Beneath t top top
  /-- A child in the array of a directory that is so is. -/
  | child {dir n : Node} {c : Children} (beneath : Beneath t top dir)
    (known : t.children? dir = some c) (present : n ∈ c.present) : Beneath t top n

/-- Below a node there are objects of the tree, each made after the directory that it is in. -/
structure Branch (t : Tree) (top : Node) : Prop where
  /-- The nodes are objects of the tree. -/
  owns : ∀ n, t.Beneath top n → t.Owns n
  /-- They were made after their directories. -/
  later : ∀ dir c n, t.Beneath top dir → t.children? dir = some c → n ∈ c.present →
    dir.serial < n.serial

/-- The attached nodes form a tree, whose root is held. -/
structure Arborescent (t : Tree) : Prop extends Rooted t where
  /-- The root is the first object. -/
  first : t.root.serial = 0
  /-- The root is held. -/
  held : t.root.serial ∈ t.held
  /-- The children of a directory were made for it. -/
  parent : ∀ dir c n, t.Attached dir → t.children? dir = some c → n ∈ c.present →
    n.parent = some dir.id
  /-- They were made after it. -/
  later : ∀ dir c n, t.Attached dir → t.children? dir = some c → n ∈ c.present →
    dir.serial < n.serial

variable {t t' : Tree} {dir top n m : Node} {c : Children}

/-! ### What is below a node -/

/-- What is below an attached node is attached. -/
theorem Attached.beneath (htop : t.Attached top) (h : t.Beneath top n) : t.Attached n := by
  induction h with
  | top => exact htop
  | child _ hc hn ih => exact .child ih hc hn

/-- What is below a child is below the directory. -/
theorem Beneath.of_child (hc : t.children? top = some c) (hm : m ∈ c.present)
    (h : t.Beneath m n) : t.Beneath top n := by
  induction h with
  | top => exact .child .top hc hm
  | child _ hcd hn ih => exact .child ih hcd hn

/-- What is below a node is the node itself, or below one of its children. -/
theorem beneath_iff : t.Beneath top n ↔
    n = top ∨ ∃ c m, t.children? top = some c ∧ m ∈ c.present ∧ t.Beneath m n := by
  constructor
  · intro h
    induction h with
    | top => exact .inl rfl
    | @child d n cd _ hcd hn ih =>
      rcases ih with rfl | ⟨c, m, hc, hm, hd⟩
      · exact .inr ⟨cd, n, hcd, hn, .top⟩
      · exact .inr ⟨c, m, hc, hm, .child hd hcd hn⟩
  · rintro (rfl | ⟨c, m, hc, hm, hn⟩)
    · exact .top
    · exact hn.of_child hc hm

/-- What is below a node stays so while the arrays of all nodes below it stay. -/
theorem Beneath.mono (h : t.Beneath top n)
    (hchildren : ∀ d c, t.Beneath top d → t.children? d = some c → t'.children? d = some c) :
    t'.Beneath top n := by
  induction h with
  | top => exact .top
  | child hd hc hn ih => exact .child ih (hchildren _ _ hd hc) hn

/-- What is below a node does not depend on the registry. -/
theorem Beneath.frame (h : t.Beneath top n) (registry : Registry) :
    ({ t with registry := registry } : Tree).Beneath top n :=
  h.mono fun _ _ _ hc => hc

/-- Branches do not depend on the registry. -/
theorem Branch.frame (h : t.Branch top) (registry : Registry) :
    ({ t with registry := registry } : Tree).Branch top :=
  ⟨fun n hn => h.owns n (hn.frame t.registry),
    fun dir c n hdir hc hn => h.later dir c n (hdir.frame t.registry) hc hn⟩

/-- So does the branch of a child. -/
theorem Branch.of_child (h : t.Branch top) (hc : t.children? top = some c) (hm : m ∈ c.present) :
    t.Branch m :=
  ⟨fun n hn => h.owns n (hn.of_child hc hm),
    fun dir cd n hdir hcd hn => h.later dir cd n (hdir.of_child hc hm) hcd hn⟩

/-! ### The walk over a branch -/

/-- The numbers of the children of an object are those of the nodes in its array. -/
theorem mem_childSerials (ht : t.Tidy) {serial : Nat} : serial ∈ t.childSerials n.serial ↔
    ∃ c m, t.children? n = some c ∧ m ∈ c.present ∧ m.serial = serial := by
  have hsame : (t.cells[n.serial]?).bind Cell.children = t.children? n := rfl
  rw [childSerials, hsame]
  cases hc : t.children? n with
  | none => simp
  | some c =>
    have hslot : ∀ m, m ∈ c.present ↔ Slot.present m ∈ c.slots :=
      fun m => (ht n c hc).2.mem_present_iff_slot
    constructor
    · intro hserial
      obtain ⟨slot, hslots, hchild⟩ := List.mem_filterMap.mp hserial
      obtain ⟨m, hm, hserial⟩ := Option.map_eq_some_iff.mp hchild
      cases slot with
      | absent name => cases hm
      | present child =>
        cases hm
        exact ⟨c, m, rfl, (hslot m).mpr (Array.mem_toList_iff.mp hslots), hserial⟩
    · rintro ⟨_, m, ⟨⟩, hm, rfl⟩
      exact List.mem_filterMap.mpr
        ⟨.present m, Array.mem_toList_iff.mpr ((hslot m).mp hm), rfl⟩

/-- A walk that succeeds from each element of a list succeeds from the list, and meets what is met
from the elements. -/
theorem exists_mapM_eq_some {walk : Nat → Option (List Nat)} {serials : List Nat}
    (h : ∀ serial ∈ serials, (walk serial).isSome = true) :
    ∃ lists, serials.mapM walk = some lists ∧
      ∀ k, k ∈ lists.flatten ↔ ∃ serial ∈ serials, ∃ met, walk serial = some met ∧ k ∈ met := by
  induction serials with
  | nil => exact ⟨[], rfl, fun k => by simp⟩
  | cons serial rest ih =>
    obtain ⟨hfirst, hrest⟩ := List.forall_mem_cons.mp h
    obtain ⟨met, hmet⟩ := Option.isSome_iff_exists.mp hfirst
    obtain ⟨lists, hlists, hmem⟩ := ih hrest
    refine ⟨met :: lists, by simp [List.mapM_cons, hmet, hlists], fun k => ?_⟩
    rw [List.flatten_cons, List.mem_append, hmem]
    simp [hmet]

/-- A walk that succeeds from a list has succeeded from each element, and meets what it met from
there. -/
theorem exists_of_mapM_eq_some {walk : Nat → Option (List Nat)} {serials : List Nat}
    {lists : List (List Nat)} (h : serials.mapM walk = some lists) {serial : Nat}
    (hserial : serial ∈ serials) : ∃ met ∈ lists, walk serial = some met := by
  induction serials generalizing lists with
  | nil => cases hserial
  | cons first rest ih =>
    rw [List.mapM_cons] at h
    obtain ⟨met, hmet, h⟩ := Option.bind_eq_some_iff.mp h
    obtain ⟨mets, hmets, h⟩ := Option.bind_eq_some_iff.mp h
    obtain rfl : met :: mets = lists := Option.some.inj h
    rcases List.mem_cons.mp hserial with rfl | hserial
    · exact ⟨met, List.mem_cons_self, hmet⟩
    · obtain ⟨met', hmem, hmet'⟩ := ih hmets hserial
      exact ⟨met', List.mem_cons_of_mem _ hmem, hmet'⟩

/-- A walk that ends meets everything below the node that it began with.

**Proof sketch.** By induction on how deep the walk may go, as it does not tell how something is
below the node. -/
theorem mem_of_below? (ht : t.Tidy) {depth : Nat} {met : List Nat}
    (h : t.below? depth top.serial = some met) (hn : t.Beneath top n) : n.serial ∈ met := by
  induction depth generalizing top met with
  | zero => cases h
  | succ depth ih =>
    rw [below?] at h
    obtain ⟨lists, hlists, h⟩ := Option.bind_eq_some_iff.mp h
    obtain rfl : top.serial :: lists.flatten = met := Option.some.inj h
    rcases beneath_iff.mp hn with rfl | ⟨c, m, hc, hm, hn⟩
    · exact List.mem_cons_self
    · obtain ⟨part, hpart, hmet⟩ := exists_of_mapM_eq_some hlists
        ((mem_childSerials ht).mpr ⟨c, m, hc, hm, rfl⟩)
      exact List.mem_cons_of_mem _ (List.mem_flatten.mpr ⟨part, hpart, ih hmet hn⟩)

/-- A walk depends neither on the registry nor on who holds objects. -/
theorem below?_frame (t : Tree) (registry : Registry) (held : List Nat) (depth serial : Nat) :
    ({ t with registry := registry, held := held } : Tree).below? depth serial =
      t.below? depth serial := by
  induction depth generalizing serial with
  | zero => rfl
  | succ depth ih =>
    have hdepth : ({ t with registry := registry, held := held } : Tree).below? depth =
        t.below? depth := funext ih
    rw [below?, below?, hdepth]
    rfl

/-- Nor does what it meets in the end. -/
theorem subtree?_frame (t : Tree) (registry : Registry) (held : List Nat) (top : Node) :
    ({ t with registry := registry, held := held } : Tree).subtree? top = t.subtree? top :=
  below?_frame t registry held _ _

/-- A walk that ends meets nothing else.

**Proof sketch.** By induction on how deep the walk may go. -/
theorem exists_beneath_of_below? (ht : t.Tidy) {depth serial : Nat} {met : List Nat}
    (h : t.below? depth top.serial = some met) (hserial : serial ∈ met) :
    ∃ n, t.Beneath top n ∧ n.serial = serial := by
  induction depth generalizing top met with
  | zero => cases h
  | succ depth ih =>
    rw [below?] at h
    obtain ⟨lists, hlists, h⟩ := Option.bind_eq_some_iff.mp h
    obtain rfl : top.serial :: lists.flatten = met := Option.some.inj h
    have hends : ∀ child ∈ t.childSerials top.serial, (t.below? depth child).isSome = true := by
      intro child hchild
      obtain ⟨part, -, hpart⟩ := exists_of_mapM_eq_some hlists hchild
      rw [hpart]
      rfl
    obtain ⟨lists', hlists', hmem⟩ := exists_mapM_eq_some hends
    obtain rfl : lists = lists' := Option.some.inj (hlists.symm.trans hlists')
    rcases List.mem_cons.mp hserial with rfl | hserial
    · exact ⟨top, .top, rfl⟩
    · obtain ⟨child, hchild, part, hpart, hserial⟩ := (hmem serial).mp hserial
      obtain ⟨c, m, hc, hm, rfl⟩ := (mem_childSerials ht).mp hchild
      obtain ⟨n, hn, hnserial⟩ := ih hpart hserial
      exact ⟨n, hn.of_child hc hm, hnserial⟩

/-- A walk that ends meets exactly what is below the node that it began with. -/
theorem mem_of_subtree?_iff (ht : t.Tidy) {serial : Nat} {met : List Nat}
    (h : t.subtree? top = some met) : serial ∈ met ↔ ∃ n, t.Beneath top n ∧ n.serial = serial := by
  refine ⟨exists_beneath_of_below? ht h, ?_⟩
  rintro ⟨n, hn, rfl⟩
  exact mem_of_below? ht h hn

/-- A walk that may go deep enough over a branch ends, and meets exactly its nodes.

**Proof sketch.** By induction on how deep the walk may go. Each child was made after its directory,
so from there the walk has one step less to go. -/
theorem Branch.exists_below? (ht : t.Tidy) {depth : Nat} (h : t.Branch top)
    (hdepth : t.cells.size ≤ depth + top.serial) :
    ∃ met, t.below? depth top.serial = some met ∧
      ∀ k, k ∈ met ↔ ∃ n, t.Beneath top n ∧ n.serial = k := by
  have hobject := (h.owns top .top).serial_lt
  induction depth generalizing top with
  | zero => omega
  | succ depth ih =>
    have hchild : ∀ c m, t.children? top = some c → m ∈ c.present →
        ∃ met, t.below? depth m.serial = some met ∧
          ∀ k, k ∈ met ↔ ∃ n, t.Beneath m n ∧ n.serial = k := by
      intro c m hc hm
      have hlater := h.later top c m .top hc hm
      have hbranch := h.of_child hc hm
      exact ih hbranch (by omega) (hbranch.owns m .top).serial_lt
    have hends : ∀ serial ∈ t.childSerials top.serial, (t.below? depth serial).isSome = true := by
      intro serial hserial
      obtain ⟨c, m, hc, hm, rfl⟩ := (mem_childSerials ht).mp hserial
      obtain ⟨met, hmet, -⟩ := hchild c m hc hm
      rw [hmet]
      rfl
    obtain ⟨lists, hlists, hmem⟩ := exists_mapM_eq_some hends
    refine ⟨top.serial :: lists.flatten, by rw [below?, hlists]; rfl, fun k => ?_⟩
    rw [List.mem_cons, hmem]
    constructor
    · rintro (rfl | ⟨serial, hserial, met, hmet, hk⟩)
      · exact ⟨top, .top, rfl⟩
      · obtain ⟨c, m, hc, hm, rfl⟩ := (mem_childSerials ht).mp hserial
        obtain ⟨met', hmet', hiff⟩ := hchild c m hc hm
        obtain rfl : met = met' := Option.some.inj (hmet.symm.trans hmet')
        obtain ⟨n, hn, rfl⟩ := (hiff k).mp hk
        exact ⟨n, hn.of_child hc hm, rfl⟩
    · rintro ⟨n, hn, rfl⟩
      rcases beneath_iff.mp hn with rfl | ⟨c, m, hc, hm, hn⟩
      · exact .inl rfl
      · obtain ⟨met, hmet, hiff⟩ := hchild c m hc hm
        exact .inr ⟨m.serial, (mem_childSerials ht).mpr ⟨c, m, hc, hm, rfl⟩, met, hmet,
          (hiff n.serial).mpr ⟨n, hn, rfl⟩⟩

/-- The walk over a branch ends, and meets exactly its nodes. -/
theorem Branch.exists_subtree? (ht : t.Tidy) (h : t.Branch top) :
    ∃ met, t.subtree? top = some met ∧ ∀ k, k ∈ met ↔ ∃ n, t.Beneath top n ∧ n.serial = k :=
  h.exists_below? ht (Nat.le_add_right _ _)

/-! ### Life -/

namespace Arborescent

variable (h : t.Arborescent)
include h

/-- Among objects that include all attached ones, these survive. -/
theorem mem_survivors {rounds : Nat} {alive : List Nat}
    (halive : ∀ n, t.Attached n → n.serial ∈ alive) (hn : t.Attached n) :
    n.serial ∈ t.survivors rounds alive := by
  induction rounds generalizing alive with
  | zero => exact halive n hn
  | succ rounds ih =>
    rw [survivors]
    split
    · exact halive n hn
    · refine ih fun m hm => List.mem_filter.mpr ⟨halive m hm, ?_⟩
      rw [List.contains_iff_mem, List.mem_append]
      cases hm with
      | root => exact .inl h.held
      | @child d _ c hd hc hm =>
        exact .inr (List.mem_flatMap.mpr ⟨d.serial, halive d hd,
          (mem_childSerials h.tidy).mpr ⟨c, m, hc, hm, rfl⟩⟩)

/-- Attached nodes live. -/
theorem isLive (hn : t.Attached n) : t.isLive n = true := by
  rw [Tree.isLive, List.contains_iff_mem]
  exact h.mem_survivors (fun m hm => List.mem_range.mpr (h.owns m hm).serial_lt) hn

/-- What is said of attached nodes does not depend on the registry. -/
theorem frame (registry : Registry) : ({ t with registry := registry } : Tree).Arborescent where
  toRooted := h.toRooted.frame registry t.held
  first := h.first
  held := h.held
  parent dir c n hdir := h.parent dir c n (hdir.frame t.registry t.held)
  later dir c n hdir := h.later dir c n (hdir.frame t.registry t.held)

end Arborescent

end LazyTree.Tree
