import LazyTree.Proofs.CoherentListings
import LazyTree.Proofs.RegistryEntries

set_option autoImplicit false

/-!
# The registry and the attached nodes

The registry is exact if it has one entry for each attached node, and no other. A change of the
array of an attached directory may detach some of its children, with all that is cached below them,
and attach new ones. If the new ones are then made to stand for their identities, and the entries of
the detached branches are dropped, in this order, then the registry is exact again, unless two nodes
that are attached by then have the same identity.

## Main definitions

* `LazyTree.Tree.Distinct` — attached nodes differ in their identities.
* `LazyTree.Tree.Exact` — the registry has exactly one entry for each attached node.
* `LazyTree.Tree.Spare` — a child that was made for a directory is new.
* `LazyTree.Tree.Kept`, `LazyTree.Tree.Tended` — a tree is in order, and what became of another one.

## Main results

* `LazyTree.Tree.attached_or_beneath`, `LazyTree.Tree.not_attached_of_beneath` — what a change of an
  array detaches are the branches of the children that it drops.
* `LazyTree.Tree.exact_change` — the registry is exact after a change.
* `LazyTree.Tree.Kept.change` — a tree is in order after a change.
-/

namespace LazyTree.Tree

open TreeM

/-- Attached nodes differ in their identities. -/
def Distinct (t : Tree) : Prop :=
  ∀ n m, t.Attached n → t.Attached m → n.id = m.id → n = m

/-- The registry has exactly one entry for each attached node. -/
structure Exact (t : Tree) : Prop where
  /-- No identity has two entries. -/
  proper : t.registry.Proper
  /-- The entries are those of the attached nodes. -/
  entries : ∀ n, n ∈ t.registry.nodes ↔ t.Attached n

/-- A node was made as a child of a directory, and is new. -/
structure Spare (t : Tree) (dir n : Node) : Prop where
  /-- It is new. -/
  loose : t.Loose n
  /-- It was made for the directory. -/
  parent : n.parent = some dir.id
  /-- It was made after it. -/
  later : dir.serial < n.serial

variable {t t' : Tree} {dir n top : Node} {c c' : Children}

/-- Whether identities differ does not depend on the registry, or on who holds objects. -/
theorem Distinct.frame (h : t.Distinct) (registry : Registry) (held : List Nat) :
    ({ t with registry := registry, held := held } : Tree).Distinct :=
  fun n m hn hm => h n m (hn.frame t.registry t.held) (hm.frame t.registry t.held)

/-- Whether the registry is exact does not depend on who holds objects. -/
theorem Exact.frame (h : t.Exact) (held : List Nat) : ({ t with held := held } : Tree).Exact :=
  ⟨h.proper, fun n => (h.entries n).trans
    ⟨fun hn => hn.frame t.registry held, fun hn => hn.frame t.registry t.held⟩⟩

/-- A child that is new stays so whoever holds objects, and whatever the registry is. -/
theorem Spare.frame (h : t.Spare dir n) (registry : Registry) (held : List Nat) :
    ({ t with registry := registry, held := held } : Tree).Spare dir n :=
  ⟨h.loose.frame registry held, h.parent, h.later⟩

/-- A child that is new stays so when others are made. -/
theorem Spare.made (hn : t.Spare dir n) (h : t.Rooted) (hmade : Made t t') : t'.Spare dir n :=
  ⟨hmade.loose h hn.loose, hn.parent, hn.later⟩

/-- A child that is made for a directory is new. -/
theorem Rooted.spare_make (h : t.Rooted) (hdir : t.Owns dir) (id : FileId) (name : String)
    (attributes : Attributes) :
    (t.make dir id name attributes).2.Spare dir (t.make dir id name attributes).1 :=
  ⟨loose_make h dir id name attributes, rfl, hdir.serial_lt⟩

/-! ### Changes of an array -/

/-- What was attached before a change of an array is so still, or is below a child that was dropped.

**Proof sketch.** By induction on how it was attached. A way that goes on from the changed array goes
on still, or its next node is a child that was dropped. -/
theorem attached_or_beneath (hc : t.children? dir = some c) (c' : Children) (hn : t.Attached n) :
    (t.setChildren dir c').Attached n ∨
      ∃ top ∈ c.present, top ∉ c'.present ∧ (t.setChildren dir c').Beneath top n := by
  have hgoes_on : ∀ {d n cd}, (t.setChildren dir c').children? d = some cd → n ∈ cd.present →
      ((t.setChildren dir c').Attached d ∨
        ∃ top ∈ c.present, top ∉ c'.present ∧ (t.setChildren dir c').Beneath top d) →
      (t.setChildren dir c').Attached n ∨
        ∃ top ∈ c.present, top ∉ c'.present ∧ (t.setChildren dir c').Beneath top n := by
    rintro d n cd hcd hn (hd | ⟨top, htop, hdropped, hbeneath⟩)
    · exact .inl (.child hd hcd hn)
    · exact .inr ⟨top, htop, hdropped, .child hbeneath hcd hn⟩
  induction hn with
  | root => exact .inl .root
  | @child d n cd _ hcd hn ih =>
    have hafter := children?_setChildren t d dir c'
    by_cases hserial : dir.serial = d.serial
    · obtain rfl : c = cd := Option.some.inj (hc.symm.trans ((children?_congr hserial).trans hcd))
      rw [if_pos hserial, hcd, Option.map_some] at hafter
      by_cases hkept : n ∈ c'.present
      · exact hgoes_on hafter hkept ih
      · exact .inr ⟨n, hn, hkept, .top⟩
    · rw [if_neg hserial, hcd] at hafter
      exact hgoes_on hafter hn ih

section Change

variable (h : t.Arborescent) (hdir : t.Attached dir) (hc : t.children? dir = some c)
  (hnew : ∀ n ∈ c'.present, n ∈ c.present ∨ t.Spare dir n)
include h hdir hc

/-- Below a child of the directory nothing changes, and everything was made after the directory. -/
theorem beneath_of_setChildren (htop : top ∈ c.present)
    (hn : (t.setChildren dir c').Beneath top n) : t.Beneath top n ∧ dir.serial < n.serial := by
  induction hn with
  | top => exact ⟨.top, h.later dir c top hdir hc htop⟩
  | @child d n cd _ hcd hn ih =>
    obtain ⟨hd, hlt⟩ := ih
    rw [children?_setChildren, if_neg (Nat.ne_of_lt hlt)] at hcd
    have hattached : t.Attached d := (Attached.child hdir hc htop).beneath hd
    exact ⟨.child hd hcd hn, Nat.lt_trans hlt (h.later d cd n hattached hcd hn)⟩

/-- There is a branch below each child that the directory had before. -/
theorem branch_setChildren (htop : top ∈ c.present) : (t.setChildren dir c').Branch top where
  owns n hn := by
    have hold := (beneath_of_setChildren h hdir hc htop hn).1
    exact (owns_setChildren t dir n c').mpr (h.owns n ((Attached.child hdir hc htop).beneath hold))
  later d cd n hd hcd hn := by
    obtain ⟨hold, hlt⟩ := beneath_of_setChildren h hdir hc htop hd
    rw [children?_setChildren, if_neg (Nat.ne_of_lt hlt)] at hcd
    exact h.later d cd n ((Attached.child hdir hc htop).beneath hold) hcd hn

include hnew

/-- A child in the array of a directory that is attached after the change is in the new array, or in
an array that was not changed, of a directory that was attached before. -/
theorem edge_setChildren {d : Node} {cd : Children} (hd : (t.setChildren dir c').Attached d)
    (hcd : (t.setChildren dir c').children? d = some cd) (hn : n ∈ cd.present) :
    d = dir ∧ n ∈ c'.present ∨
      t.Attached d ∧ d ≠ dir ∧ t.children? d = some cd := by
  rw [children?_setChildren] at hcd
  rcases h.attached_setChildren hdir hc (fun n hn => (hnew n hn).imp_right Spare.loose) hd with
    hd | ⟨hloose, -⟩
  · split at hcd
    · next hserial =>
      obtain rfl := (h.owns dir hdir).eq_of_serial (h.owns d hd) hserial
      obtain ⟨_, -, rfl⟩ := Option.map_eq_some_iff.mp hcd
      exact .inl ⟨rfl, hn⟩
    · next hserial => exact .inr ⟨hd, fun hsame => hserial (hsame ▸ rfl), hcd⟩
  · rw [if_neg (hloose.apart dir hdir)] at hcd
    rw [hloose.blank cd hcd, Children.present_empty] at hn
    cases hn

/-- A change of the array of an attached directory keeps the attached nodes a tree, if each child in
the new array was in the old one, or was made for the directory and is new. -/
theorem Arborescent.setChildren (htidy : c'.Tidy) (hpolicy : c'.policy = t.policy) :
    (t.setChildren dir c').Arborescent where
  toRooted := h.toRooted.setChildren hdir hc htidy hpolicy
    fun n hn => (hnew n hn).imp_right Spare.loose
  first := h.first
  held := h.held
  parent d cd n hd hcd hn := by
    rcases edge_setChildren h hdir hc hnew hd hcd hn with ⟨rfl, hn⟩ | ⟨hd, -, hcd⟩
    · exact (hnew n hn).elim (h.parent d c n hdir hc) Spare.parent
    · exact h.parent d cd n hd hcd hn
  later d cd n hd hcd hn := by
    rcases edge_setChildren h hdir hc hnew hd hcd hn with ⟨rfl, hn⟩ | ⟨hd, -, hcd⟩
    · exact (hnew n hn).elim (h.later d c n hdir hc) Spare.later
    · exact h.later d cd n hd hcd hn

/-- A node that was attached and is so after the change is the root, or in the array of the
directory that it was made for. -/
theorem exists_parent_setChildren (hn : t.Attached n) (hn' : (t.setChildren dir c').Attached n) :
    n = t.root ∨ ∃ d, t.Attached d ∧ (t.setChildren dir c').Attached d ∧ n.parent = some d.id ∧
      (d = dir → n ∈ c'.present) := by
  cases hn' with
  | root => exact .inl rfl
  | @child d _ cd hd hcd hmem =>
    rcases edge_setChildren h hdir hc hnew hd hcd hmem with ⟨rfl, hmem⟩ | ⟨hold, hother, hcd⟩
    · refine .inr ⟨d, hdir, hd, ?_, fun _ => hmem⟩
      rcases hnew n hmem with hold | hspare
      · exact h.parent d c n hdir hc hold
      · exact absurd rfl (hspare.loose.apart n hn)
    · exact .inr ⟨d, hold, hd, h.parent d cd n hold hcd hmem, fun hsame => absurd hsame hother⟩

/-- What is below a child that was dropped is not attached any more.

**Proof sketch.** By induction on how the node is below the child. If it was still attached, then
in an array of the directory that it was made for. There is only one such directory, because their
identities differ. But the child is not in the new array of its directory; and further below the
directory is not attached any more, by induction. -/
theorem not_attached_of_beneath (hdistinct : t.Distinct) (htop : top ∈ c.present)
    (hdropped : top ∉ c'.present) (hn : (t.setChildren dir c').Beneath top n) :
    ¬ (t.setChildren dir c').Attached n := by
  have hparent : ∀ {n}, (t.setChildren dir c').Beneath top n →
      (t.setChildren dir c').Attached n → ∀ d, t.Attached d → n.parent = some d.id →
      (t.setChildren dir c').Attached d ∧ (d = dir → n ∈ c'.present) := by
    intro n hn hn' d hd hid
    obtain ⟨hold, hlt⟩ := beneath_of_setChildren h hdir hc htop hn
    have hattached : t.Attached n := (Attached.child hdir hc htop).beneath hold
    rcases exists_parent_setChildren h hdir hc hnew hattached hn' with rfl | ⟨e, he, he', hid', hmem⟩
    · rw [h.first] at hlt
      cases hlt
    · obtain rfl := hdistinct d e hd he (Option.some.inj (hid.symm.trans hid'))
      exact ⟨he', hmem⟩
  induction hn with
  | top =>
    intro hn'
    exact hdropped ((hparent .top hn' dir hdir (h.parent dir c top hdir hc htop)).2 rfl)
  | @child d n cd hd hcd hn ih =>
    intro hn'
    obtain ⟨hold, hlt⟩ := beneath_of_setChildren h hdir hc htop hd
    have hattached : t.Attached d := (Attached.child hdir hc htop).beneath hold
    have hcd' := hcd
    rw [children?_setChildren, if_neg (Nat.ne_of_lt hlt)] at hcd'
    exact ih (hparent (.child hd hcd hn) hn' d hattached (h.parent d cd n hattached hcd' hn)).1

/-- A child that was dropped has a branch below it of which nothing is attached any more, whatever the
registry is. -/
theorem dropped_apart (hdistinct : t.Distinct) (htop : top ∈ c.present)
    (hdropped : top ∉ c'.present) (registry : Registry) :
    ({ t.setChildren dir c' with registry := registry } : Tree).Branch top ∧
      ∀ n, ({ t.setChildren dir c' with registry := registry } : Tree).Beneath top n →
        ¬ ({ t.setChildren dir c' with registry := registry } : Tree).Attached n := by
  refine ⟨(branch_setChildren h hdir hc htop).frame registry, fun n hn hattached => ?_⟩
  exact not_attached_of_beneath h hdir hc hnew hdistinct htop hdropped (hn.frame t.registry)
    (hattached.frame t.registry t.held)

/-- If the registry was exact before a change of an array, the children that were added are made to
stand for their identities, and the entries of the branches that were dropped are dropped, then this
succeeds, and the registry is exact, if identities differ then.

**Proof sketch.** A node that was attached before and is not any more is below a child that was
dropped, so its entry is dropped. An attached node that has got an entry, or had one before, keeps
it: no other node with its identity gets an entry, because that one would be attached as well, and
what is below a dropped child is not attached. -/
theorem exact_change (hexact : t.Exact) (hdistinct : t.Distinct) (htidy : c'.Tidy)
    (hpolicy : c'.policy = t.policy) {added dropped : List Node}
    (hadded : ∀ n ∈ added, n ∈ c'.present) (hall : ∀ n ∈ c'.present, n ∈ c.present ∨ n ∈ added)
    (hdropped : ∀ n, n ∈ dropped ↔ n ∈ c.present ∧ n ∉ c'.present) :
    ∃ registry : Registry,
      (unregisterSubtrees dropped).run (added.foldl register (t.setChildren dir c')) =
        .done (.ok ()) { t.setChildren dir c' with registry := registry } ∧
      ((t.setChildren dir c').Distinct →
        ({ t.setChildren dir c' with registry := registry } : Tree).Exact) := by
  have hafter := Arborescent.setChildren h hdir hc hnew htidy hpolicy
  have hproper : (added.foldl register (t.setChildren dir c')).registry.Proper :=
    proper_foldl_register hexact.proper
  have hmem : ∀ n, n ∈ (added.foldl register (t.setChildren dir c')).registry.nodes →
      n ∈ added ∨ n ∈ t.registry.nodes := fun n => mem_of_mem_foldl_register
  have hgets : ∀ n, n ∈ added ∨ n ∈ t.registry.nodes → (∀ m ∈ added, m.id = n.id → m = n) →
      n ∈ (added.foldl register (t.setChildren dir c')).registry.nodes :=
    fun n hn hsame => mem_foldl_register (t := t.setChildren dir c') hn hsame
  rw [foldl_register_eq]
  generalize (added.foldl register (t.setChildren dir c')).registry = registry at *
  have hapart := fun top htop => dropped_apart h hdir hc hnew hdistinct
    ((hdropped top).mp htop).1 ((hdropped top).mp htop).2 registry
  obtain ⟨registry', hrun, hweeded, hgone⟩ :=
    weeded_unregisterSubtrees (hafter.frame registry) hproper hapart
  refine ⟨registry', hrun, fun hdistinct' => ⟨hproper.sublist hweeded.sublist, fun n => ?_⟩⟩
  have hchild : ∀ m ∈ c'.present, (t.setChildren dir c').Attached m := fun m hm =>
    .child (.change_self h.owns hdir c') (children?_setChildren_self hc c') hm
  constructor
  · intro hn
    rcases hmem n (hweeded.sublist.subset hn) with hadd | hold
    · exact (hchild n (hadded n hadd)).frame registry' t.held
    · rcases attached_or_beneath hc c' ((hexact.entries n).mp hold) with
        hn' | ⟨top, htop, hnot, hbeneath⟩
      · exact hn'.frame registry' t.held
      · exact absurd hn (hgone top ((hdropped top).mpr ⟨htop, hnot⟩) n (hbeneath.frame registry))
  · intro hn
    have hn' : (t.setChildren dir c').Attached n := hn.frame t.registry t.held
    refine hweeded.keeps n (hn'.frame registry t.held) (hgets n ?_ fun m hm hid =>
      hdistinct' m n (hchild m (hadded m hm)) hn' hid)
    rcases h.attached_setChildren hdir hc (fun n hn => (hnew n hn).imp_right Spare.loose) hn' with
      hold | ⟨-, hpresent⟩
    · exact .inr ((hexact.entries n).mpr hold)
    · exact (hall n hpresent).elim (fun hold => .inr ((hexact.entries n).mpr (.child hdir hc hold)))
        .inl

end Change

/-! ### Trees in order -/

/-- A tree is in order: its attached nodes form a tree, and the registry is exact, unless two attached
nodes have the same identity. -/
structure Kept (t : Tree) : Prop extends Arborescent t where
  /-- The registry is exact. -/
  exact : t.Distinct → t.Exact

/-- What became of a tree: it is in order, objects are held as before, and the children that were
new are so still, but for some that were used. -/
structure Tended (t t' : Tree) (used : List Node) : Prop where
  /-- It is in order. -/
  kept : t'.Kept
  /-- Objects are held as before. -/
  held : t'.held = t.held
  /-- New children are so still. -/
  spare : ∀ dir n, t.Spare dir n → n ∉ used → t'.Spare dir n

variable {t'' : Tree} {nodes used used' : List Node}

/-- Whoever holds the root, a tree that is in order stays so. -/
theorem Kept.frame (h : t.Kept) {held : List Nat} (hheld : t.root.serial ∈ held) :
    ({ t with held := held } : Tree).Kept where
  toRooted := h.toRooted.frame t.registry held
  first := h.first
  held := hheld
  parent dir c n hdir := h.parent dir c n (hdir.frame t.registry t.held)
  later dir c n hdir := h.later dir c n (hdir.frame t.registry t.held)
  exact hdistinct := (h.exact (hdistinct.frame t.registry t.held)).frame held

/-- A tree that is in order stays so when more objects are held. -/
theorem Kept.hold (h : t.Kept) (nodes : List Node) : (t.hold nodes).Kept :=
  h.frame (List.mem_append_right _ h.held)

/-- Nothing may become of a tree. -/
theorem Kept.tended (h : t.Kept) : t.Tended t [] :=
  ⟨h, rfl, fun _ _ hn _ => hn⟩

/-- What was used is what was new before. -/
theorem Tended.mono (h : t.Tended t' used)
    (hused : ∀ dir n, t.Spare dir n → n ∈ used → n ∈ used') : t.Tended t' used' :=
  ⟨h.kept, h.held, fun dir n hn hout => h.spare dir n hn fun hmem => hout (hused dir n hn hmem)⟩

/-- One thing may become of a tree after another. -/
theorem Tended.trans (h : t.Tended t' []) (h' : t'.Tended t'' used) : t.Tended t'' used :=
  ⟨h'.kept, h'.held.trans h.held, fun dir n hn hout =>
    h'.spare dir n (h.spare dir n hn List.not_mem_nil) hout⟩

/-- What was used was not new before, if each used node was a child of an attached directory, or was
made since. -/
theorem Tended.unused (h : t.Tended t' used) (hdir : t.Attached dir)
    (hc : t.children? dir = some c)
    (hused : ∀ n ∈ used, n ∈ c.present ∨ t.cells.size ≤ n.serial) : t.Tended t' [] := by
  refine h.mono fun d n hn hmem => ?_
  rcases hused n hmem with hold | hlate
  · exact absurd rfl (hn.loose.apart n (.child hdir hc hold))
  · exact absurd hn.loose.owns.serial_lt (Nat.not_lt_of_le hlate)

/-- Objects that were held for a time leave those that were held before. -/
theorem held_release (h : t'.held = (t.hold nodes).held) : (t'.release nodes).held = t.held := by
  have hall : ∀ (nodes : List Node) (held : List Nat),
      nodes.foldl (fun held n => held.erase n.serial) (nodes.map Node.serial ++ held) = held := by
    intro nodes held
    induction nodes with
    | nil => rfl
    | cons n rest ih =>
      rw [List.foldl_cons, List.map_cons, List.cons_append, List.erase_cons_head, ih]
  show nodes.foldl _ t'.held = t.held
  rw [h]
  exact hall nodes t.held

/-- What becomes of a tree while some objects are held becomes of it when they are released. -/
theorem Tended.release (h : t.Kept) (h' : (t.hold nodes).Tended t' used) :
    t.Tended (t'.release nodes) used := by
  have hheld : (t'.release nodes).held = t.held := held_release h'.held
  have hroot : t'.root.serial ∈ (t'.release nodes).held := by
    rw [hheld, h'.kept.first, ← h.first]
    exact h.held
  exact ⟨h'.kept.frame hroot, hheld, fun dir n hn hunused =>
    (h'.spare dir n (hn.frame t.registry _) hunused).frame t'.registry _⟩

/-- Making objects does not make identities equal. -/
theorem Distinct.made (h : t.Distinct) (ht : t.Rooted) (hmade : Made t t') : t'.Distinct :=
  fun n m hn hm => h n m ((hmade.attached_iff ht.owns).mp hn) ((hmade.attached_iff ht.owns).mp hm)

/-- A tree that is in order stays so when objects are made. -/
theorem Kept.made (h : t.Kept) (hmade : Made t t') (hheld : t'.held = t.held) :
    t.Tended t' [] := by
  obtain ⟨hroot, hregistry⟩ := hmade.unchanged
  have hattached : ∀ n, t'.Attached n ↔ t.Attached n := fun n => hmade.attached_iff h.owns
  have harray : ∀ d c, t'.Attached d → t'.children? d = some c → t.children? d = some c := by
    intro d c hd hc
    rwa [hmade.children?_of_lt (h.owns d ((hattached d).mp hd)).serial_lt] at hc
  refine ⟨⟨⟨hmade.rooted h.toRooted, ?_, ?_, ?_, ?_⟩, ?_⟩, hheld,
    fun dir n hn _ => hn.made h.toRooted hmade⟩
  · rw [hroot, h.first]
  · rw [hroot, hheld]
    exact h.held
  · exact fun d c n hd hc => h.parent d c n ((hattached d).mp hd) (harray d c hd hc)
  · exact fun d c n hd hc => h.later d c n ((hattached d).mp hd) (harray d c hd hc)
  · intro hdistinct
    obtain ⟨hproper, hentries⟩ := h.exact fun n m hn hm =>
      hdistinct n m ((hattached n).mpr hn) ((hattached m).mpr hm)
    exact ⟨hregistry ▸ hproper, fun n => by rw [hregistry, hentries, hattached]⟩

/-- A change of the array of an attached directory, if the children that it adds are then made to
stand for their identities and the branches that it drops lose their entries, succeeds, and leaves
the tree in order. -/
theorem Kept.change (h : t.Kept) (hdistinct : t.Distinct) (hdir : t.Attached dir)
    (hc : t.children? dir = some c) (op : Children.Op) (hop : op.Admissible c.policy)
    (hnew : ∀ n ∈ (c.apply op).2.present, n ∈ c.present ∨ t.Spare dir n)
    (added dropped : List Node) (hadded : ∀ n ∈ added, n ∈ (c.apply op).2.present)
    (hall : ∀ n ∈ (c.apply op).2.present, n ∈ c.present ∨ n ∈ added)
    (hdropped : ∀ n, n ∈ dropped ↔ n ∈ c.present ∧ n ∉ (c.apply op).2.present) :
    ∃ t', (unregisterSubtrees dropped).run
        (added.foldl register (t.setChildren dir (c.apply op).2)) = .done (.ok ()) t' ∧
      t.Tended t' added ∧ t'.Attached dir ∧ t'.children? dir = some (c.apply op).2 := by
  obtain ⟨hcpolicy, hctidy⟩ := h.tidy dir c hc
  have htidy := (Children.apply_follows hctidy hop).tidy
  have hpolicy := (Children.apply_policy hctidy hop).trans hcpolicy
  obtain ⟨registry, hrun, hexact⟩ := exact_change h.toArborescent hdir hc hnew
    (h.exact hdistinct) hdistinct htidy hpolicy hadded hall hdropped
  have hafter := Arborescent.setChildren h.toArborescent hdir hc hnew htidy hpolicy
  refine ⟨_, hrun, ⟨⟨hafter.frame registry, fun hdistinct' =>
    hexact (hdistinct'.frame t.registry t.held)⟩, rfl, fun d n hn hunused => ?_⟩,
    (Attached.change_self h.owns hdir _).frame registry t.held,
    children?_setChildren_self hc _⟩
  have hout : n ∉ (c.apply op).2.present := by
    intro hmem
    rcases hall n hmem with hold | hadd
    · exact hn.loose.apart n (.child hdir hc hold) rfl
    · exact hunused hadd
  have hloose := h.toRooted.loose_setChildren hdir hc
    (fun n hn => (hnew n hn).imp_right Spare.loose) hn.loose hout
  exact ⟨hloose.frame registry t.held, hn.parent, hn.later⟩

/-! ### Trees with nothing but their roots -/

section OfRoot

variable (policy : CasePolicy) (config : TreeConfig) (root : FileId) (name : String)

/-- In a tree with nothing but its root identities differ. -/
theorem distinct_ofRoot : (ofRoot policy config root name).Distinct :=
  fun _ _ hn hm _ => (attached_ofRoot hn).trans (attached_ofRoot hm).symm

/-- A tree with nothing but its root is in order. -/
theorem kept_ofRoot : (ofRoot policy config root name).Kept := by
  have hnone : ∀ dir c n, (ofRoot policy config root name).Attached dir →
      (ofRoot policy config root name).children? dir = some c → n ∉ c.present := by
    intro dir c n hdir hc hn
    obtain rfl := attached_ofRoot hdir
    obtain rfl : Children.empty policy = c := Option.some.inj hc
    rw [Children.present_empty] at hn
    cases hn
  have htree : (ofRoot policy config root name).Arborescent :=
    ⟨rooted_ofRoot policy config root name, rfl, List.mem_singleton_self 0,
      fun dir c n hdir hc hn => absurd hn (hnone dir c n hdir hc),
      fun dir c n hdir hc hn => absurd hn (hnone dir c n hdir hc)⟩
  refine ⟨htree, fun _ => ⟨List.nodup_singleton _, fun n => ⟨fun hn => ?_, fun hn => ?_⟩⟩⟩
  · rw [List.mem_singleton.mp hn]
    exact .root
  · rw [attached_ofRoot hn]
    exact List.mem_singleton_self _

end OfRoot

end LazyTree.Tree
