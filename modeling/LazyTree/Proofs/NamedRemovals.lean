import LazyTree.Proofs.AdmittedChildren
import Mathlib.Data.Set.Card

set_option autoImplicit false

/-!
# Removals by name

A removal is given a node. It takes the child of that name and identity out of the array, whichever
object that is; but the entries that it drops are those of the given node and of all that is cached
below the given node. So the entries of what has left the array are dropped if it was the given node
that was cached. Another object of the same name and identity has other nodes below it, or none:
then the entries of the removed child and of all below it stay, as long as somebody holds these
nodes.

## Main definitions

* `LazyTree.Tree.Drops` — the entries that are dropped with a node.
* `LazyTree.Tree.Forgets` — the entries of a node and of all below it were dropped, and no others.

## Main results

* `LazyTree.Tree.mem_unregisterSubtrees` — which entries are left after some nodes were dropped.
* `LazyTree.Tree.removeChild_forgets_iff` — when a removal drops the entries of what it removes.
-/

namespace LazyTree

/-- The size of a registry is the number of its entries. -/
theorem Registry.Proper.size_eq {r : Registry} (h : r.Proper) :
    r.size = {e | e ∈ r.nodes}.ncard := by
  rw [Registry.size, ← List.toFinset_card_of_nodup (List.Nodup.of_map _ h), ← Set.ncard_coe_finset,
    List.coe_toFinset]

/-- If some entries were dropped, then the registry has become smaller by their number. -/
theorem Registry.Proper.size_add {r r' : Registry} (h : r.Proper) (h' : r'.Proper)
    {dropped : Node → Prop} (hmem : ∀ e, e ∈ r'.nodes ↔ e ∈ r.nodes ∧ ¬ dropped e) :
    r'.size + {e | e ∈ r.nodes ∧ dropped e}.ncard = r.size := by
  have hleft : {e | e ∈ r'.nodes} = {e | e ∈ r.nodes} \ {e | dropped e} := Set.ext hmem
  rw [h'.size_eq, h.size_eq, hleft]
  rw [Nat.add_comm]
  exact Set.ncard_inter_add_ncard_sdiff_eq_ncard _ _ r.nodes.finite_toSet

namespace Tree

open TreeM

/-- The entries that are dropped with a node: those of the node and of all that is cached below it,
and those of dead nodes that have an identity of one of these. -/
def Drops (t : Tree) (top e : Node) : Prop :=
  ∃ m, t.Beneath top m ∧ m.id = e.id ∧ (m.serial = e.serial ∨ t.isLive e = false)

/-- From one tree to the other, the entries of a node and of all that was cached below it were
dropped: their identities do not lead to them any more, and the registry has become smaller by the
number of these entries. -/
structure Forgets (t : Tree) (x : Node) (t' : Tree) : Prop where
  /-- Identities do not lead to these nodes any more. -/
  gone : ∀ n, t.Beneath x n → t'.node? n.id ≠ some n
  /-- As many entries were dropped as these nodes had. -/
  size : t'.registry.size + {e | e ∈ t.registry.nodes ∧ t.Beneath x e}.ncard = t.registry.size

variable {t t' : Tree} {dir child x top e : Node} {c : Children}

/-! ### Dropped entries -/

/-- What is below a node does not depend on the registry. -/
theorem beneath_frame (t : Tree) (registry : Registry) (top e : Node) :
    ({ t with registry := registry } : Tree).Beneath top e ↔ t.Beneath top e :=
  ⟨fun h => h.frame t.registry, fun h => h.frame registry⟩

/-- Nor does it matter which entries are dropped with a node. -/
theorem drops_frame (t : Tree) (registry : Registry) (top e : Node) :
    ({ t with registry := registry } : Tree).Drops top e ↔ t.Drops top e := by
  unfold Drops
  simp only [beneath_frame, isLive_frame]

/-- The entry of an object that lives is dropped with a node if the object is below the node. -/
theorem Peopled.drops_iff (h : t.Peopled) (htop : t.Owns top) (he : t.Owns e)
    (hlive : t.isLive e = true) : t.Drops top e ↔ t.Beneath top e := by
  constructor
  · rintro ⟨m, hm, -, hserial | hdead⟩
    · rwa [← (h.owns htop hm).eq_of_serial he hserial]
    · rw [hlive] at hdead
      cases hdead
  · exact fun hbeneath => ⟨e, hbeneath, rfl, .inl rfl⟩

/-- After the entries of a subtree were dropped, the others are left. -/
theorem mem_unregisterAll_subtree (h : t.Peopled) (hproper : t.registry.Proper)
    (htop : t.Owns top) {met : List Nat} (hmet : t.subtree? top = some met) :
    e ∈ (t.unregisterAll met).registry.nodes ↔ e ∈ t.registry.nodes ∧ ¬ t.Drops top e := by
  rw [mem_unregisterAll hproper]
  refine and_congr_right fun _ => ?_
  have hobject : ∀ {m : Node}, t.Beneath top m → ∃ cell, t.cells[m.serial]? = some cell ∧
      cell.node = m := fun hm => Option.map_eq_some_iff.mp (h.owns htop hm)
  constructor
  · rintro hkept ⟨m, hm, hid, hdropped⟩
    obtain ⟨cell, hcell, rfl⟩ := hobject hm
    obtain ⟨hlive, hserial⟩ := hkept _ ((mem_of_subtree?_iff h.tidy hmet).mpr ⟨_, hm, rfl⟩) cell
      hcell hid
    rcases hdropped with hsame | hdead
    · exact hserial hsame
    · rw [hlive] at hdead
      cases hdead
  · intro hkept serial hserial cell hcell hid
    obtain ⟨m, hm, rfl⟩ := (mem_of_subtree?_iff h.tidy hmet).mp hserial
    obtain ⟨cell', hcell', rfl⟩ := hobject hm
    obtain rfl : cell = cell' := Option.some.inj (hcell.symm.trans hcell')
    refine ⟨?_, fun hsame => hkept ⟨_, hm, hid, .inl hsame⟩⟩
    exact Bool.of_not_eq_false fun hdead => hkept ⟨_, hm, hid, .inr hdead⟩

/-- If dropping the entries of subtrees succeeds, then it drops the entries that go with the nodes
on top of them, and leaves all others. -/
theorem mem_unregisterSubtrees {tops : List Node} (h : t.Peopled) (hproper : t.registry.Proper)
    (htops : ∀ top ∈ tops, t.Owns top)
    (hrun : (unregisterSubtrees tops).run t = .done (.ok ()) t') :
    ∃ registry : Registry, t' = { t with registry := registry } ∧ registry.Proper ∧
      ∀ e, e ∈ registry.nodes ↔ e ∈ t.registry.nodes ∧ ∀ top ∈ tops, ¬ t.Drops top e := by
  induction tops generalizing t with
  | nil =>
    obtain rfl : t = t' := by injection hrun
    exact ⟨t.registry, rfl, hproper, fun e => ⟨fun he => ⟨he, nofun⟩, And.left⟩⟩
  | cons top rest ih =>
    obtain ⟨htop, hrest⟩ := List.forall_mem_cons.mp htops
    rw [unregisterSubtrees, run_bind, run_get, Run.bind_done_ok] at hrun
    cases hmet : t.subtree? top with
    | none =>
      rw [hmet] at hrun
      cases hrun
    | some met =>
      rw [hmet, run_bind, run_require_some, Run.bind_done_ok, run_bind, run_modify,
        Run.bind_done_ok] at hrun
      have hkept := fun e => mem_unregisterAll_subtree (e := e) h hproper htop hmet
      have hproper' := hproper.sublist (sublist_unregisterAll t met)
      rw [unregisterAll_eq] at hrun
      generalize (t.unregisterAll met).registry = registry at *
      obtain ⟨registry', rfl, hproper'', hmem⟩ :=
        ih (t := { t with registry := registry }) ⟨h.tidy, h.objects⟩ hproper' hrest hrun
      refine ⟨registry', rfl, hproper'', fun e => ?_⟩
      rw [hmem, hkept, List.forall_mem_cons, and_assoc]
      simp only [drops_frame]

/-! ### Removals -/

/-- Removing a child of the name and identity of a cached one drops the entries of the subtree of
the given node. -/
theorem run_removeChild_of_mem (ht : t.Tidy) (hc : t.children? dir = some c) (hx : x ∈ c.present)
    (hname : t.policy.key child.name = t.policy.key x.name) (hid : child.id = x.id) :
    (removeChild dir child).run t =
      ((unregisterSubtrees [child]).run (t.setChildren dir
        (c.apply (.remove child t.config.cacheRemovedNames)).2)).bind
          fun _ => (pure true : TreeM Bool).run := by
  have hop : Children.Op.Admissible c.policy (.remove child t.config.cacheRemovedNames) := trivial
  have hpolicy : c.ledger.policy = t.policy := (ht dir c hc).1
  have hknown : c.ledger.fact? child.name = some (.present x) := by
    rw [← (mem_present_iff (ht dir c hc).2).mp hx]
    exact c.ledger.fact?_congr (by rwa [hpolicy])
  have hremoved : (c.ledger.apply (.remove child t.config.cacheRemovedNames)).1 = true := by
    rw [Ledger.apply, Ledger.remove, hknown]
    exact congrArg Prod.fst (if_pos hid.symm)
  have hrun : (removeChild dir child).run t = _ := run_change_bind ht hc hop _
  rw [hrun, hremoved]
  rfl

/-- What an identity leads to is an entry of a living node. -/
theorem node?_eq_some_iff (hproper : t.registry.Proper) :
    t.node? e.id = some e ↔ e ∈ t.registry.nodes ∧ t.isLive e = true := by
  rw [node?, Option.filter_eq_some_iff, hproper.find_eq_some_iff, and_iff_left rfl]

/-- Say that the entries that go with a node were dropped. Then the identities of some objects do
not lead to them any more exactly if those of them that have entries and live are below the node. -/
theorem forall_node?_ne_iff {registry : Registry} {objects : Node → Prop} (h : t.Peopled)
    (htop : t.Owns top) (hproper : registry.Proper)
    (hmem : ∀ e, e ∈ registry.nodes ↔ e ∈ t.registry.nodes ∧ ¬ t.Drops top e)
    (hobjects : ∀ n, objects n → t.Owns n) :
    (∀ n, objects n → ({ t with registry := registry } : Tree).node? n.id ≠ some n) ↔
      ∀ e ∈ t.registry.nodes, objects e → t.isLive e = true → t.Beneath top e := by
  have hfound : ∀ n, ({ t with registry := registry } : Tree).node? n.id = some n ↔
      (n ∈ t.registry.nodes ∧ ¬ t.Drops top n) ∧ t.isLive n = true := by
    intro n
    rw [node?_eq_some_iff (t := { t with registry := registry }) hproper, hmem, isLive_frame]
  constructor
  · intro hgone e he hobject hlive
    by_contra hapart
    rw [← h.drops_iff htop (hobjects e hobject) hlive] at hapart
    exact hgone e hobject ((hfound e).mpr ⟨⟨he, hapart⟩, hlive⟩)
  · intro hbelow n hobject hnode
    obtain ⟨⟨hentry, hkept⟩, hlive⟩ := (hfound n).mp hnode
    exact hkept ((h.drops_iff htop (hobjects n hobject) hlive).mpr
      (hbelow n hentry hobject hlive))

/-- Say that the entries that go with a node were dropped, in a tree that has come about from
another without a change of the registry. Then the entries of a node there, and of all that was
cached below it, were dropped and no others exactly if those of these nodes that have entries and
live are below the dropped node, and if as many entries went with that as these nodes had. -/
theorem forgets_iff {t₁ : Tree} {registry : Registry} (h : t₁.Peopled) (hchild : t₁.Owns child)
    (hsame : t₁.registry = t.registry) (hproper : t.registry.Proper) (hproper' : registry.Proper)
    (hmem : ∀ e, e ∈ registry.nodes ↔ e ∈ t.registry.nodes ∧ ¬ t₁.Drops child e)
    (hobjects : ∀ n, t.Beneath x n → t₁.Owns n) :
    t.Forgets x { t₁ with registry := registry } ↔
      (∀ e ∈ t.registry.nodes, t.Beneath x e → t₁.isLive e = true → t₁.Beneath child e) ∧
        {e | e ∈ t.registry.nodes ∧ t₁.Drops child e}.ncard =
          {e | e ∈ t.registry.nodes ∧ t.Beneath x e}.ncard := by
  have hsize := hproper.size_add hproper' hmem
  rw [← hsame] at hmem
  have hgone := forall_node?_ne_iff h hchild hproper' hmem hobjects
  rw [hsame] at hgone
  constructor
  · exact fun h => ⟨hgone.mp h.gone, Nat.add_left_cancel (hsize.trans h.size.symm)⟩
  · rintro ⟨hbelow, hcount⟩
    exact ⟨hgone.mpr hbelow, hcount ▸ hsize⟩

/-- Where an array has lost children, nothing has come to be below a node. -/
theorem Beneath.of_setChildren {c' : Children} {n : Node} (hc : t.children? dir = some c)
    (hsubset : ∀ n ∈ c'.present, n ∈ c.present) (h : (t.setChildren dir c').Beneath top n) :
    t.Beneath top n := by
  induction h with
  | top => exact .top
  | @child d n cd _ hcd hn ih =>
    rw [children?_setChildren] at hcd
    split at hcd
    · next hserial =>
      obtain ⟨_, -, rfl⟩ := Option.map_eq_some_iff.mp hcd
      exact .child ih ((children?_congr hserial.symm).trans hc) (hsubset n hn)
    · exact .child ih hcd hn

/-- A removal finds the child of the given name and identity, unless what is cached below the given
node has no end. It drops the entries that go with the given node.

The entries of the removed child and of all that was cached below it were dropped, and no others,
exactly if those of these nodes that have entries and are still held are below the given node, and
if as many entries go with the given node as these nodes had. That is so if the given node is the
removed child, if the directory is not cached below it, and if the other entries are those of living
objects. -/
theorem removeChild_forgets_iff {policy : CasePolicy} {config : TreeConfig} {root : FileId}
    {rootName : String} (hreached : Admits (ofRoot policy config root rootName) t)
    (hdir : t.Owns dir) (hc : t.children? dir = some c) (hx : x ∈ c.present)
    (hchild : t.Owns child) (hname : t.policy.key child.name = t.policy.key x.name)
    (hid : child.id = x.id) :
    ∃ result t', (removeChild dir child).run t = .done result t' ∧
      ((∃ id, result = .error (.endless id)) ∨ result = .ok true ∧
        (∀ e, e ∈ t'.registry.nodes ↔ e ∈ t.registry.nodes ∧ ¬ t'.Drops child e) ∧
        (t.Forgets x t' ↔
          (∀ e ∈ t.registry.nodes, t.Beneath x e → t'.isLive e = true → t'.Beneath child e) ∧
          {e | e ∈ t.registry.nodes ∧ t'.Drops child e}.ncard =
            {e | e ∈ t.registry.nodes ∧ t.Beneath x e}.ncard) ∧
        (child = x → ¬ t.Beneath x dir →
          (∀ e ∈ t.registry.nodes, ¬ t.Beneath x e → t.Owns e ∧ t'.isLive e = true) →
          t.Forgets x t')) := by
  obtain ⟨ht, hproper⟩ := hreached.peopled_and_proper
  have hop : Children.Op.Admissible c.policy (.remove child t.config.cacheRemovedNames) := trivial
  have ht₁ := ht.change hc (.remove child t.config.cacheRemovedNames) hop nofun
  have hsubset : ∀ n ∈ (c.apply (.remove child t.config.cacheRemovedNames)).2.present,
      n ∈ c.present := fun n hn =>
    (Children.mem_present_or_offered (ht.tidy dir c hc).2 hop hn).resolve_right nofun
  rw [run_removeChild_of_mem ht.tidy hc hx hname hid]
  generalize (c.apply (.remove child t.config.cacheRemovedNames)).2 = c' at *
  have howns : ∀ n, (t.setChildren dir c').Owns n ↔ t.Owns n := fun n => owns_setChildren t dir n c'
  obtain ⟨result, registry, hdropped⟩ := run_unregisterSubtrees [child] (t.setChildren dir c')
  cases result with
  | error e =>
    obtain ⟨top, -, -, rfl⟩ := unregisterSubtrees_error hdropped
    exact ⟨_, _, congrArg (Run.bind · _) hdropped, .inl ⟨top.id, rfl⟩⟩
  | ok _ =>
    refine ⟨_, _, congrArg (Run.bind · _) hdropped, .inr ⟨rfl, ?_⟩⟩
    obtain ⟨registry', hsame, hproper', hmem⟩ := mem_unregisterSubtrees ht₁ hproper
      (by simpa using (howns child).mpr hchild) hdropped
    obtain rfl : registry = registry' := congrArg Tree.registry hsame
    simp only [List.forall_mem_singleton] at hmem
    have hobjects : ∀ n, t.Beneath x n → (t.setChildren dir c').Owns n := fun n hn =>
      (howns n).mpr (ht.owns (ht.objects dir c x hc hx) hn)
    have hforgets := forgets_iff (t := t) (x := x) ht₁ ((howns child).mpr hchild) rfl hproper
      hproper' hmem hobjects
    simp only [drops_frame, isLive_frame, beneath_frame]
    refine ⟨hmem, hforgets, ?_⟩
    rintro rfl hapart hothers
    have hbelow : ∀ e, t.Beneath child e → (t.setChildren dir c').Beneath child e := by
      intro e he
      refine he.mono fun d cd hd hcd => ?_
      rw [children?_setChildren, if_neg, hcd]
      intro hserial
      exact hapart ((ht.owns hchild hd).eq_of_serial hdir hserial.symm ▸ hd)
    refine hforgets.mpr ⟨fun e _ he _ => hbelow e he, congrArg Set.ncard (Set.ext fun e => ?_)⟩
    refine and_congr_right fun he => ⟨fun hdrops => ?_, fun hbeneath => ?_⟩
    · by_contra hout
      obtain ⟨hobject, hlive⟩ := hothers e he hout
      rw [ht₁.drops_iff ((howns child).mpr hchild) ((howns e).mpr hobject) hlive] at hdrops
      exact hout (hdrops.of_setChildren hc hsubset)
    · exact ⟨e, hbelow e hbeneath, rfl, .inl rfl⟩

/-! ### Two objects for one directory

A directory is looked up and held. Its parent is forgotten, and another lookup makes another object
for the same directory, which is held as well; a file is looked up below this one. Then the
directory is removed by the first object. -/

namespace Twofold

/-- The root of the tree. -/
def root : Node :=
  ⟨0, ⟨1, FileId.raw_one_ne_zero⟩, "root", none, { directory := true }⟩

/-- The first object for the directory. -/
def former : Node :=
  ⟨1, ⟨2, FileId.raw_two_ne_zero⟩, "d", some root.id, { directory := true }⟩

/-- The second object for the directory. -/
def current : Node :=
  { former with serial := 2 }

/-- The file in the directory. -/
def file : Node :=
  ⟨3, ⟨3, FileId.raw_three_ne_zero⟩, "a", some former.id, {}⟩

/-- The backend. -/
def table : Table :=
  ((Table.ofRoot .sensitive root.id).add root.id ⟨"d", some former.id, some former.attributes⟩).add
    former.id ⟨"a", some file.id, some file.attributes⟩

/-- The tree before the removal. -/
def cached : Tree :=
  (ofRoot .sensitive {} root.id "root")
    |>.stepped table.answer root (.lookup "d") [0, 1]
    |>.stepped table.answer root .clearChildren [0, 1]
    |>.stepped table.answer root (.lookup "d") [0, 1, 2]
    |>.stepped table.answer current (.lookup "a") [0, 1, 2]

/-- The removal, with its answer and the tree afterwards. -/
def removal : Except TreeError Bool × Tree :=
  (removeChild root former).answered table.answer cached

/-- Only objects were admitted to the tree before the removal. -/
theorem admits_cached : Admits (ofRoot .sensitive {} root.id "root") cached :=
  .stepped table.answer root (.lookup "d") [0, 1] nofun
    (.stepped table.answer root .clearChildren [0, 1] nofun
      (.stepped table.answer root (.lookup "d") [0, 1, 2] nofun
        (.stepped table.answer current (.lookup "a") [0, 1, 2] nofun (.refl _))))

/-- The second object is cached in the root, and the file below it. -/
theorem present_cached : (cached.children? root).map Children.present = some [current] ∧
    (cached.children? current).map Children.present = some [file] := by
  decide +kernel

/-- The root and the first object are objects of the tree. -/
theorem owns_cached : cached.Owns root ∧ cached.Owns former := by
  unfold Owns
  decide +kernel

/-- The file is below the second object. -/
theorem beneath_current : cached.Beneath current file := by
  obtain ⟨c, hc, hpresent⟩ := Option.map_eq_some_iff.mp present_cached.2
  exact .child .top hc (hpresent ▸ List.mem_singleton_self file)

/-- The removal asks nothing, and succeeds. -/
theorem run_removal : (removeChild root former).run cached = .done (.ok true) removal.2 := by
  have htidy : cached.Tidy := admits_cached.happens.tidy (tidy_ofRoot _ _ _ _)
  obtain ⟨c, hc, -⟩ := Option.map_eq_some_iff.mp present_cached.1
  obtain ⟨result, registry, hrun⟩ := run_removeChild htidy hc former
  have hend : removal = (result, _) := congrArg
    (fun run : Run Bool => (run.serve (fun q t (_ : Unit) => (table.answer q, t, ())) ()).map id
      Prod.fst) hrun
  have hok : removal.1.toOption = some true := by decide +kernel
  rw [hrun, hend]
  rw [hend] at hok
  cases result with
  | ok removed => exact congrArg (fun removed => Run.done (.ok removed) _) (Option.some.inj hok)
  | error e => cases hok

/-- The identity of the file still leads to it. -/
theorem node?_removal : removal.2.node? file.id = some file := by
  decide +kernel

/-- The removal by the first object does not drop the entry of the file: the file is still held
through the second object, and is not below the first. -/
theorem removeChild_forgets_iff_twofold :
    ∃ last, (removeChild root former).run cached = .done (.ok true) last ∧
      ¬ cached.Forgets current last ∧
      ¬ ((∀ e ∈ cached.registry.nodes, cached.Beneath current e → last.isLive e = true →
          last.Beneath former e) ∧
        {e | e ∈ cached.registry.nodes ∧ last.Drops former e}.ncard =
          {e | e ∈ cached.registry.nodes ∧ cached.Beneath current e}.ncard) := by
  obtain ⟨c, hc, hpresent⟩ := Option.map_eq_some_iff.mp present_cached.1
  have hx : current ∈ c.present := hpresent ▸ List.mem_singleton_self current
  have hid : former.id = current.id := rfl
  obtain ⟨result, last, hrun, hend⟩ := removeChild_forgets_iff admits_cached owns_cached.1 hc hx
    owns_cached.2 rfl hid
  rw [run_removal] at hrun
  injection hrun with hresult hlast
  subst hresult hlast
  obtain ⟨-, -, hforgets, -⟩ := hend.resolve_left nofun
  have hnot : ¬ cached.Forgets current removal.2 := fun h =>
    h.gone file beneath_current node?_removal
  exact ⟨removal.2, run_removal, hnot, fun h => hnot (hforgets.mpr h)⟩

/-- A removal need not drop the entries of what it removes, and of all that was cached below. -/
theorem not_removeChild_forgets : ¬ ∀ {policy : CasePolicy} {config : TreeConfig} {root : FileId}
    {rootName : String} {t t' : Tree} {dir child x : Node} {c : Children},
    Admits (ofRoot policy config root rootName) t → t.Owns dir → t.children? dir = some c →
    x ∈ c.present → t.Owns child → t.policy.key child.name = t.policy.key x.name →
    child.id = x.id → (removeChild dir child).run t = .done (.ok true) t' → t.Forgets x t' := by
  intro h
  obtain ⟨c, hc, hpresent⟩ := Option.map_eq_some_iff.mp present_cached.1
  have hx : current ∈ c.present := hpresent ▸ List.mem_singleton_self current
  have hid : former.id = current.id := rfl
  have hforgets := h admits_cached owns_cached.1 hc hx owns_cached.2 rfl hid run_removal
  exact hforgets.gone file beneath_current node?_removal

end Twofold

end Tree

end LazyTree
