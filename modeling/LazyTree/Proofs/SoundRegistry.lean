import LazyTree.Proofs.KeptLookups
import LazyTree.Proofs.OvertakenListings

set_option autoImplicit false

/-!
# Registered nodes are attached

A registry is sound if it has entries of attached nodes only. This is less than exactness, and it
asks less of a tree: identities may repeat, a child may be added that is older than its directory,
and an array may be changed while other operations wait for the backend. What detaches nodes drops
the entries of all that were cached below, so the registry stays sound; and what is registered is in
the array of a directory, so the registry stays sound if the directory is attached by then.

## Main definitions

* `LazyTree.Tree.Sound` — the nodes in arrays are objects of the tree, and registered nodes are
  attached.
* `LazyTree.Tree.SoundAt` — a directory is attached, too.

## Main results

* `LazyTree.Tree.Sound.change` — the registry is sound after a change of the array of an attached
  directory.
* `LazyTree.Tree.Sound.gain` — so it is after a change that adds at most the child that it answers.
-/

namespace LazyTree.Tree

open TreeM

/-- The nodes in arrays are objects of the tree, and no node has an entry unless it is attached. -/
structure Sound (t : Tree) : Prop where
  /-- All arrays are tidy. -/
  tidy : t.Tidy
  /-- The root is an object of the tree. -/
  root : t.Owns t.root
  /-- So are all nodes in arrays. -/
  objects : ∀ dir c n, t.children? dir = some c → n ∈ c.present → t.Owns n
  /-- No identity has two entries. -/
  proper : t.registry.Proper
  /-- Registered nodes are attached. -/
  attached : ∀ n ∈ t.registry.nodes, t.Attached n

/-- The registry is sound, and a directory is attached. -/
structure SoundAt (t : Tree) (dir : Node) : Prop where
  /-- The registry is sound. -/
  sound : t.Sound
  /-- The directory is attached. -/
  attached : t.Attached dir

variable {t t' : Tree} {dir n : Node} {c c' : Children}

/-! ### Updates that leave arrays and registry alone -/

/-- Attached nodes are objects of the tree. -/
theorem Sound.owns (h : t.Sound) (hn : t.Attached n) : t.Owns n := by
  cases hn with
  | root => exact h.root
  | child _ hc hn => exact h.objects _ _ _ hc hn

/-- Whether the registry is sound does not depend on who holds objects. -/
theorem Sound.frame (h : t.Sound) (held : List Nat) : ({ t with held := held } : Tree).Sound :=
  ⟨h.tidy, h.root, h.objects, h.proper, fun n hn => (h.attached n hn).frame t.registry held⟩

/-- Nor does it matter who holds objects for whether a directory is attached as well. -/
theorem SoundAt.frame (h : t.SoundAt dir) (held : List Nat) :
    ({ t with held := held } : Tree).SoundAt dir :=
  ⟨h.sound.frame held, h.attached.frame t.registry held⟩

/-- Objects stay objects when others are made. -/
theorem Made.owns (h : Made t t') (hn : t.Owns n) : t'.Owns n := by
  induction h with
  | refl t => exact hn
  | make dir id name attributes _ ih => exact ih (hn.make dir id name attributes)
  | held held _ ih => exact ih hn

/-- What is cached below a node after an object was made was cached there before. -/
theorem children?_of_make {parent d n : Node} {id : FileId} {name : String}
    {attributes : Attributes} (hc : (t.make parent id name attributes).2.children? d = some c)
    (hn : n ∈ c.present) : t.children? d = some c := by
  rw [children?_make] at hc
  split at hc
  · split at hc
    · cases hc
      rw [Children.present_empty] at hn
      cases hn
    · cases hc
  · exact hc

/-- So it is after any objects were made. -/
theorem Made.children?_of_mem {d n : Node} (h : Made t t') (hc : t'.children? d = some c)
    (hn : n ∈ c.present) : t.children? d = some c := by
  induction h with
  | refl t => exact hc
  | make dir id name attributes _ ih => exact children?_of_make (ih hc) hn
  | held held _ ih => exact ih hc

/-- Making objects leaves the registry sound. -/
theorem Sound.made (h : t.Sound) (hmade : Made t t') : t'.Sound := by
  induction hmade with
  | refl t => exact h
  | held held _ ih => exact ih (h.frame held)
  | @make t t' dir id name attributes _ ih =>
    have hmade : Made t (t.make dir id name attributes).2 := .make _ _ _ _ (.refl _)
    refine ih ⟨h.tidy.make dir id name attributes, hmade.owns h.root, fun d c n hc hn => ?_,
      h.proper, fun n hn => hmade.attached (h.attached n hn)⟩
    exact hmade.owns (h.objects d c n (children?_of_make hc hn) hn)

/-- So it stays with an attached directory. -/
theorem SoundAt.made (h : t.SoundAt dir) (hmade : Made t t') : t'.SoundAt dir :=
  ⟨h.sound.made hmade, hmade.attached h.attached⟩

/-- Saying that an object needs a refresh changes nothing else of it. -/
theorem cell?_setDirty (t : Tree) (n : Node) (dirty : Bool) (serial : Nat) :
    (t.setDirty dirty serial).cell? n = (t.cell? n).map fun cell =>
      if serial = n.serial then { cell with dirty := dirty } else cell := by
  unfold cell? Tree.setDirty modifyCell
  rw [Array.getElem?_modify]
  split
  · rfl
  · cases t.cells[n.serial]? <;> rfl

/-- The directories among the objects have arrays whatever needs a refresh. -/
theorem Furnished.setDirty (h : t.Furnished) (dirty : Bool) (serial : Nat) :
    (t.setDirty dirty serial).Furnished := by
  intro n cell hcell
  rw [cell?_setDirty] at hcell
  obtain ⟨cell', hcell', rfl⟩ := Option.map_eq_some_iff.mp hcell
  have hold := h n cell' hcell'
  split <;> exact hold

/-- No update loses the array of a directory. -/
theorem Furnished.update (h : t.Furnished) (hupdate : Update t t') : t'.Furnished := by
  cases hupdate with
  | make dir id name attributes => exact h.make dir id name attributes
  | change dir c op => exact h.setChildren dir _
  | dirty dirty serial => exact h.setDirty dirty serial
  | registry => exact h
  | held => exact h

/-- The objects stay the same when it is said that one needs a refresh. -/
theorem owns_setDirty (t : Tree) (n : Node) (dirty : Bool) (serial : Nat) :
    (t.setDirty dirty serial).Owns n ↔ t.Owns n := by
  unfold Owns
  rw [cell?_setDirty, Option.map_map]
  cases t.cell? n with
  | none => rfl
  | some cell =>
    simp only [Option.map_some, Function.comp_apply]
    split <;> rfl

/-- Saying that an object needs a refresh leaves the registry sound. -/
theorem Sound.setDirty (h : t.Sound) (dirty : Bool) (serial : Nat) :
    (t.setDirty dirty serial).Sound := by
  refine ⟨fun n c hc => ?_, (owns_setDirty t _ dirty serial).mpr h.root,
    fun d c n hc hn => ?_, h.proper, fun n hn => ?_⟩
  · rw [children?_setDirty] at hc
    exact h.tidy n c hc
  · rw [children?_setDirty] at hc
    exact (owns_setDirty t n dirty serial).mpr (h.objects d c n hc hn)
  · exact (h.attached n hn).mono rfl fun d c _ hc => by rwa [children?_setDirty]

/-- No update loses an object. -/
theorem stable_owns (policy : CasePolicy) (n : Node) :
    Stable policy fun t => t.policy = policy ∧ t.Owns n where
  policy _ h := h.1
  update := by
    rintro t t' hupdate ⟨hpolicy, hn⟩
    cases hupdate with
    | make dir id name attributes => exact ⟨hpolicy, hn.make dir id name attributes⟩
    | change dir c op => exact ⟨hpolicy, (owns_setChildren t dir n _).mpr hn⟩
    | dirty dirty serial => exact ⟨hpolicy, (owns_setDirty t n dirty serial).mpr hn⟩
    | registry => exact ⟨hpolicy, hn⟩
    | held => exact ⟨hpolicy, hn⟩

/-- Whatever happens, objects stay objects. -/
theorem Happens.owns (h : Happens t t') (hn : t.Owns n) : t'.Owns n :=
  ((stable_owns t.policy n).happens h ⟨rfl, hn⟩).2

/-! ### Dropping entries -/

/-- If dropping the entries of subtrees succeeds, then it adds no entry, and leaves none of an
object that is cached in one of them. -/
theorem unregisterSubtrees_ok {tops : List Node} (ht : t.Tidy) (hproper : t.registry.Proper)
    (hrun : (unregisterSubtrees tops).run t = .done (.ok ()) t') :
    ∃ registry : Registry, t' = { t with registry := registry } ∧
      registry.nodes.Sublist t.registry.nodes ∧
      ∀ top ∈ tops, ∀ n, t.Beneath top n → t.Owns n → n ∉ registry.nodes := by
  induction tops generalizing t with
  | nil =>
    obtain rfl : t = t' := by injection hrun
    exact ⟨t.registry, rfl, List.Sublist.refl _, nofun⟩
  | cons top rest ih =>
    rw [unregisterSubtrees, run_bind, run_get, Run.bind_done_ok] at hrun
    cases hmet : t.subtree? top with
    | none =>
      rw [hmet] at hrun
      cases hrun
    | some met =>
      rw [hmet, run_bind, run_require_some, Run.bind_done_ok, run_bind, run_modify,
        Run.bind_done_ok] at hrun
      have hsub := sublist_unregisterAll t met
      have hgone : ∀ n, t.Owns n → n.serial ∈ met → n ∉ (t.unregisterAll met).registry.nodes :=
        fun n hn hserial => not_mem_unregisterAll hproper hn hserial
      rw [unregisterAll_eq] at hrun
      generalize (t.unregisterAll met).registry = registry at *
      obtain ⟨registry', rfl, hsub', hgone'⟩ :=
        ih (t := { t with registry := registry }) ht (hproper.sublist hsub) hrun
      refine ⟨registry', rfl, hsub'.trans hsub, List.forall_mem_cons.mpr
        ⟨fun n hn howns hmem => ?_, fun top htop n hn => hgone' top htop n (hn.frame registry)⟩⟩
      exact hgone n howns (mem_of_below? ht hmet hn) (hsub'.subset hmem)

/-- Dropping the entries of subtrees fails only if one of them has no end. -/
theorem unregisterSubtrees_error {tops : List Node} {e : TreeError}
    (hrun : (unregisterSubtrees tops).run t = .done (.error e) t') :
    ∃ top ∈ tops, t.subtree? top = none ∧ e = .endless top.id := by
  induction tops generalizing t with
  | nil => cases hrun
  | cons top rest ih =>
    rw [unregisterSubtrees, run_bind, run_get, Run.bind_done_ok] at hrun
    cases hmet : t.subtree? top with
    | none =>
      rw [hmet] at hrun
      cases hrun
      exact ⟨top, List.mem_cons_self, hmet, rfl⟩
    | some met =>
      rw [hmet, run_bind, run_require_some, Run.bind_done_ok, run_bind, run_modify,
        Run.bind_done_ok, unregisterAll_eq] at hrun
      obtain ⟨top', htop', hmet', rfl⟩ := ih hrun
      rw [subtree?_frame] at hmet'
      exact ⟨top', List.mem_cons_of_mem top htop', hmet', rfl⟩

/-! ### Changes of an array -/

/-- A change of the array of an attached directory leaves the registry sound, if the children in the
new array are objects of the tree, none but such children are made to stand for their identities,
and the entries of the subtrees of all children that are dropped are dropped.

**Proof sketch.** What was attached before and is not any more is cached below a child that was
dropped, so it has no entry. -/
theorem Sound.change (h : t.Sound) (hdir : t.Attached dir) (hc : t.children? dir = some c)
    (op : Children.Op) (hop : op.Admissible c.policy)
    (hnew : ∀ n ∈ (c.apply op).2.present, t.Owns n) (added dropped : List Node)
    (hadded : ∀ n ∈ added, n ∈ (c.apply op).2.present)
    (hdropped : ∀ n ∈ c.present, n ∉ (c.apply op).2.present → n ∈ dropped)
    (hrun : (unregisterSubtrees dropped).run
      (added.foldl register (t.setChildren dir (c.apply op).2)) = .done (.ok ()) t') :
    t'.SoundAt dir ∧ t'.children? dir = some (c.apply op).2 := by
  obtain ⟨hcpolicy, hctidy⟩ := h.tidy dir c hc
  have htidy : (t.setChildren dir (c.apply op).2).Tidy :=
    ((stable_tidy t).update _ _ (.change t dir c op hc (hcpolicy ▸ hop)) ⟨h.tidy, .refl t⟩).1
  generalize (c.apply op).2 = c' at *
  have hself := children?_setChildren_self hc c'
  have hdir' : (t.setChildren dir c').Attached dir := .change_self (fun n hn => h.owns hn) hdir c'
  have hproper : (added.foldl register (t.setChildren dir c')).registry.Proper :=
    proper_foldl_register h.proper
  have hmem : ∀ n, n ∈ (added.foldl register (t.setChildren dir c')).registry.nodes →
      n ∈ added ∨ n ∈ t.registry.nodes := fun n => mem_of_mem_foldl_register
  rw [foldl_register_eq] at hrun
  generalize (added.foldl register (t.setChildren dir c')).registry = registry at *
  obtain ⟨registry', rfl, hsub, hgone⟩ :=
    unregisterSubtrees_ok (t := { t.setChildren dir c' with registry := registry }) htidy hproper
      hrun
  have howns : ∀ {n}, t.Owns n → (t.setChildren dir c').Owns n :=
    fun hn => (owns_setChildren t dir _ c').mpr hn
  refine ⟨⟨⟨htidy, howns h.root, fun d cd n hcd hn => ?_, hproper.sublist hsub, fun n hn => ?_⟩,
    hdir'.frame registry' t.held⟩, hself⟩
  · replace hcd : (t.setChildren dir c').children? d = some cd := hcd
    rw [children?_setChildren] at hcd
    split at hcd
    · obtain ⟨_, -, rfl⟩ := Option.map_eq_some_iff.mp hcd
      exact howns (hnew n hn)
    · exact howns (h.objects d cd n hcd hn)
  · rcases hmem n (hsub.subset hn) with hadd | hold
    · exact (Attached.child hdir' hself (hadded n hadd)).frame registry' t.held
    · rcases attached_or_beneath hc c' (h.attached n hold) with hn' | ⟨top, htop, hout, hbeneath⟩
      · exact hn'.frame registry' t.held
      · exact absurd hn (hgone top (hdropped top htop hout) n (hbeneath.frame registry)
          (howns (h.owns (h.attached n hold))))

/-- A change that adds at most the child that it answers leaves the registry sound, if that child is
then made to stand for its identity. -/
theorem Sound.gain (h : t.Sound) (hdir : t.Attached dir) (hc : t.children? dir = some c)
    (op : Children.Op) (hop : op.Admissible c.policy) {answer : Option Node}
    (hgains : c.Gains (c.apply op).2 answer) (howns : ∀ n, answer = some n → t.Owns n) :
    let t' := answer.toList.foldl register (t.setChildren dir (c.apply op).2)
    t'.SoundAt dir ∧ t'.children? dir = some (c.apply op).2 := by
  intro t'
  have hnone : (unregisterSubtrees []).run t' = .done (.ok ()) t' := rfl
  refine h.change hdir hc op hop (fun n hn => ?_) _ _ (fun n hn => hgains.answered n ?_)
    (fun n hn hout => absurd (hgains.keeps n hn) hout) hnone
  · exact (hgains.adds n hn).elim (h.objects dir c n hc) (howns n)
  · simpa using hn

end LazyTree.Tree
