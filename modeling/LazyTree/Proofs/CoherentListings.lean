import LazyTree.Proofs.CoherentLookups

set_option autoImplicit false

/-!
# Listings over a table

A listing that a table gives is merged with the cached children into a list of nodes, one for each
file: a cached child, or a node that was made meanwhile. Installing it keeps the agreement of the
tree with the table, and so does forgetting all children.

## Main definitions

* `LazyTree.Tree.Made` — a tree comes from another by making objects.
* `LazyTree.Tree.Merged` — the nodes for a listing.

## Main results

* `LazyTree.Tree.Coherent.mergeListing` — merging gives a node for each file of the listing.
* `LazyTree.Tree.Coherent.refreshChildren`, `LazyTree.Tree.Coherent.clearChildren` — listing a
  directory and forgetting its children keep the agreement.
-/

namespace LazyTree.Tree

open TreeM

variable {t t' : Tree} {b : Table} {dir n : Node} {c : Children} {es : List TableEntry}

/-! ### Making objects -/

/-- A tree comes from another by making objects and changing who holds them. -/
inductive Made : Tree → Tree → Prop where
  /-- Nothing was made. -/
  | refl (t : Tree) : Made t t
  /-- An object was made, and then more. -/
  | make {t t' : Tree} (dir : Node) (id : FileId) (name : String) (attributes : Attributes)
    (rest : Made (t.make dir id name attributes).2 t') : Made t t'
  /-- Objects got other holders, and then more was made. -/
  | held {t t' : Tree} (held : List Nat) (rest : Made { t with held := held } t') : Made t t'

namespace Made

/-- More may be made. -/
theorem trans {t'' : Tree} (h : Made t t') (h' : Made t' t'') : Made t t'' := by
  induction h with
  | refl t => exact h'
  | make dir id name attributes _ ih => exact .make dir id name attributes (ih h')
  | held held _ ih => exact .held held (ih h')

/-- Who holds objects may change at the end. -/
theorem settled (h : Made t t') (held : List Nat) : Made t { t' with held := held } :=
  h.trans (.held held (.refl _))

/-- Making objects keeps the agreement with a table. -/
theorem coherent (h : Made t t') (ht : t.Coherent b) : t'.Coherent b := by
  induction h with
  | refl t => exact ht
  | make dir id name attributes _ ih => exact ih (ht.make dir id name attributes)
  | held held _ ih => exact ih (ht.frame _ held)

/-- Making objects keeps attached nodes objects of the tree. -/
theorem rooted (h : Made t t') (ht : t.Rooted) : t'.Rooted := by
  induction h with
  | refl t => exact ht
  | make dir id name attributes _ ih => exact ih (ht.make dir id name attributes)
  | held held _ ih => exact ih (ht.frame _ held)

/-- Making objects keeps the root and the entries of the registry. -/
theorem unchanged (h : Made t t') : t'.root = t.root ∧ t'.registry = t.registry := by
  induction h with
  | refl t => exact ⟨rfl, rfl⟩
  | make dir id name attributes _ ih => exact ih
  | held held _ ih => exact ih

/-- Making objects changes no array. -/
theorem children?_of_lt (h : Made t t') (hn : n.serial < t.cells.size) :
    t'.children? n = t.children? n := by
  induction h with
  | refl t => rfl
  | @make t t' dir id name attributes _ ih =>
    have hlt : n.serial < (t.make dir id name attributes).2.cells.size := by
      refine Nat.lt_of_lt_of_le hn ?_
      show t.cells.size ≤ (t.cells.push _).size
      rw [Array.size_push]
      exact Nat.le_succ _
    rw [ih hlt, children?_make, if_neg (Nat.ne_of_lt hn)]
  | held held _ ih => exact ih hn

/-- A directory keeps its array while objects are made. -/
theorem children? (h : Made t t') (hc : t.children? dir = some c) : t'.children? dir = some c :=
  (h.children?_of_lt (serial_lt_of_children? hc)).trans hc

/-- What is attached is so before and after objects are made. -/
theorem attached_iff (h : Made t t') (hobjects : ∀ d, t.Attached d → t.Owns d) :
    t'.Attached n ↔ t.Attached n :=
  attached_congr (fun d hd => h.children?_of_lt (hobjects d hd).serial_lt) h.unchanged.1

/-- What is attached stays so while objects are made. -/
theorem attached (h : Made t t') (hn : t.Attached n) : t'.Attached n :=
  hn.mono h.unchanged.1 fun _ _ _ hc => h.children? hc

/-- A node that is new stays so while others are made. -/
theorem loose (h : Made t t') (ht : t.Rooted) (hn : t.Loose n) : t'.Loose n := by
  induction h with
  | refl t => exact hn
  | make dir id name attributes _ ih =>
    exact ih (ht.make dir id name attributes) (hn.make ht dir id name attributes)
  | held held _ ih => exact ih (ht.frame _ held) (hn.frame _ held)

/-- What was made while a new node was held was made after it, and the node is still new when it is
released. -/
theorem of_make (ht : t.Rooted) {dir : Node} {id : FileId} {name : String} {attributes : Attributes}
    (h : Made ((t.make dir id name attributes).2.hold [(t.make dir id name attributes).1]) t') :
    Made t (t'.release [(t.make dir id name attributes).1]) ∧
      (t'.release [(t.make dir id name attributes).1]).Loose (t.make dir id name attributes).1 := by
  have hafter : Made (t.make dir id name attributes).2
      (t'.release [(t.make dir id name attributes).1]) := .held _ (h.settled _)
  exact ⟨.make dir id name attributes hafter, hafter.loose (ht.make dir id name attributes)
    (loose_make ht dir id name attributes)⟩

end Made

/-! ### Sorting a listing -/

/-- A listing of a table names each entry that has an identity, and nothing else. -/
theorem listed_iff {l : Listed} :
    l ∈ (es.filterMap fun e => e.id.map fun id => (⟨e.name, id⟩ : Listed)) ↔
      ∃ e ∈ es, e.name = l.name ∧ e.id = some l.id := by
  rw [List.mem_filterMap]
  refine exists_congr fun e => and_congr_right fun _ => ?_
  cases e.id with
  | none => simp
  | some id =>
    obtain ⟨name, id'⟩ := l
    simp

/-- Each line of the sorted listing of a table is that of the entry that has its name. -/
theorem entryAt_of_mem_sortedListing {root : FileId} (hb : b.Orderly root)
    (hes : b.entries? dir.id = some es) {l : Listed} (hl : l ∈ sortedListing b.policy
      (es.filterMap fun e => e.id.map fun id => (⟨e.name, id⟩ : Listed))) :
    ∃ e, Table.entryAt b.policy es l.name = some e ∧ e.id = some l.id := by
  obtain ⟨e, he, hname, hid⟩ := listed_iff.mp (mem_of_mem_sortedListing hl)
  exact ⟨e, hb.entryAt_of_mem hes he (by rw [hname]), hid⟩

/-- Each entry of a table that has an identity has a line in the sorted listing. -/
theorem exists_mem_sortedListing_of_entry {policy : CasePolicy} {e : TableEntry} (he : e ∈ es)
    (hid : e.id.isSome = true) :
    ∃ l ∈ sortedListing policy (es.filterMap fun e => e.id.map fun id => (⟨e.name, id⟩ : Listed)),
      policy.key l.name = policy.key e.name := by
  obtain ⟨id, hid⟩ := Option.isSome_iff_exists.mp hid
  exact exists_mem_sortedListing (listed_iff (l := ⟨e.name, id⟩) |>.mpr ⟨e, he, rfl, hid⟩)

/-- A listing that has a line for each entry with an identity has one for each file. -/
theorem exists_listed_of_file {policy : CasePolicy} {listing : List Listed}
    (hlisting : ∀ e ∈ es, e.id.isSome = true →
      ∃ l ∈ listing, policy.key l.name = policy.key e.name) {name : String}
    (hsome : (Table.contentAt policy es name).isSome = true) :
    ∃ l ∈ listing, policy.key l.name = policy.key name := by
  obtain ⟨content, hcontent⟩ := Option.isSome_iff_exists.mp hsome
  obtain ⟨e, he, hcomplete⟩ := Option.bind_eq_some_iff.mp hcontent
  obtain ⟨hmem, hkey⟩ := Table.mem_of_entryAt he
  obtain ⟨hid, -⟩ := TableEntry.content?_eq_some_iff.mp hcomplete
  obtain ⟨l, hl, hkey'⟩ := hlisting e hmem (by rw [hid]; rfl)
  exact ⟨l, hl, hkey'.trans hkey⟩

/-! ### Merging a listing -/

/-- The nodes that a listing was merged into: each is a file, and either a cached child or new; and
each file that is listed has a node. -/
structure Merged (b : Table) (es : List TableEntry) (cached : List Node) (entries : List Listed)
    (t' : Tree) (merged : List Node) : Prop where
  /-- Each node is a file. -/
  sound : ∀ n ∈ merged, Table.contentAt b.policy es n.name = some (n.id, n.attributes)
  /-- Each node is a cached child, or new. -/
  origin : ∀ n ∈ merged, n ∈ cached ∨ t'.Loose n
  /-- Each file that is listed has a node. -/
  complete : ∀ e ∈ entries, (Table.contentAt b.policy es e.name).isSome = true →
    ∃ n ∈ merged, b.policy.key n.name = b.policy.key e.name

/-- The cached child for an entry, and those left for the entries behind it, are cached children. -/
theorem mem_of_passed (policy : CasePolicy) (cached : List Node) (entry : Listed) :
    (∀ n, (passed policy cached entry).1 = some n → n ∈ cached) ∧
      ∀ n ∈ (passed policy cached entry).2, n ∈ cached := by
  have hsuffix := (List.dropWhile_suffix (l := cached)
    fun n => policy.compare n.name entry.name == .lt).subset
  generalize hpassed : passed policy cached entry = found
  unfold passed at hpassed
  split at hpassed
  · next first later hrest =>
    rw [hrest] at hsuffix
    split at hpassed
    · subst hpassed
      exact ⟨fun n hn => by cases hn; exact hsuffix List.mem_cons_self,
        fun n hn => hsuffix (List.mem_cons_of_mem first hn)⟩
    · subst hpassed
      exact ⟨nofun, fun n hn => hsuffix hn⟩
  · subst hpassed
    exact ⟨nofun, nofun⟩

/-- The nodes behind the first one make one list with it. -/
theorem Merged.cons {entry : Listed} {rest : List Listed} {cached later merged : List Node}
    (h : Merged b es later rest t' merged) (hlater : ∀ n ∈ later, n ∈ cached)
    (hcontent : Table.contentAt b.policy es n.name = some (n.id, n.attributes))
    (horigin : n ∈ cached ∨ t'.Loose n) (hkey : b.policy.key n.name = b.policy.key entry.name) :
    Merged b es cached (entry :: rest) t' (n :: merged) where
  sound := List.forall_mem_cons.mpr ⟨hcontent, h.sound⟩
  origin := List.forall_mem_cons.mpr
    ⟨horigin, fun m hm => (h.origin m hm).imp_left (hlater m)⟩
  complete := by
    refine List.forall_mem_cons.mpr ⟨fun _ => ⟨n, List.mem_cons_self, hkey⟩, fun e he hsome => ?_⟩
    obtain ⟨m, hm, hkey'⟩ := h.complete e he hsome
    exact ⟨m, List.mem_cons_of_mem n hm, hkey'⟩

/-- An entry of which the table has no complete file needs no node. -/
theorem Merged.skip {entry : Listed} {rest : List Listed} {cached later merged : List Node}
    (h : Merged b es later rest t' merged) (hlater : ∀ n ∈ later, n ∈ cached)
    (hnone : Table.contentAt b.policy es entry.name = none) :
    Merged b es cached (entry :: rest) t' merged where
  sound := h.sound
  origin n hn := (h.origin n hn).imp_left (hlater n)
  complete := by
    refine List.forall_mem_cons.mpr ⟨fun hsome => ?_, h.complete⟩
    rw [hnone] at hsome
    cases hsome

/-- The nodes for a listing are so whoever holds objects. -/
theorem Merged.frame {entries : List Listed} {cached merged : List Node}
    (h : Merged b es cached entries t' merged) (held : List Nat) :
    Merged b es cached entries { t' with held := held } merged :=
  ⟨h.sound, fun n hn => (h.origin n hn).imp_right fun hloose => hloose.frame _ held, h.complete⟩

/-- Merging a listing of a table makes objects only, and gives the nodes for the listing.

**Proof sketch.** By induction on the listing. The cached child of an entry is a file because all
cached children are. Otherwise the table is asked for the attributes: if it has none, then there is
no complete file of that name; if it has, then the node that is made is that file, and it is still
new when the rest has been merged. -/
theorem Coherent.mergeListing (h : t.Coherent b) (hes : b.entries? dir.id = some es)
    {entries : List Listed} (hentries : ∀ e ∈ entries, ∃ e', Table.entryAt b.policy es e.name =
      some e' ∧ e'.id = some e.id)
    {cached : List Node}
    (hcached : ∀ n ∈ cached, Table.contentAt b.policy es n.name = some (n.id, n.attributes)) :
    ((mergeListing dir cached entries).run t).Always b.world fun result t' =>
      Made t t' ∧ ∃ merged, result = .ok merged ∧ Merged b es cached entries t' merged := by
  induction entries generalizing t cached with
  | nil =>
    exact ⟨.refl t, [], rfl, nofun, nofun, nofun⟩
  | cons entry rest ih =>
    obtain ⟨⟨e, hentry, hid⟩, hrest⟩ := List.forall_mem_cons.mp hentries
    rw [run_mergeListing_cons, ← h.policy]
    obtain ⟨hcandidate, hlater⟩ := mem_of_passed b.policy cached entry
    have hlaterFiles := fun n hn => hcached n (hlater n hn)
    rw [mergeEntry]
    split
    · next node hnode =>
      -- a cached node is used again
      obtain ⟨hnode, -⟩ := Option.filter_eq_some_iff.mp hnode
      have hmem := hcandidate node hnode
      rw [run_bind, Run.always_bind_iff]
      refine (ih h hrest hlaterFiles).mono fun result t' hafter => ?_
      obtain ⟨hmade, merged, rfl, hmerged⟩ := hafter
      exact ⟨hmade, _, rfl,
        hmerged.cons hlater (hcached node hmem) (.inl hmem) (passed_key hnode)⟩
    · rw [always_asked (h.table.answer_attributes hes entry.name), hentry, Option.bind_some]
      have hcontent : Table.contentAt b.policy es entry.name =
          e.attributes.map fun attributes => (entry.id, attributes) := by
        rw [Table.contentAt, hentry, Option.bind_some, TableEntry.content?, hid, Option.bind_some]
      cases hattributes : e.attributes with
      | none =>
        -- the file is not complete
        refine (ih h hrest hlaterFiles).mono fun result t' hafter => ?_
        obtain ⟨hmade, merged, rfl, hmerged⟩ := hafter
        exact ⟨hmade, merged, rfl, hmerged.skip hlater (by rw [hcontent, hattributes]; rfl)⟩
      | some attributes =>
        -- a node is made
        rw [hattributes, Option.map_some] at hcontent
        have hheld : ((t.make dir entry.id entry.name attributes).2.hold
            [(t.make dir entry.id entry.name attributes).1]).Coherent b :=
          (h.make dir entry.id entry.name attributes).frame _ _
        dsimp only
        rw [run_bind, run_newChild, Run.bind_done_ok, run_bind, run_holding, Run.always_bind_iff,
          Run.always_settle_iff]
        refine (ih hheld hrest hlaterFiles).mono fun result t' hafter => ?_
        obtain ⟨hmade, merged, rfl, hmerged⟩ := hafter
        obtain ⟨hmade', hnew⟩ := hmade.of_make h.rooted
        exact ⟨hmade', _, rfl, (hmerged.frame _).cons hlater hcontent (.inr hnew) rfl⟩

/-! ### Installing a listing -/

/-- Installing the nodes for a listing of all entries keeps the agreement. -/
theorem Coherent.installListing (h : t.Coherent b) (hdir : t.Attached dir)
    (hc : t.children? dir = some c) (hes : b.entries? dir.id = some es)
    (hmirrors : c.ledger.Mirrors es) {listing : List Listed}
    (hlisting : ∀ e ∈ es, e.id.isSome = true →
      ∃ l ∈ listing, b.policy.key l.name = b.policy.key e.name)
    {merged : List Node} (hmerged : Merged b es c.present listing t merged)
    (hascending : Ascending b.policy merged) (cached : List Node) (generation : Nat) :
    ((installListing dir cached merged generation).run t).Always b.world
      fun _ t' => t'.Coherent b := by
  have hpolicy : c.ledger.policy = b.policy := (h.array hc).1.trans h.policy.symm
  have hop : Children.Op.Admissible c.policy (.install merged generation) := by
    rwa [← hpolicy] at hascending
  have hafter : (t.setChildren dir (c.apply (.install merged generation)).2).Coherent b := by
    refine h.change_of_mirrors hdir hc hes _ hop (fun n name hn => ?_) ?_
    · simp only [Ledger.apply, Ledger.install] at hn
      split at hn
      · exact .inl hn
      · obtain ⟨m, hm, hpresent⟩ := Option.map_eq_some_iff.mp hn
        cases hpresent
        have hkey : c.ledger.policy.key n.name = c.ledger.policy.key name := by
          simpa using List.find?_some hm
        refine (hmerged.origin n (List.mem_of_find?_eq_some hm)).imp_left fun hpresent => ?_
        rw [← c.ledger.fact?_congr hkey]
        exact (mem_present_iff (h.array hc).2).mp hpresent
    · refine hmirrors.install generation (fun n hn => hpolicy ▸ hmerged.sound n hn)
        fun name hsome => ?_
      rw [hpolicy] at hsome ⊢
      obtain ⟨l, hl, hkey⟩ := exists_listed_of_file hlisting hsome
      obtain ⟨n, hn, hkey'⟩ := hmerged.complete l hl (by rwa [Ledger.contentAt_congr hkey])
      exact ⟨n, hn, hkey'.trans hkey⟩
  have hrun : (Tree.installListing dir cached merged generation).run t = _ :=
    run_change_bind h.tidy hc hop _
  rw [hrun]
  split
  · rw [run_bind, run_modify, Run.bind_done_ok, foldl_register_eq]
    obtain ⟨result, registry, hdropped⟩ := run_unregisterSubtrees _ _
    rw [hdropped]
    exact hafter.frame registry _
  · exact hafter

/-- Listing a directory keeps the agreement. -/
theorem Coherent.refreshChildren (h : t.Coherent b) (hdir : t.AttachedDirectory dir) :
    ((refreshChildren dir).run t).Always b.world fun _ t' => t'.Coherent b := by
  obtain ⟨c, es, hc, hes, hmirrors, hpolicy⟩ := h.exists_mirrors hdir
  rw [Tree.refreshChildren, run_childrenOf_bind hc]
  split
  · exact h
  refine (always_asked (h.table.answer_list hes)).mpr ?_
  rw [run_bind, run_get, Run.bind_done_ok, run_childrenOf_bind hc, ← h.policy]
  generalize hlisting : sortedListing b.policy _ = listing
  have hentries : ∀ l ∈ listing, ∃ e, Table.entryAt b.policy es l.name = some e ∧
      e.id = some l.id :=
    fun l hl => entryAt_of_mem_sortedListing h.table hes (hlisting ▸ hl)
  have hnamed : ∀ e ∈ es, e.id.isSome = true →
      ∃ l ∈ listing, b.policy.key l.name = b.policy.key e.name :=
    fun e he hid => hlisting ▸ exists_mem_sortedListing_of_entry he hid
  have hcached : ∀ n ∈ c.present, Table.contentAt b.policy es n.name =
      some (n.id, n.attributes) := by
    intro n hn
    rw [← hpolicy]
    exact hmirrors.present n.name n ((mem_present_iff (h.array hc).2).mp hn)
  have hheld : (t.hold c.present).Coherent b := h.frame _ _
  have hdir' : (t.hold c.present).Attached dir := hdir.attached.frame _ _
  rw [run_holding, Run.always_settle_iff, run_bind, Run.always_bind_iff]
  have hsorted : ((Tree.mergeListing dir c.present listing).run (t.hold c.present)).Always
      b.world _ :=
    ((stable_tidy (t.hold c.present)).mergeListing_always dir listing c.present _
      ⟨hheld.tidy, rfl, rfl, fun _ h => h⟩).of_world fun q t reply t' ⟨_, hsame⟩ hP => hsame ▸ hP
  refine ((hheld.mergeListing hes hentries hcached).and hsorted).mono fun result t₁ hafter => ?_
  obtain ⟨⟨hmade, merged, rfl, hmerged⟩, -, hkeys⟩ := hafter
  have hsublist := hkeys merged rfl
  rw [show (t.hold c.present).policy = b.policy from h.policy.symm] at hsublist
  have hascending : Ascending b.policy merged :=
    ascending_of_sublist (hlisting ▸ ascending_sortedListing b.policy _) hsublist
  have hcoherent := hmade.coherent hheld
  have hinstalled : ((t₁.hold merged)).Coherent b := hcoherent.frame _ _
  have hinstalling := hinstalled.installListing
    ((hmade.attached hdir').frame _ _) (hmade.children? hc) hes hmirrors hnamed
    ⟨hmerged.sound, fun n hn => (hmerged.origin n hn).imp_right fun hloose => hloose.frame _ _,
      hmerged.complete⟩ hascending c.present c.generation
  show ((do TreeM.holding merged (Tree.installListing dir c.present merged c.generation)
            return merged : TreeM (List Node)).run t₁).Always b.world _
  rw [run_bind, run_holding, Run.always_bind_iff, Run.always_settle_iff]
  refine hinstalling.mono fun result t' ht' => ?_
  cases result with
  | ok _ => exact (ht'.frame t'.registry _ :).frame t'.registry _
  | error _ => exact (ht'.frame t'.registry _ :).frame t'.registry _

/-- After the children of an attached directory were forgotten nothing is known of them, and the
directory is attached still. -/
theorem Rooted.clearChildren (h : t.Rooted) (hdir : t.Attached dir)
    (hc : t.children? dir = some c) : ∃ result t' c',
      (clearChildren dir).run t = .done result t' ∧ t'.Attached dir ∧
        t'.children? dir = some c' ∧ ∀ name, c'.ledger.answer name = .unknown := by
  obtain ⟨result, registry, hrun⟩ := run_clearChildren_of_tidy h.tidy hc
  have hheld : (t.hold c.present).Rooted := h.frame _ _
  have hc' : (t.hold c.present).children? dir = some c := hc
  have hop : Children.Op.Admissible c.policy .clear := trivial
  have hstill := Attached.change_self hheld.owns (hdir.frame _ _) (c.apply .clear).2
  refine ⟨result, _, _, hrun, hstill.frame _ _, children?_setChildren_self hc' _, fun name => ?_⟩
  rw [(Children.apply_follows (h.tidy dir c hc).2 hop).ledger]
  rfl

/-- Forgetting the children of a directory keeps the agreement. Nothing is known of them then, and
the directory stays attached. -/
theorem Coherent.clearChildren (h : t.Coherent b) (hdir : t.AttachedDirectory dir) :
    ∃ result t' c', (clearChildren dir).run t = .done result t' ∧ t'.Coherent b ∧
      t'.Attached dir ∧ t'.children? dir = some c' ∧ ∀ name, c'.ledger.answer name = .unknown := by
  obtain ⟨c, es, hc, hes, -, -⟩ := h.exists_mirrors hdir
  obtain ⟨result, t', c', hrun, hdir', hc', hunknown⟩ := h.rooted.clearChildren hdir.attached hc
  refine ⟨result, t', c', hrun, ?_, hdir', hc', hunknown⟩
  obtain ⟨_, registry, hcleared⟩ := run_clearChildren_of_tidy h.tidy hc
  rw [hrun] at hcleared
  injection hcleared with _ hcleared
  rw [hcleared]
  have hheld : (t.hold c.present).Coherent b := h.frame _ _
  have hafter : ((t.hold c.present).setChildren dir (c.apply .clear).2).Coherent b :=
    hheld.change_of_mirrors (hdir.attached.frame _ _) hc hes .clear trivial
      (fun n name hn => nomatch hn) (Ledger.mirrors_of_nothing (fun _ => rfl) rfl)
  exact (hafter.frame registry _ :).frame registry _

end LazyTree.Tree
