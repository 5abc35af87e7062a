import LazyTree.Proofs.GradedTrees
import LazyTree.Proofs.JoinedListings
import LazyTree.Proofs.NamedRemovals

set_option autoImplicit false

/-!
# Listings merged with what is cached

A listing is sorted, freed from repetitions, and merged with the cached children by going through
both side by side. That comes to the same as a naive join: for each name the first entry that was
listed is looked up among the cached children, the child found there is used again if it has the
identity of the entry, and otherwise the backend is asked, and tells what a new node looks like or
that the child has vanished. The cached children that are not used again lose their entries in the
registry, with all that is cached below them, and no other node does as long as identities tell
nodes apart.

## Main definitions

* `LazyTree.reusable?` — the cached node that is used again for an entry.
* `LazyTree.naiveJoin` — the nodes for the entries of a listing.
* `LazyTree.unmatched` — the entries that the backend is asked about.
* `LazyTree.Tree.Discards` — the nodes that a listing drops.
* `LazyTree.Tree.ToldApart` — identities tell the nodes that a listing drops from all others.

## Main results

* `LazyTree.Tree.serve_mergeListing` — merging side by side is the naive join.
* `LazyTree.Tree.refreshChildren_joins` — what a listing answers, asks and drops.
-/

namespace LazyTree

/-! ### The naive join -/

/-- The cached node that is used again for an entry: the one of its name, if it has its identity. -/
def reusable? (policy : CasePolicy) (cached : List Node) (entry : Listed) : Option Node :=
  (cached.find? fun n => policy.key n.name = policy.key entry.name).filter (·.id = entry.id)

/-- The nodes for the entries of a listing, one after the other: the one that is used again, if
there is one, or else a new node with the attributes that the backend reports, if it reports any.
New nodes are numbered one after the other. -/
def naiveJoin (reused? : Listed → Option Node) (attributes : String → Option Attributes)
    (parent : FileId) : Nat → List Listed → List Node
  | _, [] => []
  | next, entry :: rest =>
    match reused? entry with
    | some node => node :: naiveJoin reused? attributes parent next rest
    | none =>
      match attributes entry.name with
      | some found =>
        ⟨next, entry.id, entry.name, some parent, found⟩ ::
          naiveJoin reused? attributes parent (next + 1) rest
      | none => naiveJoin reused? attributes parent next rest

/-- The entries for which no node is used again. -/
def unmatched (reused? : Listed → Option Node) (entries : List Listed) : List Listed :=
  entries.filter fun entry => (reused? entry).isNone

section Join

variable {policy : CasePolicy} {cached : List Node} {entry e : Listed} {entries : List Listed}
  {reused? reused?' : Listed → Option Node} {attributes : String → Option Attributes}
  {parent : FileId} {next : Nat} {n : Node}

/-- A cached node is used again for an entry exactly if it has its name and its identity. -/
theorem reusable?_eq_some_iff (hcached : Ascending policy cached) :
    reusable? policy cached e = some n ↔
      n ∈ cached ∧ policy.key n.name = policy.key e.name ∧ n.id = e.id := by
  have hfind : (cached.find? fun n => policy.key n.name = policy.key e.name) = some n ↔
      n ∈ cached ∧ policy.key n.name = policy.key e.name := hcached.find?_key_eq_some_iff
  rw [reusable?, Option.filter_eq_some_iff, hfind, decide_eq_true_iff, and_assoc]

/-- The nodes for the entries depend on what is used again for these entries only. -/
theorem naiveJoin_congr (h : ∀ e ∈ entries, reused? e = reused?' e) :
    naiveJoin reused? attributes parent next entries =
      naiveJoin reused?' attributes parent next entries := by
  induction entries generalizing next with
  | nil => rfl
  | cons entry rest ih =>
    obtain ⟨hentry, hrest⟩ := List.forall_mem_cons.mp h
    rw [naiveJoin, naiveJoin, hentry, ih hrest, ih hrest]

/-- Each node is used again for an entry, or made for one. -/
theorem exists_of_mem_naiveJoin (hn : n ∈ naiveJoin reused? attributes parent next entries) :
    ∃ e ∈ entries, reused? e = some n ∨ reused? e = none ∧ next ≤ n.serial ∧ n.id = e.id ∧
      n.name = e.name ∧ attributes e.name = some n.attributes := by
  induction entries generalizing next with
  | nil => cases hn
  | cons entry rest ih =>
    rw [naiveJoin] at hn
    split at hn
    · next node hnode =>
      rcases List.mem_cons.mp hn with rfl | hn
      · exact ⟨entry, List.mem_cons_self, .inl hnode⟩
      · obtain ⟨e, he, horigin⟩ := ih hn
        exact ⟨e, List.mem_cons_of_mem entry he, horigin⟩
    · next hnone =>
      split at hn
      · next found hfound =>
        rcases List.mem_cons.mp hn with rfl | hn
        · exact ⟨entry, List.mem_cons_self, .inr ⟨hnone, Nat.le_refl _, rfl, rfl, hfound⟩⟩
        · obtain ⟨e, he, horigin⟩ := ih hn
          exact ⟨e, List.mem_cons_of_mem entry he, horigin.imp_right fun ⟨hunused, hlater, hrest⟩ =>
            ⟨hunused, Nat.le_of_succ_le hlater, hrest⟩⟩
      · obtain ⟨e, he, horigin⟩ := ih hn
        exact ⟨e, List.mem_cons_of_mem entry he, horigin⟩

/-- A node that is used again is among the nodes for the entries. -/
theorem mem_naiveJoin_of_reused (he : e ∈ entries) (hn : reused? e = some n) :
    n ∈ naiveJoin reused? attributes parent next entries := by
  induction entries generalizing next with
  | nil => cases he
  | cons entry rest ih =>
    rw [naiveJoin]
    rcases List.mem_cons.mp he with rfl | he
    · rw [hn]
      exact List.mem_cons_self
    · split
      · exact List.mem_cons_of_mem _ (ih he)
      · split
        · exact List.mem_cons_of_mem _ (ih he)
        · exact ih he

/-- The nodes stand in the order of the entries. -/
theorem naiveJoin_keys
    (hreused : ∀ e n, reused? e = some n → policy.key n.name = policy.key e.name) :
    ((naiveJoin reused? attributes parent next entries).map fun n => policy.key n.name).Sublist
      (entries.map fun e => policy.key e.name) := by
  induction entries generalizing next with
  | nil => exact List.Sublist.refl _
  | cons entry rest ih =>
    rw [naiveJoin]
    split
    · next node hnode =>
      rw [List.map_cons, List.map_cons, hreused entry node hnode]
      exact ih.cons_cons _
    · split
      · exact ih.cons_cons _
      · exact ih.cons _

/-- So they are in ascending order if the entries are. -/
theorem ascending_naiveJoin (hcached : Ascending policy cached)
    (hentries : Ascending policy entries) :
    Ascending policy (naiveJoin (reusable? policy cached) attributes parent next entries) :=
  Tree.ascending_of_sublist hentries (naiveJoin_keys fun _ _ hreused =>
    ((reusable?_eq_some_iff hcached).mp hreused).2.1)

end Join

namespace Tree

open TreeM

/-! ### Merging side by side -/

section Merging

variable {policy : CasePolicy} {cached : List Node} {entry e : Listed}

/-- The cached child that is met at an entry is the one of its name. -/
theorem passed_fst (hcached : Ascending policy cached) (entry : Listed) :
    (passed policy cached entry).1 =
      cached.find? fun n => policy.key n.name = policy.key entry.name := by
  refine Option.ext fun n => Iff.trans ⟨fun hn => ?_, fun ⟨hmem, hkey⟩ => ?_⟩
    (hcached.find?_key_eq_some_iff (x := n)).symm
  · exact ⟨(mem_of_passed policy cached entry).1 n hn, passed_key hn⟩
  · exact (passed_of_ascending hcached hmem).1 hkey

/-- What is left behind an entry has all that can be used again for the entries behind it. -/
theorem reusable?_passed (hcached : Ascending policy cached)
    (hbehind : policy.Before entry.name e.name) :
    reusable? policy (passed policy cached entry).2 e = reusable? policy cached e := by
  refine Option.ext fun n => ?_
  rw [reusable?_eq_some_iff (ascending_passed hcached entry), reusable?_eq_some_iff hcached]
  refine and_congr_left fun ⟨hkey, _⟩ => ⟨(mem_of_passed policy cached entry).2 n, fun hn => ?_⟩
  refine (passed_of_ascending hcached hn).2 ?_
  rwa [CasePolicy.Before, CasePolicy.compare_congr rfl hkey]

end Merging

variable {t t' : Tree} {dir n top : Node} {c : Children} {answers : Answers}
  {attributes : String → Option Attributes}

/-- Merging a sorted listing with cached children side by side gives the nodes of the naive join.
The backend is asked for the attributes of the unmatched entries, once each and in their order, and
nothing happens to the tree but that the new nodes are made.

**Proof sketch.** By induction on the entries. The cached children that have been passed by at an
entry come before it, so none of them has the name of an entry behind it. -/
theorem serve_mergeListing {entries : List Listed} {cached : List Node}
    (hcached : Ascending t.policy cached) (hentries : Ascending t.policy entries)
    (hattributes : ∀ e ∈ entries,
      answers (.attributes dir.id e.name) = .ok (attributes e.name)) (asked : List Query) :
    ∃ t', ((mergeListing dir cached entries).run t).serve (logging answers) asked =
        (.ok (naiveJoin (reusable? t.policy cached) attributes dir.id t.cells.size entries), t',
          asked ++ (unmatched (reusable? t.policy cached) entries).map
            fun e => .attributes dir.id e.name) ∧
      Made t t' ∧
      ∀ n ∈ naiveJoin (reusable? t.policy cached) attributes dir.id t.cells.size entries,
        n ∈ cached ∨ t'.Owns n := by
  induction entries generalizing t cached asked with
  | nil =>
    rw [unmatched, List.filter_nil, List.map_nil, List.append_nil]
    exact ⟨t, rfl, .refl t, nofun⟩
  | cons entry rest ih =>
    obtain ⟨hbehind, hrest⟩ := List.pairwise_cons.mp hentries
    obtain ⟨hentry, hattributes⟩ := List.forall_mem_cons.mp hattributes
    have hreused : ∀ e ∈ rest, reusable? t.policy (passed t.policy cached entry).2 e =
        reusable? t.policy cached e := fun e he => reusable?_passed hcached (hbehind e he)
    have hunmatched : unmatched (reusable? t.policy (passed t.policy cached entry).2) rest =
        unmatched (reusable? t.policy cached) rest :=
      List.filter_congr fun e he => by rw [hreused e he]
    have hlater := (mem_of_passed t.policy cached entry).2
    have hmeet : (passed t.policy cached entry).1.filter (·.id = entry.id) =
        reusable? t.policy cached entry := by
      rw [passed_fst hcached]
      rfl
    rw [run_mergeListing_cons, mergeEntry, hmeet, naiveJoin, unmatched, List.filter_cons]
    cases hnode : reusable? t.policy cached entry with
    | some node =>
      -- a cached node is used again
      obtain ⟨t', hserve, hmade, howns⟩ := ih (ascending_passed hcached entry) hrest hattributes
        asked
      rw [hunmatched, naiveJoin_congr hreused] at hserve
      rw [naiveJoin_congr hreused] at howns
      refine ⟨t', ?_, hmade, List.forall_mem_cons.mpr
        ⟨.inl ((reusable?_eq_some_iff hcached).mp hnode).1,
          fun n hn => (howns n hn).imp_left (hlater n)⟩⟩
      dsimp only
      rw [run_bind, Run.serve_bind, hserve]
      rfl
    | none =>
      dsimp only
      rw [serve_ask_bind hentry]
      cases hfound : attributes entry.name with
      | none =>
        -- the child has vanished
        obtain ⟨t', hserve, hmade, howns⟩ := ih (ascending_passed hcached entry) hrest hattributes
          (asked ++ [.attributes dir.id entry.name])
        rw [hunmatched, naiveJoin_congr hreused, List.append_assoc] at hserve
        rw [naiveJoin_congr hreused] at howns
        exact ⟨t', hserve, hmade, fun n hn => (howns n hn).imp_left (hlater n)⟩
      | some found =>
        -- a node is made
        let made := t.make dir entry.id entry.name found
        have hmaking : Made t (made.2.hold [made.1]) := .make _ _ _ _ (.held _ (.refl _))
        obtain ⟨t', hserve, hmade, howns⟩ := ih (t := made.2.hold [made.1])
          (ascending_passed hcached entry) hrest hattributes
          (asked ++ [.attributes dir.id entry.name])
        have hsize : (made.2.hold [made.1]).cells.size = t.cells.size + 1 := Array.size_push _
        have hpolicy : (made.2.hold [made.1]).policy = t.policy := rfl
        rw [hsize, hpolicy] at hserve howns
        rw [hunmatched, naiveJoin_congr hreused, List.append_assoc] at hserve
        rw [naiveJoin_congr hreused] at howns
        refine ⟨t'.release [made.1], ?_, hmaking.trans (hmade.settled _), List.forall_mem_cons.mpr
          ⟨.inr (hmade.owns (owns_make t dir entry.id entry.name found)),
            fun n hn => (howns n hn).imp_left (hlater n)⟩⟩
        dsimp only
        rw [run_bind, run_newChild, Run.bind_done_ok, run_bind, run_holding, Run.serve_bind,
          Run.serve_settle, hserve]
        rfl

/-- The cached children of a directory are in the order of the tree. -/
theorem Tidy.ascending_present (ht : t.Tidy) (hc : t.children? dir = some c) :
    Ascending t.policy c.present :=
  (ht dir c hc).1 ▸ (ht dir c hc).2.ascending_present

/-! ### What is dropped -/

/-- The nodes that a listing drops: the cached children that are not used again for any of its
entries, and all that is cached below them. -/
def Discards (t : Tree) (cached : List Node) (entries : List Listed) (n : Node) : Prop :=
  ∃ top ∈ cached, (∀ e ∈ entries, reusable? t.policy cached e ≠ some top) ∧ t.Beneath top n

/-- Identities tell the nodes that a listing drops from all others, as far as these have entries in
the registry, and no entry of the listing has the identity of a node that it leaves alone. -/
structure ToldApart (t : Tree) (cached : List Node) (entries : List Listed) : Prop where
  /-- Where the identity of a node is listed, the node is used again or dropped. -/
  listed : ∀ n ∈ t.registry.nodes, ∀ e ∈ entries, e.id = n.id →
    reusable? t.policy cached e = some n ∨ t.Discards cached entries n
  /-- No dropped node has the identity of one that is not dropped. -/
  dropped : ∀ n ∈ t.registry.nodes, ∀ m, t.Discards cached entries m → m.id = n.id →
    t.Discards cached entries n

/-- What is below a node before an array is replaced is afterwards below the same node, or below a
child that is not in the new array. -/
theorem Beneath.installed {t₁ : Tree} (h : t.Beneath top n) (hmade : Made t t₁)
    (hc : t.children? dir = some c) (c' : Children) :
    ∃ top', (top' = top ∨ top' ∈ c.present ∧ top' ∉ c'.present) ∧
      (t₁.setChildren dir c').Beneath top' n := by
  induction h with
  | top => exact ⟨top, .inl rfl, .top⟩
  | @child d n cd _ hcd hn ih =>
    obtain ⟨top', htop', hbelow⟩ := ih
    have hd : (t₁.setChildren dir c').children? d =
        if dir.serial = d.serial then some c' else some cd := by
      rw [children?_setChildren, hmade.children? hcd, Option.map_some]
    by_cases hserial : dir.serial = d.serial
    · -- the array is the one that is replaced
      rw [if_pos hserial] at hd
      obtain rfl : c = cd := Option.some.inj (hc.symm.trans ((children?_congr hserial).trans hcd))
      by_cases hkept : n ∈ c'.present
      · exact ⟨top', htop', .child hbelow hd hkept⟩
      · exact ⟨n, .inr ⟨hn, hkept⟩, .top⟩
    · rw [if_neg hserial] at hd
      exact ⟨top', htop', .child hbelow hd hn⟩

/-- What is below a node after an array was replaced was below it before, or is a new child in the
array: nothing is below a new child. -/
theorem Beneath.of_installed {t₁ : Tree} {c' : Children} (hmade : Made t t₁)
    (hc : t.children? dir = some c)
    (hnew : ∀ n ∈ c'.present, n ∈ c.present ∨ t.cells.size ≤ n.serial)
    (h : (t₁.setChildren dir c').Beneath top n) :
    t.Beneath top n ∨ n ∈ c'.present ∧ t.cells.size ≤ n.serial := by
  induction h with
  | top => exact .inl .top
  | @child d n cd _ hcd hn ih =>
    rw [children?_setChildren] at hcd
    split at hcd
    · next hserial =>
      obtain ⟨_, -, rfl⟩ := Option.map_eq_some_iff.mp hcd
      have hd : t.children? d = some c := (children?_congr hserial.symm).trans hc
      rcases ih with hbelow | ⟨-, hlater⟩
      · rcases hnew n hn with hold | hlater
        · exact .inl (.child hbelow hd hold)
        · exact .inr ⟨hn, hlater⟩
      · exact absurd (serial_lt_of_children? hd) (Nat.not_lt.mpr hlater)
    · have hd : t.children? d = some cd := hmade.children?_of_mem hcd hn
      rcases ih with hbelow | ⟨-, hlater⟩
      · exact .inl (.child hbelow hd hn)
      · exact absurd (serial_lt_of_children? hd) (Nat.not_lt.mpr hlater)

section Dropped

variable {entries : List Listed} {t₁ : Tree} {c' : Children} {m : Node}

/-- Each node for the entries is used again, or is new. -/
theorem mem_naiveJoin_cases (h : t.Peopled) (hc : t.children? dir = some c)
    (hn : n ∈ naiveJoin (reusable? t.policy c.present) attributes dir.id t.cells.size entries) :
    ∃ e ∈ entries, e.id = n.id ∧ (reusable? t.policy c.present e = some n ∧ n ∈ c.present ∨
      reusable? t.policy c.present e = none ∧ t.cells.size ≤ n.serial) := by
  obtain ⟨e, he, hreused | ⟨hnone, hlater, hid, -⟩⟩ := exists_of_mem_naiveJoin hn
  · obtain ⟨hmem, -, hid⟩ := (reusable?_eq_some_iff (h.tidy.ascending_present hc)).mp hreused
    exact ⟨e, he, hid.symm, .inl ⟨hreused, hmem⟩⟩
  · exact ⟨e, he, hid.symm, .inr ⟨hnone, hlater⟩⟩

/-- The cached children that are not among the nodes for the entries, as objects, are those that are
not used again for any entry. -/
theorem mem_unused_iff (h : t.Peopled) (hc : t.children? dir = some c) :
    top ∈ c.present.filter (fun n =>
        !(naiveJoin (reusable? t.policy c.present) attributes dir.id t.cells.size entries).any
          (·.serial = n.serial)) ↔
      top ∈ c.present ∧ ∀ e ∈ entries, reusable? t.policy c.present e ≠ some top := by
  rw [List.mem_filter, Bool.not_eq_true', List.any_eq_false]
  refine and_congr_right fun htop => ⟨fun hnone e he hreused => ?_, fun hunused n hn hserial => ?_⟩
  · exact hnone top (mem_naiveJoin_of_reused he hreused) (decide_eq_true rfl)
  · have howns := h.objects dir c top hc htop
    have hserial : n.serial = top.serial := of_decide_eq_true hserial
    obtain ⟨e, he, -, ⟨hreused, hmem⟩ | ⟨-, hlater⟩⟩ := mem_naiveJoin_cases h hc hn
    · have hsame := (h.objects dir c n hc hmem).eq_of_serial howns hserial
      exact hunused e he (hsame ▸ hreused)
    · exact absurd howns.serial_lt (Nat.not_lt.mpr (hserial ▸ hlater))

/-- What a listing drops is below an unused child when the nodes for the entries are the array. -/
theorem Discards.installed (h : t.Discards c.present entries n) (hmade : Made t t₁)
    (hc : t.children? dir = some c)
    (hpresent : c'.present =
      naiveJoin (reusable? t.policy c.present) attributes dir.id t.cells.size entries) :
    ∃ top ∈ c.present, (∀ e ∈ entries, reusable? t.policy c.present e ≠ some top) ∧
      (t₁.setChildren dir c').Beneath top n := by
  obtain ⟨top, htop, hunused, hbelow⟩ := h
  obtain ⟨top', rfl | ⟨htop', hnot⟩, hbelow'⟩ := hbelow.installed hmade hc c'
  · exact ⟨top', htop, hunused, hbelow'⟩
  · refine ⟨top', htop', fun e he hreused => hnot ?_, hbelow'⟩
    rw [hpresent]
    exact mem_naiveJoin_of_reused he hreused

/-- Among the nodes for the entries, only a node that has an entry and is not dropped has its
identity. -/
theorem ToldApart.eq_of_id (hapart : t.ToldApart c.present entries) (h : t.Peopled)
    (hc : t.children? dir = some c) (hn : n ∈ t.registry.nodes)
    (hkept : ¬ t.Discards c.present entries n)
    (hm : m ∈ naiveJoin (reusable? t.policy c.present) attributes dir.id t.cells.size entries)
    (hid : m.id = n.id) : m = n ∧ m ∈ c.present := by
  obtain ⟨e, he, heid, horigin⟩ := mem_naiveJoin_cases h hc hm
  have hreused := (hapart.listed n hn e he (heid.trans hid)).resolve_right hkept
  rcases horigin with ⟨hm, hmem⟩ | ⟨hnone, -⟩
  · exact ⟨Option.some.inj (hm.symm.trans hreused), hmem⟩
  · rw [hnone] at hreused
    cases hreused

/-- The entry of a node that is not dropped does not go with any unused child. -/
theorem ToldApart.not_drops (hapart : t.ToldApart c.present entries) (h : t.Peopled)
    (hc : t.children? dir = some c) (hmade : Made t t₁)
    (hpresent : c'.present =
      naiveJoin (reusable? t.policy c.present) attributes dir.id t.cells.size entries)
    (hn : n ∈ t.registry.nodes) (hkept : ¬ t.Discards c.present entries n) (htop : top ∈ c.present)
    (hunused : ∀ e ∈ entries, reusable? t.policy c.present e ≠ some top) :
    ¬ (t₁.setChildren dir c').Drops top n := by
  rintro ⟨m, hbelow, hid, -⟩
  have hnew : ∀ n ∈ c'.present, n ∈ c.present ∨ t.cells.size ≤ n.serial := by
    intro n hn
    obtain ⟨_, -, -, ⟨-, hold⟩ | ⟨-, hlater⟩⟩ := mem_naiveJoin_cases h hc (hpresent ▸ hn)
    · exact .inl hold
    · exact .inr hlater
  rcases hbelow.of_installed hmade hc hnew with hbelow | ⟨hm, hlater⟩
  · exact hkept (hapart.dropped n hn m ⟨top, htop, hunused, hbelow⟩ hid)
  · obtain ⟨-, hold⟩ := hapart.eq_of_id h hc hn hkept (hpresent ▸ hm) hid
    exact absurd (h.objects dir c m hc hold).serial_lt (Nat.not_lt.mpr hlater)

/-- When the nodes for a listing have become the array and got entries, and the entries of what is
not used again were dropped, then the nodes that had entries before and have none any more are those
that the listing drops, if identities tell these from all others. -/
theorem Peopled.discards_iff {merged : List Node} (h : t.Peopled) (hproper : t.registry.Proper)
    (hc : t.children? dir = some c) (hmade : Made t t₁)
    (hmerged :
      naiveJoin (reusable? t.policy c.present) attributes dir.id t.cells.size entries = merged)
    (howns : ∀ n ∈ merged, t₁.Owns n) (hascending : Ascending c.policy merged)
    (hapart : t.ToldApart c.present entries)
    (hrun : (unregisterSubtrees (c.present.filter fun n => !merged.any (·.serial = n.serial))).run
      (merged.foldl register (t₁.setChildren dir (c.apply (.install merged c.generation)).2)) =
        .done (.ok ()) t') (hn : n ∈ t.registry.nodes) :
    n ∉ t'.registry.nodes ↔ t.Discards c.present entries n := by
  have hop : Children.Op.Admissible c.policy (.install merged c.generation) := hascending
  have h₂ := (h.made hmade).change (hmade.children? hc) _ hop howns
  have hpresent := Children.present_install (h.tidy dir c hc).2 hascending
  generalize (c.apply (.install merged c.generation)).2 = c' at *
  have hobjects : ∀ top ∈ c.present, (t₁.setChildren dir c').Owns top := fun top htop =>
    (owns_setChildren t₁ dir top c').mpr (hmade.owns (h.objects dir c top hc htop))
  have hregistry : (t₁.setChildren dir c').registry = t.registry := hmade.unchanged.2
  have hproper₁ : (merged.foldl register (t₁.setChildren dir c')).registry.Proper :=
    proper_foldl_register (hregistry ▸ hproper)
  have hentry : (∀ m ∈ merged, m.id = n.id → m = n) →
      n ∈ (merged.foldl register (t₁.setChildren dir c')).registry.nodes :=
    mem_foldl_register (.inr (hregistry ▸ hn))
  rw [foldl_register_eq] at hrun
  generalize (merged.foldl register (t₁.setChildren dir c')).registry = registry₁ at *
  subst hmerged
  obtain ⟨registry, rfl, -, hmem⟩ := mem_unregisterSubtrees
    (t := { t₁.setChildren dir c' with registry := registry₁ }) ⟨h₂.tidy, h₂.objects⟩ hproper₁
    (fun top htop => hobjects top ((mem_unused_iff h hc).mp htop).1) hrun
  simp only [drops_frame] at hmem
  constructor
  · intro hgone
    by_contra hkept
    refine hgone ((hmem n).mpr ⟨hentry fun m hm hid =>
      (hapart.eq_of_id h hc hn hkept hm hid).1, fun top htop => ?_⟩)
    obtain ⟨hcached, hunused⟩ := (mem_unused_iff h hc).mp htop
    exact hapart.not_drops h hc hmade hpresent hn hkept hcached hunused
  · intro hdropped hleft
    obtain ⟨top, hcached, hunused, hbelow⟩ := hdropped.installed hmade hc hpresent
    exact ((hmem n).mp hleft).2 top ((mem_unused_iff h hc).mpr ⟨hcached, hunused⟩)
      ⟨n, hbelow, rfl, .inl rfl⟩

end Dropped

/-! ### Whole listings -/

/-- A listing of a directory whose children are not known to be all there are asks for the listing,
merges it with what is cached, and installs the nodes. -/
theorem logged_refreshChildren (ht : t.Tidy) (hc : t.children? dir = some c)
    (hloaded : c.allLoaded = false) {listing : List Listed} {entries : List Listed}
    (hlist : answers (.list dir.id) = .ok listing)
    (hsorted : sortedListing t.policy listing = entries)
    (hattributes : ∀ e ∈ listing,
      answers (.attributes dir.id e.name) = .ok (attributes e.name)) :
    ∃ t₁, Made t t₁ ∧
      (∀ n ∈ naiveJoin (reusable? t.policy c.present) attributes dir.id t.cells.size entries,
        n ∈ c.present ∨ t₁.Owns n) ∧
      ∀ merged result t₂,
        naiveJoin (reusable? t.policy c.present) attributes dir.id t.cells.size entries = merged →
        (installListing dir c.present merged c.generation).run (t₁.hold merged) = .done result t₂ →
        (refreshChildren dir).logged answers t = (result.map fun _ => merged,
          (t₂.release merged).release c.present, .list dir.id ::
            (unmatched (reusable? t.policy c.present) entries).map
              fun e => .attributes dir.id e.name) := by
  subst hsorted
  have hhold : Made t (t.hold c.present) := .held _ (.refl _)
  obtain ⟨t₁, hserve, hmade, howns⟩ := serve_mergeListing (t := t.hold c.present)
    (ht.ascending_present hc) (ascending_sortedListing t.policy listing)
    (fun e he => hattributes e (mem_of_mem_sortedListing he)) [.list dir.id]
  refine ⟨t₁, hhold.trans hmade, howns, ?_⟩
  rintro merged result t₂ hmerged hinstall
  have hpolicy : (t.hold c.present).policy = t.policy := rfl
  have hsize : (t.hold c.present).cells.size = t.cells.size := rfl
  rw [hpolicy, hsize, hmerged] at hserve
  rw [logged, refreshChildren, run_childrenOf_bind hc, hloaded]
  simp only [Bool.false_eq_true, if_false]
  rw [serve_ask_bind hlist, run_bind, run_get, Run.bind_done_ok, run_childrenOf_bind hc,
    run_holding, Run.serve_settle, run_bind, Run.serve_bind, List.nil_append, hserve]
  dsimp only
  rw [run_bind, run_holding, hinstall]
  cases result <;> rfl

/-- A listing of a graded tree leaves a graded tree. -/
theorem Graded.logged_refreshChildren (h : t.Graded) {result : Except TreeError (List Node)}
    {asked : List Query} (hlogged : (refreshChildren dir).logged answers t = (result, t', asked)) :
    t'.Graded := by
  have hbonded : ((refreshChildren dir).run t).Always growing fun _ t' =>
      t'.Bonded (gradation t.policy t.config) :=
    (bonded_gradation_iff.mpr h).refreshChildren (trusts_growing t.policy t.config) trivial
  have hlast := (Run.took_serve (logging answers) ((refreshChildren dir).run t) []).always hbonded
    fun x hx => by
      obtain ⟨_, -, hresumed⟩ := Run.exists_of_mem_exchanges hx
      rw [hresumed]
      exact ⟨.refl _, id⟩
  rw [← logged, hlogged] at hlast
  exact ⟨hlast.tidy, hlast.binds⟩

/-- So does any operation that reports no child. -/
theorem Graded.stepped (h : t.Graded) (answers : Answers) (dir : Node) (command : Command)
    (held : List Nat) (hadded : command ≠ .addChild) :
    (t.stepped answers dir command held).Graded := by
  have hcommand : ((command.run [] ⟨dir, dir, dir⟩).run t).Always answers.world
      fun _ t' => t'.Graded :=
    (h.command [] fun hadd => absurd hadd hadded).of_world
      fun _ _ _ _ hw => hw.2 ▸ ⟨.refl _, id⟩
  have hlast := answered_of_always hcommand
  exact ⟨hlast.tidy, fun d c n hc hn =>
    ⟨(hlast.younger d c n hc hn).owns, (hlast.younger d c n hc hn).later⟩⟩

/-- A listing of a directory whose children are not known to be all there are answers the nodes for
its entries, which are from then on all children of the directory. The nodes that lose their entries
in the registry are those that it drops, if identities tell these from all others. It does not come
to an end if the walk over what is cached below a dropped child has none, which does not happen in a
graded tree. -/
theorem Peopled.logged_refreshChildren {listing entries : List Listed} {merged : List Node}
    (h : t.Peopled) (hproper : t.registry.Proper) (hc : t.children? dir = some c)
    (hloaded : c.allLoaded = false) (hlist : answers (.list dir.id) = .ok listing)
    (hsorted : sortedListing t.policy listing = entries)
    (hattributes : ∀ e ∈ listing, answers (.attributes dir.id e.name) = .ok (attributes e.name))
    (hmerged : naiveJoin (reusable? t.policy c.present) attributes dir.id t.cells.size entries =
      merged) :
    ∃ result t', (refreshChildren dir).logged answers t = (result, t', .list dir.id ::
        (unmatched (reusable? t.policy c.present) entries).map
          fun e => .attributes dir.id e.name) ∧
      (∃ c', t'.children? dir = some c' ∧ c'.present = merged ∧ c'.allLoaded = true) ∧
      (result = .ok merged ∧ (t.ToldApart c.present entries → ∀ n ∈ t.registry.nodes,
          (n ∉ t'.registry.nodes ↔ t.Discards c.present entries n)) ∨
        ¬ t.Graded ∧ ∃ top, t.Discards c.present entries top ∧ t'.subtree? top = none ∧
          result = .error (.endless top.id)) := by
  obtain ⟨t₁, hmade, howns, hlogged⟩ :=
    Tree.logged_refreshChildren h.tidy hc hloaded hlist hsorted hattributes
  have hascending : Ascending c.policy merged := by
    rw [← hmerged, (h.tidy dir c hc).1]
    exact ascending_naiveJoin (h.tidy.ascending_present hc)
      (hsorted ▸ ascending_sortedListing t.policy listing)
  have hheld : Made t (t₁.hold merged) := hmade.settled _
  have hobjects : ∀ n ∈ merged, (t₁.hold merged).Owns n := fun n hn =>
    (howns n (hmerged ▸ hn)).elim (fun hold => hheld.owns (h.objects dir c n hc hold)) id
  have hinstall := run_installListing_of_eq (h.made hheld).tidy (hheld.children? hc) hascending
    c.present
  obtain ⟨result, registry, hdropped⟩ := run_unregisterSubtrees _ _
  have hlogged := hlogged merged result _ hmerged (hinstall.trans hdropped)
  have harray : (merged.foldl register ((t₁.hold merged).setChildren dir
      (c.apply (.install merged c.generation)).2)).children? dir =
        some (c.apply (.install merged c.generation)).2 := by
    rw [foldl_register_eq]
    exact children?_setChildren_self (hheld.children? hc) _
  have hcomplete : (c.apply (.install merged c.generation)).2.allLoaded = true := by
    rw [Children.apply, Children.install_of_ascending (h.tidy dir c hc).2 hascending]
  refine ⟨_, _, hlogged, ⟨_, harray,
    Children.present_install (h.tidy dir c hc).2 hascending, hcomplete⟩, ?_⟩
  cases result with
  | ok _ =>
    refine .inl ⟨rfl, fun hapart n hn => ?_⟩
    have hiff := h.discards_iff hproper hc hheld hmerged hobjects hascending hapart hdropped hn
    -- the nodes are released after that, which leaves the registry alone
    exact hiff
  | error e =>
    obtain ⟨top, htop, hmet, rfl⟩ := unregisterSubtrees_error hdropped
    rw [← hmerged, mem_unused_iff h hc] at htop
    have hendless := fun held => (subtree?_frame _ registry held top).trans hmet
    refine .inr ⟨fun hgraded => ?_, top, ⟨top, htop.1, htop.2, .top⟩, hendless _, rfl⟩
    -- the walk would end in the tree that the listing leaves
    have hlast := hgraded.logged_refreshChildren hlogged
    have howned : (merged.foldl register ((t₁.hold merged).setChildren dir
        (c.apply (.install merged c.generation)).2)).Owns top := by
      rw [foldl_register_eq]
      exact (owns_setChildren _ dir top _).mpr (hheld.owns (h.objects dir c top hc htop.1))
    obtain ⟨met, hends, -⟩ := (hlast.branch howned).exists_subtree? hlast.tidy
    cases hends.symm.trans (hendless _)

/-- Whatever is cached of a directory whose children are not known to be all there are, and whatever
the backend lists and reports, a listing comes to the same as the naive join. For each name that is
listed, it takes the entry that was listed first; the nodes for these entries are answered in the
order of the names. The backend is asked for the listing and then for the attributes of the entries
for which no cached node is used again, once each and in the same order, and for nothing else.

The nodes that lose their entries in the registry are the cached children that are not used again
and all that is cached below them, if identities tell these from all others. Only where the walk
over what is cached below one of them has no end does the listing not come to one.

**Proof sketch.** Sorting is stable, so of the entries of one name the first one is left. What
merging side by side answers and asks is that of the join by induction on the entries. Afterwards
the dropped nodes are below the unused children as before, though the way to them may have led
through the directory itself. -/
theorem refreshChildren_joins {policy : CasePolicy} {config : TreeConfig} {root : FileId}
    {rootName : String} (hreached : Admits (ofRoot policy config root rootName) t)
    (hc : t.children? dir = some c) (hloaded : c.allLoaded = false) {listing : List Listed}
    (hlist : answers (.list dir.id) = .ok listing)
    (hattributes : ∀ e ∈ listing,
      answers (.attributes dir.id e.name) = .ok (attributes e.name)) :
    ∃ entries merged result t',
      Ascending t.policy entries ∧
      (∀ e, e ∈ entries ↔
        listing.find? (fun e' => t.policy.key e'.name = t.policy.key e.name) = some e) ∧
      merged = naiveJoin (reusable? t.policy c.present) attributes dir.id t.cells.size entries ∧
      Ascending t.policy merged ∧
      (refreshChildren dir).logged answers t = (result, t', .list dir.id ::
        (unmatched (reusable? t.policy c.present) entries).map
          fun e => .attributes dir.id e.name) ∧
      (result = .ok merged ∧ (t.ToldApart c.present entries → ∀ n ∈ t.registry.nodes,
          (n ∉ t'.registry.nodes ↔ t.Discards c.present entries n)) ∨
        ¬ t.Graded ∧ ∃ top, t.Discards c.present entries top ∧ t'.subtree? top = none ∧
          result = .error (.endless top.id)) := by
  obtain ⟨ht, hproper⟩ := hreached.peopled_and_proper
  obtain ⟨result, t', hlogged, -, hend⟩ :=
    ht.logged_refreshChildren hproper hc hloaded hlist rfl hattributes rfl
  have hentries := ascending_sortedListing t.policy listing
  exact ⟨_, _, result, t', hentries, fun e => mem_sortedListing_iff, rfl,
    ascending_naiveJoin (ht.tidy.ascending_present hc) hentries, hlogged, hend⟩

/-! ### A directory that was replaced

A file and a directory are looked up, and a file in that directory, where case does not distinguish
names. Then the directory is replaced by a file whose name is spelled in another way. The backend
lists both, the file first, with a file that has vanished when it is asked about it. -/

namespace Relisted

/-- The root of the tree. -/
def root : Node :=
  ⟨0, ⟨1, FileId.raw_one_ne_zero⟩, "root", none, { directory := true }⟩

/-- The cached file. -/
def file : Node :=
  ⟨1, ⟨2, FileId.raw_two_ne_zero⟩, "a", some root.id, {}⟩

/-- The cached directory. -/
def former : Node :=
  ⟨2, ⟨3, FileId.raw_three_ne_zero⟩, "D", some root.id, { directory := true }⟩

/-- The file that is cached below the directory. -/
def inner : Node :=
  ⟨3, ⟨10, by decide⟩, "x", some former.id, {}⟩

/-- The node for the file that has taken the place of the directory. -/
def current : Node :=
  ⟨4, ⟨11, by decide⟩, "d", some root.id, {}⟩

/-- The backend before the listing. -/
def table : Table :=
  ((Table.ofRoot .insensitive root.id).add root.id ⟨"a", some file.id, some file.attributes⟩
    |>.add root.id ⟨"D", some former.id, some former.attributes⟩)
    |>.add former.id ⟨"x", some inner.id, some inner.attributes⟩

/-- The tree before the listing. -/
def cached : Tree :=
  (ofRoot .insensitive {} root.id "root")
    |>.stepped table.answer root (.lookup "a") [0]
    |>.stepped table.answer root (.lookup "D") [0]
    |>.stepped table.answer former (.lookup "x") [0]

/-- The file that has vanished when the backend is asked about it. -/
def vanished : Listed :=
  ⟨"gone", ⟨12, by decide⟩⟩

/-- What the backend lists then. -/
def listing : List Listed :=
  [⟨"d", current.id⟩, ⟨"D", former.id⟩, vanished, ⟨"A", file.id⟩]

/-- The first entries of their names, in order. -/
def firsts : List Listed :=
  [⟨"A", file.id⟩, ⟨"d", current.id⟩, vanished]

/-- The attributes of what is listed. -/
def reports (name : String) : Option Attributes :=
  if name = "gone" then none else some {}

/-- The answers of the backend to the listing. -/
def backend : Answers
  | .list _ => .ok listing
  | .attributes _ name => .ok (reports name)
  | .resolve _ _ _ => .ok none
  | .canonical _ name => .ok name
  | .nameOf _ => .ok none

/-- Only objects were admitted to the tree before the listing. -/
theorem admits_cached : Admits (ofRoot .insensitive {} root.id "root") cached :=
  .stepped table.answer root (.lookup "a") [0] nofun
    (.stepped table.answer root (.lookup "D") [0] nofun
      (.stepped table.answer former (.lookup "x") [0] nofun (.refl _)))

/-- Each object was made after its directory. -/
theorem graded_cached : cached.Graded :=
  graded_ofRoot .insensitive {} root.id "root"
    |>.stepped table.answer root (.lookup "a") [0] nofun
    |>.stepped table.answer root (.lookup "D") [0] nofun
    |>.stepped table.answer former (.lookup "x") [0] nofun

/-- The file and the directory are cached in the root, and the inner file in the directory. -/
theorem present_cached :
    (cached.children? root).map (fun c => (c.present, c.allLoaded)) =
        some ([file, former], false) ∧
      (cached.children? former).map Children.present = some [inner] ∧
      cached.children? inner = none ∧ cached.registry.nodes = [inner, former, file, root] := by
  decide +kernel

/-- The nodes below the directory are the directory and the inner file. -/
theorem beneath_former {n : Node} : cached.Beneath former n ↔ n = former ∨ n = inner := by
  obtain ⟨-, hformer, hinner, -⟩ := present_cached
  obtain ⟨c, hc, hpresent⟩ := Option.map_eq_some_iff.mp hformer
  constructor
  · intro hn
    rcases beneath_iff.mp hn with rfl | ⟨c', m, hc', hm, hn⟩
    · exact .inl rfl
    · obtain rfl : c = c' := Option.some.inj (hc.symm.trans hc')
      obtain rfl := List.mem_singleton.mp (hpresent ▸ hm)
      rcases beneath_iff.mp hn with rfl | ⟨_, _, hnone, -⟩
      · exact .inr rfl
      · cases hinner.symm.trans hnone
  · rintro (rfl | rfl)
    · exact .top
    · exact .child .top hc (hpresent ▸ List.mem_singleton_self _)

/-- The listing drops the directory and the inner file. -/
theorem discards_firsts {n : Node} :
    cached.Discards [file, former] firsts n ↔ n = former ∨ n = inner := by
  have hused : ∀ top ∈ [file, former],
      (∀ e ∈ firsts, reusable? cached.policy [file, former] e ≠ some top) ↔ top = former := by
    decide +kernel
  constructor
  · rintro ⟨top, htop, hunused, hbelow⟩
    obtain rfl := (hused top htop).mp hunused
    exact beneath_former.mp hbelow
  · intro hn
    exact ⟨former, by decide, (hused former (by decide)).mpr rfl, beneath_former.mpr hn⟩

/-- Identities tell these from all others. -/
theorem toldApart_firsts : cached.ToldApart [file, former] firsts where
  listed := by
    rw [present_cached.2.2.2]
    simp only [discards_firsts]
    decide +kernel
  dropped := by
    rw [present_cached.2.2.2]
    simp only [discards_firsts]
    rintro n hn m (rfl | rfl) hid
    · revert n
      decide +kernel
    · revert n
      decide +kernel

/-- The listing answers the cached file and a node for the new one, is told the attributes of the
new one and of the one that has vanished, and drops the directory with the inner file. -/
theorem refreshChildren_joins_relisted : ∃ t',
    (refreshChildren root).logged backend cached = (.ok [file, current], t',
      [.list root.id, .attributes root.id "d", .attributes root.id "gone"]) ∧
    ∀ n ∈ [inner, former, file, root], n ∉ t'.registry.nodes ↔ n = former ∨ n = inner := by
  obtain ⟨c, hc, hpair⟩ := Option.map_eq_some_iff.mp present_cached.1
  obtain ⟨hpresent, hloaded⟩ := Prod.mk.inj hpair
  have hlist : backend (.list root.id) = .ok listing := rfl
  have hreports : ∀ e ∈ listing, backend (.attributes root.id e.name) = .ok (reports e.name) :=
    fun _ _ => rfl
  obtain ⟨entries, merged, result, t', hascending, hfirst, hmerged, -, hlogged, hend⟩ :=
    refreshChildren_joins admits_cached hc hloaded hlist hreports
  have hsorted : Ascending cached.policy firsts := by
    unfold Ascending CasePolicy.Before
    decide +kernel
  have hentries : entries = firsts := by
    refine hascending.eq_of_mem_iff hsorted fun e => (hfirst e).trans ⟨fun he => ?_, ?_⟩
    · have hmem := List.mem_of_find?_eq_some he
      revert he
      revert e
      decide +kernel
    · revert e
      decide +kernel
  subst hentries
  rw [hpresent] at hmerged hlogged hend
  have hnodes : naiveJoin (reusable? cached.policy [file, former]) reports root.id
      cached.cells.size firsts = [file, current] := by decide +kernel
  have hasked : (unmatched (reusable? cached.policy [file, former]) firsts).map
      (fun e => Query.attributes root.id e.name) =
        [.attributes root.id "d", .attributes root.id "gone"] := by decide +kernel
  rw [hasked] at hlogged
  rw [hnodes] at hmerged
  subst hmerged
  rcases hend with ⟨rfl, hdropped⟩ | ⟨hnot, -⟩
  · have hiff := hdropped toldApart_firsts
    simp only [present_cached.2.2.2, discards_firsts] at hiff
    exact ⟨t', hlogged, hiff⟩
  · exact absurd graded_cached hnot

end Relisted

end Tree

end LazyTree
