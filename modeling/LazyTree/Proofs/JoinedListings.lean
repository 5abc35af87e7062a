import LazyTree.Proofs.CoherentListings

set_option autoImplicit false

/-!
# Listings joined with cached children

Merging goes through a sorted listing and the cached children side by side. Since both are in
ascending order, no cached child is passed by while its entry is still to come: each cached child
that is listed with its identity is used again.

## Main definitions

* `LazyTree.Joined` — the nodes for a listing, with all the cached children that are listed.

## Main results

* `LazyTree.passed_of_ascending` — which cached children are passed by at an entry.
* `LazyTree.Joined.widen`, `LazyTree.Joined.cons`, `LazyTree.Joined.skip` — from the entries behind
  one to all entries.
-/

namespace LazyTree

/-- The nodes for a listing: they stand in its order, each is a file, each file that is listed has
one, and each cached child that is listed is among them. -/
structure Joined (policy : CasePolicy) (es : List TableEntry) (cached : List Node)
    (entries : List Listed) (merged : List Node) : Prop where
  /-- The nodes stand in the order of the listing. -/
  keys : (merged.map fun n => policy.key n.name).Sublist (entries.map fun e => policy.key e.name)
  /-- Each node is a file. -/
  sound : ∀ n ∈ merged, Table.contentAt policy es n.name = some (n.id, n.attributes)
  /-- Each file that is listed has a node. -/
  complete : ∀ e ∈ entries, (Table.contentAt policy es e.name).isSome = true →
    ∃ n ∈ merged, policy.key n.name = policy.key e.name
  /-- Each cached child that is listed is used again. -/
  reused : ∀ n ∈ cached, ∀ e ∈ entries, policy.key n.name = policy.key e.name → n ∈ merged

section Merging

variable {policy : CasePolicy} {es : List TableEntry} {cached merged : List Node} {entry : Listed}
  {entries : List Listed} {n : Node}

/-- The cached child that has the name of an entry is found, and those that come behind the entry
are left for the entries behind it. -/
theorem passed_of_ascending (hcached : Ascending policy cached) (hn : n ∈ cached) :
    (policy.key n.name = policy.key entry.name → (Tree.passed policy cached entry).1 = some n) ∧
      (policy.Before entry.name n.name → n ∈ (Tree.passed policy cached entry).2) := by
  induction cached with
  | nil => cases hn
  | cons first rest ih =>
    obtain ⟨hfirst, hrest⟩ := List.pairwise_cons.mp hcached
    unfold Tree.passed at *
    rw [List.dropWhile_cons]
    by_cases hbefore : policy.Before first.name entry.name
    · -- the first child comes before the entry
      have hpassed : (policy.compare first.name entry.name == .lt) = true := by
        rw [hbefore]
        rfl
      rw [if_pos hpassed]
      rcases List.mem_cons.mp hn with rfl | hn
      · refine ⟨fun hkey => absurd hkey hbefore.key_ne, fun hbehind => ?_⟩
        exact absurd rfl (hbefore.trans hbehind).key_ne
      · exact ih hrest hn
    · have hpassed : ¬ (policy.compare first.name entry.name == .lt) = true := by
        rw [beq_iff_eq]
        exact hbefore
      rw [if_neg hpassed]
      dsimp only
      by_cases hsame : policy.same first.name entry.name = true
      · rw [if_pos hsame]
        have hkey := CasePolicy.same_iff.mp hsame
        rcases List.mem_cons.mp hn with rfl | hn
        · exact ⟨fun _ => rfl, fun hbehind => absurd hkey.symm hbehind.key_ne⟩
        · have hbehind := hfirst n hn
          exact ⟨fun hkey' => absurd (hkey.trans hkey'.symm) hbehind.key_ne, fun _ => hn⟩
      · rw [if_neg hsame]
        have hkey : policy.key first.name ≠ policy.key entry.name :=
          fun hkey => hsame (CasePolicy.same_iff.mpr hkey)
        have hbehind := (CasePolicy.before_or_before hkey).resolve_left hbefore
        refine ⟨fun hkey' => ?_, fun _ => hn⟩
        rcases List.mem_cons.mp hn with rfl | hn
        · exact absurd hkey' hkey
        · exact absurd hkey'.symm (hbehind.trans (hfirst n hn)).key_ne

/-- The cached children that are left for the entries behind one are in their order. -/
theorem ascending_passed (hcached : Ascending policy cached) (entry : Listed) :
    Ascending policy (Tree.passed policy cached entry).2 := by
  have hdropped := hcached.sublist (List.dropWhile_sublist
    fun n : Node => policy.compare n.name entry.name == .lt)
  unfold Tree.passed
  split
  · next first later hrest =>
    rw [hrest] at hdropped
    split
    · exact (List.pairwise_cons.mp hdropped).2
    · exact hdropped
  · exact .nil

/-- If no cached child is used for a file, then none has its name: cached children are files, so it
would have the identity of the file as well. -/
theorem key_ne_of_unused (hcached : Ascending policy cached)
    (hfiles : ∀ n ∈ cached, Table.contentAt policy es n.name = some (n.id, n.attributes))
    {attributes : Attributes}
    (hfile : Table.contentAt policy es entry.name = some (entry.id, attributes))
    (hunused : (Tree.passed policy cached entry).1.filter (·.id = entry.id) = none) :
    ∀ m ∈ cached, policy.key m.name ≠ policy.key entry.name := by
  intro m hm hkey
  have hcontent := hfiles m hm
  rw [Ledger.contentAt_congr hkey, hfile] at hcontent
  rw [(passed_of_ascending hcached hm).1 hkey] at hunused
  simp_all

/-- What is left of the cached children behind an entry is all that matters for the entries behind
it. -/
theorem Joined.widen (h : Joined policy es (Tree.passed policy cached entry).2 entries merged)
    (hcached : Ascending policy cached) (hentries : Ascending policy (entry :: entries)) :
    Joined policy es cached entries merged where
  keys := h.keys
  sound := h.sound
  complete := h.complete
  reused := by
    intro m hm e he hkey
    have hbehind := (List.pairwise_cons.mp hentries).1 e he
    rw [name_listed, name_listed, CasePolicy.Before,
      CasePolicy.compare_congr rfl hkey.symm] at hbehind
    exact h.reused m ((passed_of_ascending hcached hm).2 hbehind) e he hkey

/-- A node for an entry, in front of the nodes for the entries behind it. -/
theorem Joined.cons (h : Joined policy es cached entries merged)
    (hkey : policy.key n.name = policy.key entry.name)
    (hfile : Table.contentAt policy es n.name = some (n.id, n.attributes))
    (hreused : ∀ m ∈ cached, policy.key m.name = policy.key entry.name → m = n) :
    Joined policy es cached (entry :: entries) (n :: merged) where
  keys := by
    rw [List.map_cons, List.map_cons, hkey]
    exact h.keys.cons_cons _
  sound := List.forall_mem_cons.mpr ⟨hfile, h.sound⟩
  complete := List.forall_mem_cons.mpr ⟨fun _ => ⟨n, List.mem_cons_self, hkey⟩,
    fun e he hsome => (h.complete e he hsome).imp fun _ hm => ⟨List.mem_cons_of_mem n hm.1, hm.2⟩⟩
  reused := by
    intro m hm e he hkey'
    rcases List.mem_cons.mp he with rfl | he
    · rw [hreused m hm hkey']
      exact List.mem_cons_self
    · exact List.mem_cons_of_mem n (h.reused m hm e he hkey')

/-- An entry that is no complete file needs no node. -/
theorem Joined.skip (h : Joined policy es cached entries merged)
    (hnone : Table.contentAt policy es entry.name = none)
    (hfiles : ∀ n ∈ cached, Table.contentAt policy es n.name = some (n.id, n.attributes)) :
    Joined policy es cached (entry :: entries) merged where
  keys := h.keys.cons _
  sound := h.sound
  complete := List.forall_mem_cons.mpr ⟨fun hsome => by simp [hnone] at hsome, h.complete⟩
  reused := by
    intro m hm e he hkey
    rcases List.mem_cons.mp he with rfl | he
    · have hfile := hfiles m hm
      rw [Ledger.contentAt_congr hkey, hnone] at hfile
      cases hfile
    · exact h.reused m hm e he hkey

end Merging

end LazyTree
