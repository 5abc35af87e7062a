import LazyTree.Proofs.Cut
import LazyTree.Tree.Listing

set_option autoImplicit false

/-!
# Sorted listings

A listing is sorted by name and freed from repetitions before it is merged with what is cached.
What comes out is in strictly ascending order, whatever the backend listed, and holds an entry for
each name of the listing: of several entries with the same name, the one that the backend listed
first.

## Main results

* `LazyTree.Tree.ascending_sortedListing` — the order is strict.
* `LazyTree.Tree.mem_of_mem_sortedListing`, `LazyTree.Tree.exists_mem_sortedListing` — what a
  sorted listing holds.
* `LazyTree.Tree.mem_sortedListing_iff` — these are the first entries of their names.
-/

namespace LazyTree

instance : Named Listed := ⟨Listed.name⟩

/-- A line of a listing has the name that it lists. -/
@[simp] theorem name_listed (e : Listed) : name e = e.name := rfl

namespace Tree

variable {policy : CasePolicy}

/-- Dropping repetitions keeps the order of what is left. -/
theorem dropRepeats_sublist (entries : List Listed) :
    (dropRepeats policy entries).Sublist entries := by
  fun_induction dropRepeats policy entries with
  | case1 a b rest hsame ih => exact ih.trans ((List.sublist_cons_self b rest).cons_cons a)
  | case2 a b rest hsame ih => exact ih.cons_cons a
  | case3 entries => exact List.Sublist.refl _

/-- Dropping repetitions from a sorted list makes the order strict. -/
theorem ascending_dropRepeats {entries : List Listed}
    (h : entries.Pairwise fun a b => policy.compare a.name b.name ≠ .gt) :
    Ascending policy (dropRepeats policy entries) := by
  fun_induction dropRepeats policy entries with
  | case1 a b rest hsame ih =>
    exact ih (h.sublist ((List.sublist_cons_self b rest).cons_cons a))
  | case2 a b rest hsame ih =>
    obtain ⟨ha, hrest⟩ := List.pairwise_cons.mp h
    have hab : policy.Before a.name b.name := by
      refine (CasePolicy.before_or_before ?_).resolve_right fun hba =>
        ha b List.mem_cons_self (CasePolicy.compare_gt_iff.mpr hba)
      exact fun hkey => hsame (CasePolicy.same_iff.mpr hkey.symm)
    refine List.pairwise_cons.mpr ⟨fun x hx => ?_, ih hrest⟩
    rcases List.mem_cons.mp ((dropRepeats_sublist _).mem hx) with rfl | hx
    · exact hab
    · exact hab.trans_not_gt ((List.pairwise_cons.mp hrest).1 x hx)
  | case3 entries hshort =>
    match entries, hshort with
    | [], _ => exact .nil
    | [a], _ => exact List.pairwise_singleton _ _
    | a :: b :: rest, hshort => exact absurd rfl (hshort a b rest)

/-- Of the entries with the same name, one is left. -/
theorem exists_mem_dropRepeats {entries : List Listed} {e : Listed} (he : e ∈ entries) :
    ∃ e' ∈ dropRepeats policy entries, policy.key e'.name = policy.key e.name := by
  fun_induction dropRepeats policy entries generalizing e with
  | case1 a b rest hsame ih =>
    rcases List.mem_cons.mp he with rfl | he
    · exact ih List.mem_cons_self
    · rcases List.mem_cons.mp he with rfl | he
      · obtain ⟨e', he', hkey⟩ := ih List.mem_cons_self
        exact ⟨e', he', hkey.trans (CasePolicy.same_iff.mp hsame).symm⟩
      · exact ih (List.mem_cons_of_mem a he)
  | case2 a b rest hsame ih =>
    rcases List.mem_cons.mp he with rfl | he
    · exact ⟨e, List.mem_cons_self, rfl⟩
    · obtain ⟨e', he', hkey⟩ := ih he
      exact ⟨e', List.mem_cons_of_mem a he', hkey⟩
  | case3 entries => exact ⟨e, he, rfl⟩

/-- Of the entries with a name, the first one is left when repetitions are dropped. -/
theorem find?_dropRepeats (entries : List Listed) (wanted : String) :
    (dropRepeats policy entries).find? (fun e => policy.key e.name = policy.key wanted) =
      entries.find? fun e => policy.key e.name = policy.key wanted := by
  fun_induction dropRepeats policy entries with
  | case1 a b rest hsame ih =>
    have hkey := CasePolicy.same_iff.mp hsame
    rw [ih, List.find?_cons, List.find?_cons, List.find?_cons, hkey]
    cases decide (policy.key a.name = policy.key wanted) <;> rfl
  | case2 a b rest hsame ih => rw [List.find?_cons, ih, List.find?_cons (a := a)]
  | case3 entries => rfl

/-! ### The order in which a listing is sorted -/

/-- If one entry does not come behind another, and that one not behind a third, then the first does
not come behind the third. -/
theorem listed_trans (a b c : Listed) (hab : (policy.compare a.name b.name != .gt) = true)
    (hbc : (policy.compare b.name c.name != .gt) = true) :
    (policy.compare a.name c.name != .gt) = true := by
  simp only [bne_iff_ne] at *
  exact CasePolicy.compare_ne_gt_trans hab hbc

/-- Of two entries, one does not come behind the other. -/
theorem listed_total (a b : Listed) : ((policy.compare a.name b.name != .gt) ||
    (policy.compare b.name a.name != .gt)) = true := by
  rw [CasePolicy.compare_swap policy a.name b.name]
  cases policy.compare a.name b.name <;> rfl

/-- The sorted listing is in strictly ascending order, whatever was listed. -/
theorem ascending_sortedListing (policy : CasePolicy) (listing : List Listed) :
    Ascending policy (sortedListing policy listing) :=
  ascending_dropRepeats ((List.pairwise_mergeSort listed_trans listed_total listing).imp
    fun h => bne_iff_ne.mp h)

/-- Sorting keeps the order of entries that have one name. -/
theorem filter_mergeSort {named : Listed → Bool} (listing : List Listed)
    (hnamed : ∀ a b, named a = true → named b = true → policy.key a.name = policy.key b.name) :
    (listing.mergeSort fun a b => policy.compare a.name b.name != .gt).filter named =
      listing.filter named := by
  have hsorted : (listing.filter named).Pairwise
      fun a b => (policy.compare a.name b.name != .gt) = true := by
    refine List.pairwise_filter.mpr (List.pairwise_of_forall fun a b ha hb => ?_)
    rw [CasePolicy.compare_eq_iff.mpr (hnamed a b ha hb)]
    rfl
  have hsublist := (List.sublist_mergeSort listed_trans listed_total hsorted
    List.filter_sublist).filter named
  rw [List.filter_filter] at hsublist
  simp only [Bool.and_self] at hsublist
  exact (hsublist.eq_of_length
    ((List.mergeSort_perm listing _).filter named).length_eq.symm).symm

/-- The sorted listing has the first entry of each name. -/
theorem find?_sortedListing (listing : List Listed) (wanted : String) :
    (sortedListing policy listing).find? (fun e => policy.key e.name = policy.key wanted) =
      listing.find? fun e => policy.key e.name = policy.key wanted := by
  have hnamed : ∀ a b : Listed, decide (policy.key a.name = policy.key wanted) = true →
      decide (policy.key b.name = policy.key wanted) = true →
      policy.key a.name = policy.key b.name :=
    fun a b ha hb => (of_decide_eq_true ha).trans (of_decide_eq_true hb).symm
  rw [sortedListing, find?_dropRepeats, ← List.head?_filter, filter_mergeSort listing hnamed,
    List.head?_filter]

/-- The sorted listing holds the entries that are the first of their names, and no others. -/
theorem mem_sortedListing_iff {listing : List Listed} {e : Listed} :
    e ∈ sortedListing policy listing ↔
      listing.find? (fun e' => policy.key e'.name = policy.key e.name) = some e := by
  rw [← find?_sortedListing]
  exact ((ascending_sortedListing policy listing).find?_key_eq_some_iff.trans
    (and_iff_left rfl)).symm

/-- The sorted listing holds nothing that was not listed. -/
theorem mem_of_mem_sortedListing {listing : List Listed} {e : Listed}
    (h : e ∈ sortedListing policy listing) : e ∈ listing :=
  List.mem_mergeSort.mp ((dropRepeats_sublist _).mem h)

/-- The sorted listing holds an entry for each name that was listed. -/
theorem exists_mem_sortedListing {listing : List Listed} {e : Listed} (h : e ∈ listing) :
    ∃ e' ∈ sortedListing policy listing, policy.key e'.name = policy.key e.name :=
  exists_mem_dropRepeats (List.mem_mergeSort.mpr h)

end Tree

end LazyTree
