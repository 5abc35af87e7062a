import LazyTree.Proofs.Ledger
import LazyTree.Proofs.OrderlyTable

set_option autoImplicit false

/-!
# Ledgers that agree with a table

A ledger agrees with the entries of a directory if each child that it takes for present is a file
there, with that identity and those attributes, and each name that it takes for free is free there.
Recording what the entries tell keeps that, and so does reporting each change of the entries.

## Main definitions

* `LazyTree.Ledger.Mirrors` — a ledger agrees with the entries of a directory.

## Main results

* `LazyTree.Ledger.Mirrors.answer` — what the ledger says is so.
* `LazyTree.Ledger.Mirrors.insertIfUnknown`, `LazyTree.Ledger.Mirrors.insertAbsent`,
  `LazyTree.Ledger.Mirrors.insert`, `LazyTree.Ledger.Mirrors.install` — recording what is so.
* `LazyTree.Ledger.Mirrors.append`, `LazyTree.Ledger.Mirrors.filter_remove`,
  `LazyTree.Ledger.Mirrors.filter` — reporting what has changed.
-/

namespace LazyTree.Ledger

open Table

/-- A ledger agrees with the entries of a directory. -/
structure Mirrors (l : Ledger) (es : List TableEntry) : Prop where
  /-- Each child is a file. -/
  present : ∀ name n, l.fact? name = some (.present n) →
    contentAt l.policy es name = some (n.id, n.attributes)
  /-- Each name that is recorded as free is free. -/
  absent : ∀ name, l.fact? name = some .absent → contentAt l.policy es name = none
  /-- If the children are all there are, every other name is free. -/
  complete : l.complete = true → ∀ name, l.fact? name = none → contentAt l.policy es name = none

/-- What a ledger may have of a name, given the file that has it. -/
def Agrees (fact : Option Fact) (complete : Bool) (content : Option (FileId × Attributes)) : Prop :=
  match fact with
  | some (.present n) => content = some (n.id, n.attributes)
  | some .absent => content = none
  | none => complete = true → content = none

variable {l : Ledger} {es : List TableEntry}

/-- A ledger agrees with entries exactly if it does so for each name. -/
theorem mirrors_iff :
    l.Mirrors es ↔ ∀ name, Agrees (l.fact? name) l.complete (contentAt l.policy es name) := by
  constructor
  · intro h name
    unfold Agrees
    split
    · next n hfact => exact h.present name n hfact
    · next hfact => exact h.absent name hfact
    · next hfact => exact fun hcomplete => h.complete hcomplete name hfact
  · intro h
    refine ⟨fun name n hfact => ?_, fun name hfact => ?_, fun hcomplete name hfact => ?_⟩
    · simpa [Agrees, hfact] using h name
    · simpa [Agrees, hfact] using h name
    · simpa [Agrees, hfact, hcomplete] using h name

/-- Names that are the same lead to the same file. -/
theorem contentAt_congr {policy : CasePolicy} {a b : String} (h : policy.key a = policy.key b) :
    contentAt policy es a = contentAt policy es b := by
  rw [contentAt, contentAt, entryAt_congr h]

/-- What a ledger that agrees says about a name is so. -/
theorem Mirrors.answer (h : l.Mirrors es) (name : String) :
    match l.answer name with
    | .present n => contentAt l.policy es name = some (n.id, n.attributes)
    | .absent => contentAt l.policy es name = none
    | .unknown => l.fact? name = none ∧ l.complete = false := by
  rw [Ledger.answer]
  cases hfact : l.fact? name with
  | some fact =>
    cases fact with
    | present n => exact h.present name n hfact
    | absent => exact h.absent name hfact
  | none =>
    cases hcomplete : l.complete with
    | true => exact h.complete hcomplete name hfact
    | false => exact ⟨rfl, rfl⟩

/-- A ledger that knows nothing agrees with all entries. -/
theorem mirrors_of_nothing (h : ∀ name, l.fact? name = none) (hcomplete : l.complete = false) :
    l.Mirrors es :=
  mirrors_iff.mpr fun name => by simp [Agrees, h name, hcomplete]

/-- Replacing what is known of a name, while the entries change at most at that name, keeps the
agreement if it holds for the name. -/
theorem Mirrors.record (h : l.Mirrors es) {es' : List TableEntry} {name : String}
    {fact : Option Fact}
    (hsame : ∀ other, l.policy.key other ≠ l.policy.key name →
      contentAt l.policy es' other = contentAt l.policy es other)
    (hfact : Agrees fact l.complete (contentAt l.policy es' name)) :
    (l.record name fact).Mirrors es' := by
  refine mirrors_iff.mpr fun other => ?_
  rw [fact?_record]
  show Agrees _ l.complete (contentAt l.policy es' other)
  split
  · next hkey =>
    rw [contentAt_congr hkey]
    exact hfact
  · next hkey =>
    rw [hsame other hkey]
    exact mirrors_iff.mp h other

/-- Entries that change at most at a name of which nothing wrong is known still agree. -/
theorem Mirrors.of_entries (h : l.Mirrors es) {es' : List TableEntry} (name : String)
    (hsame : ∀ other, l.policy.key other ≠ l.policy.key name →
      contentAt l.policy es' other = contentAt l.policy es other)
    (hfact : Agrees (l.fact? name) l.complete (contentAt l.policy es' name)) :
    l.Mirrors es' := by
  refine mirrors_iff.mpr fun other => ?_
  by_cases hkey : l.policy.key other = l.policy.key name
  · rw [l.fact?_congr hkey, contentAt_congr hkey]
    exact hfact
  · rw [hsame other hkey]
    exact mirrors_iff.mp h other

/-! ### Recording what is so -/

/-- Adding a child that is a file keeps the agreement, and so does keeping the child that is there.
-/
theorem Mirrors.insertIfUnknown (h : l.Mirrors es) {child : Node}
    (hchild : contentAt l.policy es child.name = some (child.id, child.attributes)) :
    (l.insertIfUnknown child).2.Mirrors es := by
  rw [Ledger.insertIfUnknown]
  split
  · exact h
  · exact h
  · exact h.record (fun _ _ => rfl) hchild

/-- Adding a child that is a file keeps the agreement. -/
theorem Mirrors.insert (h : l.Mirrors es) {child : Node}
    (hchild : contentAt l.policy es child.name = some (child.id, child.attributes)) :
    (l.insert child).2.Mirrors es := by
  rw [Ledger.insert]
  split
  · exact h
  · exact h.record (fun _ _ => rfl) hchild

/-- Recording that a name is free keeps the agreement if it is free. -/
theorem Mirrors.insertAbsent (h : l.Mirrors es) {name : String}
    (hname : contentAt l.policy es name = none) : (l.insertAbsent name).2.Mirrors es := by
  rw [Ledger.insertAbsent]
  split
  · exact h
  · split
    · exact h
    · exact h
    · dsimp only
      split
      · exact h
      · exact h.record (fun _ _ => rfl) hname

/-- Recording that a name is free answers that, if it is free. -/
theorem Mirrors.insertAbsent_answer (h : l.Mirrors es) {name : String}
    (hname : contentAt l.policy es name = none) : (l.insertAbsent name).1 = .absent := by
  rw [Ledger.insertAbsent]
  split
  · rfl
  · split
    · next kept hfact =>
      have hkept := h.present name kept hfact
      rw [hname] at hkept
      cases hkept
    · rfl
    · rfl

/-- A complete listing agrees if each of its nodes is a file and each file is one of its nodes. -/
theorem Mirrors.install (h : l.Mirrors es) {listing : List Node} (changes : Nat)
    (hsound : ∀ n ∈ listing, contentAt l.policy es n.name = some (n.id, n.attributes))
    (hcomplete : ∀ name, (contentAt l.policy es name).isSome = true →
      ∃ n ∈ listing, l.policy.key n.name = l.policy.key name) :
    (l.install listing changes).2.Mirrors es := by
  rw [Ledger.install]
  split
  · exact h
  · refine mirrors_iff.mpr fun name => ?_
    show Agrees ((listing.find? fun n => l.policy.key n.name = l.policy.key name).map Fact.present)
      true (contentAt l.policy es name)
    cases hfind : listing.find? fun n => l.policy.key n.name = l.policy.key name with
    | some n =>
      have hkey : l.policy.key n.name = l.policy.key name := by simpa using List.find?_some hfind
      rw [← contentAt_congr hkey]
      exact hsound n (List.mem_of_find?_eq_some hfind)
    | none =>
      intro _
      refine Option.eq_none_iff_forall_ne_some.mpr fun content hcontent => ?_
      obtain ⟨n, hn, hkey⟩ := hcomplete name (by rw [hcontent]; rfl)
      exact List.find?_eq_none.mp hfind n hn (decide_eq_true hkey)

/-! ### Reporting what has changed -/

/-- Reporting a new file keeps the agreement. -/
theorem Mirrors.append (h : l.Mirrors es) {child : Node} {e : TableEntry}
    (hfree : ∀ e' ∈ es, l.policy.key e'.name ≠ l.policy.key e.name) (hname : child.name = e.name)
    (hcontent : e.content? = some (child.id, child.attributes)) :
    (l.insert child).2.Mirrors (es ++ [e]) := by
  have hsame : ∀ other, l.policy.key other ≠ l.policy.key child.name →
      contentAt l.policy (es ++ [e]) other = contentAt l.policy es other := by
    intro other hother
    rw [contentAt, entryAt_append hfree, if_neg (hname ▸ hother), contentAt]
  have hnew : contentAt l.policy (es ++ [e]) child.name = some (child.id, child.attributes) := by
    rw [contentAt, entryAt_append hfree, if_pos (by rw [hname]), Option.bind_some, hcontent]
  have hold : contentAt l.policy es child.name = none := by
    refine Option.eq_none_iff_forall_ne_some.mpr fun content hc => ?_
    obtain ⟨e', he', -⟩ := Option.bind_eq_some_iff.mp hc
    obtain ⟨hmem, hkey⟩ := mem_of_entryAt he'
    exact hfree e' hmem (hname ▸ hkey)
  rw [Ledger.insert]
  split
  · next kept hfact =>
    have := h.present child.name kept hfact
    rw [hold] at this
    cases this
  · exact h.record hsame hnew

/-- What the entries tell when one is removed. -/
theorem contentAt_filter {policy : CasePolicy}
    (hdistinct : es.Pairwise fun e e' => policy.key e.name ≠ policy.key e'.name) {e : TableEntry}
    (he : e ∈ es) (name : String) : contentAt policy (es.filter (·.name ≠ e.name)) name =
      if policy.key name = policy.key e.name then none else contentAt policy es name := by
  rw [contentAt, entryAt_filter hdistinct he]
  split <;> rfl

/-- Reporting that a file with a child is gone keeps the agreement. -/
theorem Mirrors.filter_remove (h : l.Mirrors es)
    (hdistinct : es.Pairwise fun e e' => l.policy.key e.name ≠ l.policy.key e'.name)
    {e : TableEntry} (he : e ∈ es) {n : Node} (hfact : l.fact? e.name = some (.present n))
    (hkey : l.policy.key n.name = l.policy.key e.name) (remember : Bool) :
    (l.remove n remember).2.Mirrors (es.filter (·.name ≠ e.name)) := by
  rw [← l.fact?_congr hkey] at hfact
  rw [Ledger.remove, hfact]
  simp only [if_true]
  refine h.record (fun other hother => ?_) ?_
  · rw [contentAt_filter hdistinct he, if_neg (hkey ▸ hother)]
  · rw [contentAt_filter hdistinct he, if_pos hkey]
    cases remember <;> cases l.complete <;> simp [Agrees]

/-- That a file without a child is gone needs no report. -/
theorem Mirrors.filter (h : l.Mirrors es)
    (hdistinct : es.Pairwise fun e e' => l.policy.key e.name ≠ l.policy.key e'.name)
    {e : TableEntry} (he : e ∈ es) (hfact : ∀ n, l.fact? e.name ≠ some (.present n)) :
    l.Mirrors (es.filter (·.name ≠ e.name)) := by
  have hgone : contentAt l.policy (es.filter (·.name ≠ e.name)) e.name = none := by
    rw [contentAt_filter hdistinct he, if_pos rfl]
  refine h.of_entries e.name (fun other hother => ?_) ?_
  · rw [contentAt_filter hdistinct he, if_neg hother]
  · rw [hgone]
    cases hknown : l.fact? e.name with
    | none => exact fun _ => rfl
    | some fact =>
      cases fact with
      | present n => exact absurd hknown (hfact n)
      | absent => exact rfl

end LazyTree.Ledger
