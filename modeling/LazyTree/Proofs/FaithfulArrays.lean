import LazyTree.Proofs.CoherentChanges
import LazyTree.Proofs.Publishing

set_option autoImplicit false

/-!
# Arrays that lose nothing

While nothing is removed, an array that agrees with the entries of its directory becomes another one
without losing anything: children stay, the count of changes tells whether the array is the same,
and an array that is complete gets no other children. Adding a file, recording that a name is free
and installing a listing are all of this kind, the last one if each child that is known is listed.

## Main definitions

* `LazyTree.Children.Faithful` — an array agrees with the entries of its directory.
* `LazyTree.Children.Grown` — an array becomes another one without losing anything.

## Main results

* `LazyTree.Children.Faithful.grown_insertIfUnknown`,
  `LazyTree.Children.Faithful.grown_insertAbsent`, `LazyTree.Children.Faithful.grown_install` — the
  changes that lose nothing.
-/

namespace LazyTree

namespace Children

variable {c c' c'' : Children} {policy : CasePolicy} {es : List TableEntry}

/-- An array agrees with the entries of its directory. -/
structure Faithful (c : Children) (policy : CasePolicy) (es : List TableEntry) : Prop where
  /-- Names are the same for both. -/
  policy : c.policy = policy
  /-- The array is tidy. -/
  tidy : c.Tidy
  /-- What is known of the names is what the entries tell. -/
  mirrors : c.ledger.Mirrors es

/-- Names are the same for the ledger as well. -/
theorem Faithful.ledger_policy (h : c.Faithful policy es) : c.ledger.policy = policy :=
  h.policy

/-- A child in the array is a file. -/
theorem Faithful.content (h : c.Faithful policy es) {n : Node} (hn : n ∈ c.present) :
    Table.contentAt policy es n.name = some (n.id, n.attributes) := by
  rw [← h.ledger_policy]
  exact h.mirrors.present n.name n ((Tree.mem_present_iff h.tidy).mp hn)

/-- An array becomes another one without losing anything. -/
structure Grown (c c' : Children) : Prop where
  /-- Children that are known stay known. -/
  keeps : ∀ name n, c.ledger.fact? name = some (.present n) →
    c'.ledger.fact? name = some (.present n)
  /-- The count does not become smaller. -/
  generation : c.generation ≤ c'.generation
  /-- With the same count it is the same array. -/
  same : c'.generation = c.generation → c' = c
  /-- A complete array stays complete, and gets no other children. -/
  closed : c.allLoaded = true → c'.allLoaded = true ∧ ∀ n ∈ c'.present, n ∈ c.present

/-- An array that stays loses nothing. -/
theorem Grown.refl (c : Children) : c.Grown c :=
  ⟨fun _ _ h => h, Nat.le_refl _, fun _ => rfl, fun h => ⟨h, fun _ hn => hn⟩⟩

/-- An array loses nothing in two steps. -/
theorem Grown.trans (h : c.Grown c') (h' : c'.Grown c'') : c.Grown c'' where
  keeps name n hfact := h'.keeps name n (h.keeps name n hfact)
  generation := Nat.le_trans h.generation h'.generation
  same := by
    intro hsame
    have hback : c''.generation ≤ c'.generation := hsame ▸ h.generation
    have hfirst : c'.generation ≤ c.generation := hsame ▸ h'.generation
    rw [h'.same (Nat.le_antisymm hback h'.generation),
      h.same (Nat.le_antisymm hfirst h.generation)]
  closed hloaded := by
    obtain ⟨hloaded', hsubset⟩ := h.closed hloaded
    obtain ⟨hloaded'', hsubset'⟩ := h'.closed hloaded'
    exact ⟨hloaded'', fun n hn => hsubset n (hsubset' n hn)⟩

/-- An admissible change loses nothing if it keeps all children, and if it makes no other ones
known where the array is complete. -/
theorem Faithful.grown_apply (h : c.Faithful policy es) (op : Op) (hop : op.Admissible c.policy)
    (hkeeps : ∀ name n, c.ledger.fact? name = some (.present n) →
      (c.ledger.apply op).2.fact? name = some (.present n))
    (hclosed : c.allLoaded = true →
      (c.apply op).2.allLoaded = true ∧ ∀ n ∈ (c.apply op).2.present, n ∈ c.present) :
    c.Grown (c.apply op).2 where
  keeps name n hfact := by
    rw [(apply_follows h.tidy hop).ledger]
    exact hkeeps name n hfact
  generation := by
    rcases apply_eq_or h.tidy hop with hsame | hnext
    · exact Nat.le_of_eq (congrArg Children.generation hsame).symm
    · exact hnext ▸ Nat.le_succ _
  same hsame := by
    refine (apply_eq_or h.tidy hop).resolve_right fun hnext => ?_
    exact Nat.succ_ne_self _ (hnext.symm.trans hsame)
  closed := hclosed

/-- A change that is not published in a complete array makes no other children known there. -/
theorem Faithful.closed_of_not_publishes (h : c.Faithful policy es) (op : Op)
    (hop : op.Admissible c.policy) (hnot : ¬ c.ledger.Publishes op) (hloaded : c.allLoaded = true) :
    (c.apply op).2.allLoaded = true ∧ ∀ n ∈ (c.apply op).2.present, n ∈ c.present := by
  rw [apply_eq_self h.tidy hop hnot]
  exact ⟨hloaded, fun _ hn => hn⟩

/-- Adding a file loses nothing. If the array is complete, then it has a child for the file. -/
theorem Faithful.grown_insertIfUnknown (h : c.Faithful policy es) {child : Node}
    (hchild : Table.contentAt policy es child.name = some (child.id, child.attributes)) :
    c.Grown (c.apply (.insertIfUnknown child)).2 := by
  refine h.grown_apply (.insertIfUnknown child) trivial
    (fun name n => Ledger.insertIfUnknown_keeps) fun hloaded => ?_
  refine h.closed_of_not_publishes (.insertIfUnknown child) trivial (fun hfact => ?_) hloaded
  have hnone := h.mirrors.complete hloaded child.name hfact
  rw [h.ledger_policy, hchild] at hnone
  cases hnone

/-- Recording that a name is free loses nothing. -/
theorem Faithful.grown_insertAbsent (h : c.Faithful policy es) (name : String) :
    c.Grown (c.apply (.insertAbsent name)).2 := by
  refine h.grown_apply (.insertAbsent name) trivial
    (fun name n => Ledger.present_insertAbsent.mpr) fun hloaded => ?_
  refine h.closed_of_not_publishes (.insertAbsent name) trivial (fun hpublishes => ?_) hloaded
  have hcomplete : c.allLoaded = false := hpublishes.2.2
  rw [hloaded] at hcomplete
  cases hcomplete

/-- Installing files in the order of their names loses nothing, if all children that are known are
among them unless the count is another one. -/
theorem Faithful.grown_install (h : c.Faithful policy es) {listing : List Node} {generation : Nat}
    (hlisting : Ascending policy listing)
    (hsound : ∀ n ∈ listing, Table.contentAt policy es n.name = some (n.id, n.attributes))
    (hall : c.generation = generation → ∀ n ∈ c.present, n ∈ listing) :
    c.Grown (c.apply (.install listing generation)).2 := by
  by_cases hgeneration : c.generation = generation
  · subst hgeneration
    have hop : Op.Admissible c.policy (.install listing c.generation) := h.policy.symm ▸ hlisting
    have htidy := (apply_follows h.tidy hop).tidy
    have hpolicy := apply_policy h.tidy hop
    have hpresent := present_install h.tidy hop
    generalize hafter : (c.apply (.install listing c.generation)).2 = after at *
    rw [apply, install_of_ascending h.tidy hop] at hafter
    have hknown : ∀ n ∈ c.present, after.ledger.fact? n.name = some (.present n) := fun n hn =>
      (Tree.mem_present_iff htidy).mp (hpresent ▸ hall rfl n hn)
    refine ⟨fun name n hfact => ?_, ?_, fun hsame => ?_, fun hloaded => ⟨by rw [← hafter], ?_⟩⟩
    · obtain ⟨hmem, hkey⟩ := Tree.mem_present_of_fact? h.tidy hfact
      have hkey' : after.ledger.policy.key n.name = after.ledger.policy.key name := by
        rwa [← hpolicy] at hkey
      rw [← after.ledger.fact?_congr hkey']
      exact hknown n hmem
    · rw [← hafter]
      exact Nat.le_succ _
    · rw [← hafter] at hsame
      exact absurd hsame (Nat.succ_ne_self _)
    · -- a child that is installed is a file, so the complete array has a child of its name
      intro n hn
      have hcontent := hsound n (hpresent ▸ hn)
      rw [← h.policy] at hcontent
      have hfact := (Tree.mem_present_iff htidy).mp hn
      cases hold : c.ledger.fact? n.name with
      | none => exact absurd (h.mirrors.complete hloaded n.name hold) (by simp_all [ledger])
      | some fact =>
        cases fact with
        | absent => exact absurd (h.mirrors.absent n.name hold) (by simp_all [ledger])
        | present m =>
          obtain ⟨hmem, hkey⟩ := Tree.mem_present_of_fact? h.tidy hold
          have hkey' : after.ledger.policy.key m.name = after.ledger.policy.key n.name := by
            rwa [← hpolicy] at hkey
          have hsame := hknown m hmem
          rw [after.ledger.fact?_congr hkey', hfact] at hsame
          cases hsame
          exact hmem
  · have hsame : (c.apply (.install listing generation)).2 = c :=
      congrArg Prod.snd (if_pos hgeneration)
    rw [hsame]
    exact .refl c

end Children

end LazyTree
