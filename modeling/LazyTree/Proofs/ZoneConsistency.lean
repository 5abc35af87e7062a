import LazyTree.Proofs.ZoneSearch
import LazyTree.Zone.Consistency
import Mathlib.Data.List.Chain
import Mathlib.Data.Option.Basic

set_option autoImplicit false

/-!
# Tidy arrays

The rules that an array has to satisfy before it may stand for a directory, said of any two of its
slots. A tidy array is put together from two ascending lists without a common name, and the
checker passes it. It passes no other array: neighbours that are in order put a whole zone in order,
and once the children are in order, the search among them misses no common name.

## Main definitions

* `LazyTree.Zones.Layered` — an array of two ascending zones.
* `LazyTree.Zones.Tidy` — an array that satisfies all rules.
* `LazyTree.Zones.Orderly` — two lists of which a tidy array consists.

## Main results

* `LazyTree.Zones.tidy_iff` — the two descriptions agree.
* `LazyTree.Zones.inconsistency?_eq_none_iff` — the checker passes tidy arrays, and no others.
-/

namespace LazyTree.Zones

variable {ν : Type} [Named ν] {policy : CasePolicy} {allLoaded : Bool} {slots : Zones ν}

/-- An array of two layers: children in front of absent names, and either zone in strictly
ascending order. A name may be in both zones. -/
structure Layered (policy : CasePolicy) (slots : Zones ν) : Prop where
  /-- Behind an absent name there are only absent names. -/
  present_first : ∀ (i j : Nat) (a b : Slot ν), i < j → slots[i]? = some a → slots[j]? = some b →
    a.isAbsent = true → b.isAbsent = true
  /-- Each zone is in strictly ascending order. -/
  ascending : ∀ (i j : Nat) (a b : Slot ν), i < j → slots[i]? = some a → slots[j]? = some b →
    a.isAbsent = b.isAbsent → policy.Before (name a) (name b)

/-- An array that satisfies all rules: children in front of absent names, either zone in strictly
ascending order, no name in both zones, and no absent names beside a complete listing. -/
structure Tidy (policy : CasePolicy) (allLoaded : Bool) (slots : Zones ν) : Prop where
  /-- Behind an absent name there are only absent names. -/
  present_first : ∀ (i j : Nat) (a b : Slot ν), i < j → slots[i]? = some a → slots[j]? = some b →
    a.isAbsent = true → b.isAbsent = true
  /-- Each zone is in strictly ascending order. -/
  ascending : ∀ (i j : Nat) (a b : Slot ν), i < j → slots[i]? = some a → slots[j]? = some b →
    a.isAbsent = b.isAbsent → policy.Before (name a) (name b)
  /-- No name is in both zones. -/
  disjoint : ∀ a ∈ slots, ∀ b ∈ slots, a.isAbsent = false → b.isAbsent = true →
    policy.key (name a) ≠ policy.key (name b)
  /-- A complete listing has no absent names. -/
  none_absent : allLoaded = true → ∀ a ∈ slots, a.isAbsent = false

/-- Children and absent names of which a tidy array may consist. -/
structure Orderly (policy : CasePolicy) (ps : List ν) (as : List String) : Prop where
  /-- The children are in ascending order. -/
  present_ascending : Ascending policy ps
  /-- The absent names are in ascending order. -/
  absent_ascending : Ascending policy as
  /-- No child has an absent name. -/
  disjoint : ∀ p ∈ ps, ∀ a ∈ as, policy.key (name p) ≠ policy.key (name a)

/-! ### Two descriptions of tidy arrays -/

/-- A layered array is put together from ascending lists. -/
theorem Layered.exists_parts (h : Layered policy slots) :
    ∃ ps as, slots = ofParts ps as ∧ Ascending policy ps ∧ Ascending policy as := by
  have hpair : ∀ {R : Slot ν → Slot ν → Prop},
      (∀ (i j : Nat) (a b : Slot ν), i < j → slots[i]? = some a → slots[j]? = some b → R a b) →
      slots.toList.Pairwise R := by
    intro R hR
    refine List.pairwise_iff_getElem.mpr fun i j hi hj hij => hR i j _ _ hij ?_ ?_
    · rw [← Array.getElem?_toList, List.getElem?_eq_getElem hi]
    · rw [← Array.getElem?_toList, List.getElem?_eq_getElem hj]
  have heq := eq_parts_of_pairwise (hpair h.present_first)
  refine ⟨_, _, Array.toList_inj.mp heq, ?_, ?_⟩
  · refine List.pairwise_filterMap.mpr ((hpair h.ascending).imp ?_)
    intro a b hab p hp q hq
    cases a with
    | absent s => cases hp
    | present p' =>
      cases b with
      | absent s => cases hq
      | present q' =>
        cases hp
        cases hq
        exact hab rfl
  · refine List.pairwise_filterMap.mpr ((hpair h.ascending).imp ?_)
    intro a b hab p hp q hq
    cases a with
    | present p' => cases hp
    | absent p' =>
      cases b with
      | present q' => cases hq
      | absent q' =>
        cases hp
        cases hq
        exact hab rfl

/-- A tidy array is layered. -/
theorem Tidy.layered (h : Tidy policy allLoaded slots) : Layered policy slots :=
  ⟨h.present_first, h.ascending⟩

/-- A tidy array is put together from orderly lists. -/
theorem Tidy.exists_parts (h : Tidy policy allLoaded slots) :
    ∃ ps as, slots = ofParts ps as ∧ Orderly policy ps as ∧ (allLoaded = true → as = []) := by
  obtain ⟨ps, as, rfl, hps, has⟩ := h.layered.exists_parts
  refine ⟨ps, as, rfl, ⟨hps, has, fun p hp s hs => ?_⟩, fun hl => ?_⟩
  · exact h.disjoint _ (present_mem_ofParts.mpr hp) _ (absent_mem_ofParts.mpr hs) rfl rfl
  · refine List.eq_nil_iff_forall_not_mem.mpr fun s hs => ?_
    cases h.none_absent hl _ (absent_mem_ofParts.mpr hs)

/-- An array put together from ascending lists is layered. -/
theorem layered_ofParts {ps : List ν} {as : List String} (hps : Ascending policy ps)
    (has : Ascending policy as) : Layered policy (ofParts ps as) where
  present_first := by
    intro i j a b hij ha hb habs
    have hj : ps.length ≤ j := by
      refine Nat.le_of_not_lt fun hj => ?_
      rw [getElem?_ofParts_left (by omega), Option.map_eq_some_iff] at ha
      obtain ⟨p, -, rfl⟩ := ha
      cases habs
    rw [getElem?_ofParts_right hj, Option.map_eq_some_iff] at hb
    obtain ⟨s, -, rfl⟩ := hb
    rfl
  ascending := by
    intro i j a b hij ha hb habs
    rcases Nat.lt_or_ge j ps.length with hj | hj
    · rw [getElem?_ofParts_left (by omega), Option.map_eq_some_iff] at ha
      rw [getElem?_ofParts_left hj, Option.map_eq_some_iff] at hb
      obtain ⟨p, hp, rfl⟩ := ha
      obtain ⟨q, hq, rfl⟩ := hb
      exact hps.before_of_getElem? hij hp hq
    · rw [getElem?_ofParts_right hj, Option.map_eq_some_iff] at hb
      obtain ⟨q, hq, rfl⟩ := hb
      rcases Nat.lt_or_ge i ps.length with hi | hi
      · rw [getElem?_ofParts_left hi, Option.map_eq_some_iff] at ha
        obtain ⟨p, -, rfl⟩ := ha
        cases habs
      · rw [getElem?_ofParts_right hi, Option.map_eq_some_iff] at ha
        obtain ⟨p, hp, rfl⟩ := ha
        exact has.before_of_getElem? (by omega) hp hq

/-- An array put together from orderly lists is tidy. -/
theorem Orderly.tidy {ps : List ν} {as : List String} (h : Orderly policy ps as)
    (hl : allLoaded = true → as = []) : Tidy policy allLoaded (ofParts ps as) where
  present_first := (layered_ofParts h.present_ascending h.absent_ascending).present_first
  ascending := (layered_ofParts h.present_ascending h.absent_ascending).ascending
  disjoint := by
    intro a ha b hb haa hba
    cases a with
    | absent a => cases haa
    | present a =>
      cases b with
      | present b => cases hba
      | absent b => exact h.disjoint a (present_mem_ofParts.mp ha) b (absent_mem_ofParts.mp hb)
  none_absent := by
    intro hloaded a ha
    cases a with
    | present a => rfl
    | absent a =>
      rw [absent_mem_ofParts, hl hloaded] at ha
      cases ha

/-- In a tidy array a name has one slot. -/
theorem Tidy.slot_unique (h : Tidy policy allLoaded slots) {a b : Slot ν} (ha : a ∈ slots)
    (hb : b ∈ slots) (hkey : policy.key (name a) = policy.key (name b)) : a = b := by
  by_cases hzone : a.isAbsent = b.isAbsent
  · obtain ⟨i, hi⟩ := Array.getElem?_of_mem ha
    obtain ⟨j, hj⟩ := Array.getElem?_of_mem hb
    rcases Nat.lt_trichotomy i j with hij | rfl | hij
    · exact absurd hkey (h.ascending i j a b hij hi hj hzone).key_ne
    · exact Option.some.inj (hi.symm.trans hj)
    · exact absurd hkey.symm (h.ascending j i b a hij hj hi hzone.symm).key_ne
  · cases haa : a.isAbsent with
    | false => exact absurd hkey (h.disjoint a ha b hb haa (by simpa [haa] using hzone))
    | true => exact absurd hkey.symm (h.disjoint b hb a ha (by simpa [haa] using hzone) haa)

/-- A tidy array never has two slots for a name. -/
theorem Tidy.pairwise_key_ne (h : Tidy policy allLoaded slots) :
    slots.toList.Pairwise fun a b => policy.key (name a) ≠ policy.key (name b) := by
  obtain ⟨ps, as, rfl, horderly, -⟩ := h.exists_parts
  rw [toList_ofParts, List.pairwise_append, List.pairwise_map, List.pairwise_map]
  refine ⟨horderly.present_ascending.imp fun hab => hab.key_ne,
    horderly.absent_ascending.imp fun hab => hab.key_ne, fun a ha b hb => ?_⟩
  obtain ⟨p, hp, rfl⟩ := List.mem_map.mp ha
  obtain ⟨absent, habsent, rfl⟩ := List.mem_map.mp hb
  exact horderly.disjoint p hp absent habsent

/-- An array is tidy exactly when it is put together from orderly lists. -/
theorem tidy_iff : Tidy policy allLoaded slots ↔
    ∃ ps as, slots = ofParts ps as ∧ Orderly policy ps as ∧ (allLoaded = true → as = []) := by
  refine ⟨Tidy.exists_parts, ?_⟩
  rintro ⟨ps, as, rfl, h, hl⟩
  exact h.tidy hl

/-! ### The checker -/

/-- In an array put together from two lists no child stands behind an absent name. -/
theorem strayChild?_parts (ps : List ν) (as : List String) (index : Nat) :
    strayChild? index false (ps.map Slot.present ++ as.map Slot.absent) = none := by
  have habsent : ∀ (as : List String) (index : Nat) (behind : Bool),
      strayChild? index behind (as.map (Slot.absent : String → Slot ν)) = none := by
    intro as
    induction as with
    | nil => intro index behind; rfl
    | cons a as ih => intro index behind; simpa [strayChild?] using ih (index + 1) true
  induction ps generalizing index with
  | nil => exact habsent as index false
  | cons p ps ih => simpa [strayChild?] using ih (index + 1)

/-- In a list of slots of which any two of one zone are in order there is no disorder. -/
theorem disorder?_eq_none {l : List (Slot ν)} (index : Nat)
    (h : l.Pairwise fun a b => a.isAbsent = b.isAbsent → policy.Before (name a) (name b)) :
    disorder? policy index l = none := by
  induction l generalizing index with
  | nil => rfl
  | cons a l ih =>
    obtain ⟨ha, hl⟩ := List.pairwise_cons.mp h
    cases l with
    | nil => rfl
    | cons b rest =>
      have ih := ih (index + 1) hl
      rw [disorder?]
      split
      · next hzone =>
        have hgt := CasePolicy.compare_gt_iff.mpr (ha b (List.mem_cons_self) hzone)
        rw [hgt]
        exact ih
      · exact ih

/-- Among ascending children the search for a name ends at their cut. -/
theorem bisect_ofParts {wanted : String} (c : Cut policy wanted ν) (as : List String) :
    bisect (fun i => ((ofParts c.whole as)[i]?.map fun s => policy.compare (name s) wanted).getD .gt)
      0 c.whole.length = c.place 0 := by
  have hlen := c.front_length_le
  have hlt : ∀ i, i < c.front.length →
      ((ofParts c.whole as)[i]?.map fun s => policy.compare (name s) wanted).getD .gt = .lt := by
    intro i hi
    have hx := List.getElem?_eq_getElem (show i < c.whole.length by omega)
    rw [getElem?_ofParts_left (by omega), hx]
    exact c.compare_front hi hx
  have hgt : ∀ i, c.front.length ≤ i → (c.hit.isSome = true → i ≠ c.front.length) →
      i < c.whole.length →
      ((ofParts c.whole as)[i]?.map fun s => policy.compare (name s) wanted).getD .gt = .gt := by
    intro i hi hne hin
    have hx := List.getElem?_eq_getElem hin
    rw [getElem?_ofParts_left hin, hx]
    exact c.compare_back hi hne hx
  cases hhit : c.hit with
  | none =>
    rw [c.place_of_eq_none hhit (Nat.zero_add _).symm]
    exact bisect_gap (Nat.zero_le _) (by omega) (fun i _ => hlt i)
      fun i hi => hgt i hi (by simp [hhit])
  | some x =>
    have hsome : c.hit.isSome = true := by rw [hhit]; rfl
    have hinside := c.front_length_lt hsome
    rw [c.place_of_isSome hsome (Nat.zero_add _).symm]
    refine bisect_found (Nat.zero_le _) hinside (fun i _ => hlt i) ?_
      fun i hi => hgt i (by omega) (fun _ => by omega)
    rw [getElem?_ofParts_left hinside, c.getElem?_hit hhit]
    exact CasePolicy.compare_eq_iff.mpr (c.hit_key x hhit)

/-- Among ascending children the search finds the names that one of them has. -/
theorem isSome_bisect_ofParts_iff {ps : List ν} {as : List String} (h : Ascending policy ps)
    (wanted : String) :
    (bisect (fun i => ((ofParts ps as)[i]?.map fun s => policy.compare (name s) wanted).getD .gt)
      0 ps.length).index?.isSome = true ↔
      ∃ p ∈ ps, policy.key (name p) = policy.key wanted := by
  obtain ⟨c, rfl⟩ := h.exists_cut wanted
  rw [bisect_ofParts, c.place_index?_isSome, Option.isSome_iff_exists]
  exact exists_congr fun p => c.mem_and_key_iff.symm

/-- Among ascending children, nothing is shadowed exactly if the two lists have no common name. -/
theorem shadow?_eq_none_iff {ps : List ν} {as : List String} (h : Ascending policy ps) :
    shadow? policy (ofParts ps as) ps.length = none ↔
      ∀ p ∈ ps, ∀ a ∈ as, policy.key (name p) ≠ policy.key (name a) := by
  rw [shadow?, toList_ofParts, List.drop_left' (by simp), Option.map_eq_none_iff,
    List.find?_eq_none]
  simp only [List.forall_mem_map, Slot.name_absent, isSome_bisect_ofParts_iff h, name_string]
  exact ⟨fun hnone p hp a ha hkey => hnone a ha ⟨p, hp, hkey⟩,
    fun hdisjoint a ha ⟨p, hp, hkey⟩ => hdisjoint p hp a ha hkey⟩

/-- In a layered array there is no disorder. -/
theorem Layered.disorder?_eq_none (h : Layered policy slots) :
    disorder? policy 1 slots.toList = none := by
  refine Zones.disorder?_eq_none 1 (List.pairwise_iff_getElem.mpr fun i j hi hj hij => ?_)
  refine h.ascending i j _ _ hij ?_ ?_
  · rw [← Array.getElem?_toList, List.getElem?_eq_getElem hi]
  · rw [← Array.getElem?_toList, List.getElem?_eq_getElem hj]

/-- The checker passes tidy arrays. -/
theorem Tidy.inconsistency?_eq_none (h : Tidy policy allLoaded slots) :
    inconsistency? policy allLoaded slots = none := by
  have horder := h.layered.disorder?_eq_none
  obtain ⟨ps, as, rfl, hparts, hl⟩ := h.exists_parts
  have hloaded : (allLoaded && decide (ps.length < (ofParts ps as).size)) = false := by
    cases allLoaded with
    | false => rfl
    | true => simp [hl rfl]
  rw [inconsistency?, horder, toList_ofParts, strayChild?_parts, findIdx_isAbsent_parts, hloaded,
    (shadow?_eq_none_iff hparts.present_ascending).mpr hparts.disjoint]
  rfl

/-- All that the checker has against a complete listing put together from orderly lists are the
absent names. -/
theorem Orderly.inconsistency?_of_absent {ps : List ν} {as : List String}
    (h : Orderly policy ps as) (has : as ≠ []) :
    inconsistency? policy true (ofParts ps as) = some (.absentWhileLoaded as.length) := by
  have horder := (layered_ofParts h.present_ascending h.absent_ascending).disorder?_eq_none
  have hlength : 0 < as.length := List.length_pos_iff.mpr has
  rw [inconsistency?, horder, toList_ofParts, strayChild?_parts, findIdx_isAbsent_parts,
    size_ofParts]
  simp [hlength]

/-- If no child stands behind an absent name, then a list of slots consists of children and then
absent names; and of absent names only, if one was seen before it. -/
theorem exists_parts_of_strayChild? {l : List (Slot ν)} {index : Nat} {behind : Bool}
    (h : strayChild? index behind l = none) :
    ∃ (ps : List ν) (as : List String), l = ps.map Slot.present ++ as.map Slot.absent ∧
      (behind = true → ps = []) := by
  induction l generalizing index behind with
  | nil => exact ⟨[], [], rfl, fun _ => rfl⟩
  | cons slot rest ih =>
    rw [strayChild?] at h
    split at h
    · cases h
    · next hslot =>
      obtain ⟨ps, as, rfl, hps⟩ := ih h
      cases slot with
      | present p =>
        refine ⟨p :: ps, as, rfl, fun hbehind => ?_⟩
        rw [hbehind] at hslot
        exact absurd rfl hslot
      | absent s =>
        obtain rfl := hps (by simp)
        exact ⟨[], s :: as, rfl, fun _ => rfl⟩

/-- If there is no disorder, then neighbours of one zone are in order. -/
theorem isChain_of_disorder? {l : List (Slot ν)} {index : Nat}
    (h : disorder? policy index l = none) :
    l.IsChain fun a b => a.isAbsent = b.isAbsent → policy.Before (name a) (name b) := by
  fun_induction disorder? policy index l with
  | case1 index a b rest hzone hgt ih =>
    exact .cons_cons (fun _ => CasePolicy.compare_gt_iff.mp hgt) (ih h)
  | case2 => cases h
  | case3 => cases h
  | case4 index a b rest hzone ih => exact .cons_cons (fun h => absurd h hzone) (ih h)
  | case5 l index hshort =>
    match l with
    | [] => exact .nil
    | [a] => exact .singleton a
    | a :: b :: rest => exact (hshort a b rest rfl).elim

/-- If neighbours are in order, then the whole list is. -/
theorem ascending_of_isChain {α : Type} [Named α] {xs : List α}
    (h : List.IsChain (fun a b => policy.Before (name a) (name b)) xs) : Ascending policy xs := by
  have htrans : IsTrans α fun a b => policy.Before (name a) (name b) :=
    ⟨fun _ _ _ hab hbc => hab.trans hbc⟩
  exact List.isChain_iff_pairwise.mp h

/-- If the first two parts of the checker find nothing, then the array is put together from
ascending lists. -/
theorem exists_ascending_parts (hstray : strayChild? 0 false slots.toList = none)
    (hdisorder : disorder? policy 1 slots.toList = none) :
    ∃ ps as, slots = ofParts ps as ∧ Ascending policy ps ∧ Ascending policy as := by
  obtain ⟨ps, as, hparts, -⟩ := exists_parts_of_strayChild? hstray
  obtain rfl : slots = ofParts ps as := Array.toList_inj.mp hparts
  rw [toList_ofParts] at hdisorder
  obtain ⟨hchildren, habsent, -⟩ := List.isChain_append.mp (isChain_of_disorder? hdisorder)
  rw [List.isChain_map] at hchildren habsent
  exact ⟨ps, as, rfl, ascending_of_isChain (hchildren.imp fun _ _ h => h rfl),
    ascending_of_isChain (habsent.imp fun _ _ h => h rfl)⟩

/-- The checker passes tidy arrays, and no others. -/
theorem inconsistency?_eq_none_iff :
    inconsistency? policy allLoaded slots = none ↔ Tidy policy allLoaded slots := by
  refine ⟨fun h => ?_, Tidy.inconsistency?_eq_none⟩
  simp only [inconsistency?, Option.orElse_eq_none] at h
  obtain ⟨hstray, hdisorder, hloaded, hshadow⟩ := h
  obtain ⟨ps, as, rfl, hps, has⟩ := exists_ascending_parts hstray hdisorder
  rw [toList_ofParts, findIdx_isAbsent_parts] at hloaded hshadow
  refine tidy_iff.mpr ⟨ps, as, rfl, ⟨hps, has, (shadow?_eq_none_iff hps).mp hshadow⟩, ?_⟩
  rintro rfl
  simpa using hloaded

end LazyTree.Zones
