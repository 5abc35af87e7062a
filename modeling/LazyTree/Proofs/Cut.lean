import LazyTree.Proofs.NameOrder
import LazyTree.Zone.Search

set_option autoImplicit false

/-!
# Cutting a sorted list at a name

A list in strictly ascending order of the names falls, for any name, into what comes before the
name, what has the name (at most one element), and what lies behind it. A search finds where the
cut is, an insertion fills it, and a removal empties it.

## Main definitions

* `LazyTree.Ascending` — names in strictly ascending order.
* `LazyTree.Cut` — the pieces of a list that is cut at a name.
* `LazyTree.Cut.whole`, `LazyTree.Cut.rest`, `LazyTree.Cut.fill` — the list itself, without the
  hit, and with another element in its place.
* `LazyTree.Cut.put` — the cut with something else in it.
* `LazyTree.Cut.place` — the place of the cut, as a search reports it.

## Main results

* `LazyTree.Ascending.exists_cut` — an ascending list can be cut at any name.
* `LazyTree.Cut.ascending_put` — putting something else into a cut keeps the order.
* `LazyTree.Cut.find?_key`, `LazyTree.Cut.find?_put` — looking for a key sees what is in the cut
  exactly at the name of the cut.
* `LazyTree.Ascending.find?_key_eq_some_iff` — what is found for a key in an ascending list.
-/

namespace LazyTree

variable {α : Type} [Named α]

/-- The names are in strictly ascending order. -/
def Ascending (policy : CasePolicy) (xs : List α) : Prop :=
  xs.Pairwise fun a b => policy.Before (name a) (name b)

/-- The pieces of a list that is cut at a name. -/
structure Cut (policy : CasePolicy) (wanted : String) (α : Type) [Named α] where
  /-- What comes before the name. -/
  front : List α
  /-- What has the name. -/
  hit : Option α
  /-- What lies behind the name. -/
  back : List α
  /-- The first piece comes before the name. -/
  front_before : ∀ x ∈ front, policy.Before (name x) wanted
  /-- The hit has the name. -/
  hit_key : ∀ x, hit = some x → policy.key (name x) = policy.key wanted
  /-- The last piece lies behind the name. -/
  back_behind : ∀ x ∈ back, policy.Before wanted (name x)

/-- Of two elements of an ascending list, the one further in front comes first. -/
theorem Ascending.before_of_getElem? {policy : CasePolicy} {xs : List α}
    (h : Ascending policy xs) {i j : Nat} {a b : α} (hij : i < j) (ha : xs[i]? = some a)
    (hb : xs[j]? = some b) : policy.Before (name a) (name b) := by
  obtain ⟨hi, rfl⟩ := List.getElem?_eq_some_iff.mp ha
  obtain ⟨hj, rfl⟩ := List.getElem?_eq_some_iff.mp hb
  exact List.pairwise_iff_getElem.mp h i j hi hj hij

namespace Cut

variable {policy : CasePolicy} {wanted : String} (c : Cut policy wanted α)

/-- The list that is cut. -/
def whole : List α :=
  c.front ++ (c.hit.toList ++ c.back)

/-- What is left when the hit is taken out. -/
def rest : List α :=
  c.front ++ c.back

/-- The list with an element in the place of the hit. -/
def fill (x : α) : List α :=
  c.front ++ x :: c.back

/-- The cut with something else in it. -/
def put (x : Option α) (hx : ∀ y, x = some y → policy.key (name y) = policy.key wanted) :
    Cut policy wanted α :=
  { c with hit := x, hit_key := hx }

/-- The place of the cut in an array that holds the list from a position on. -/
def place (base : Nat) : Place :=
  if c.hit.isSome then .found (base + c.front.length) else .gap (base + c.front.length)

end Cut

variable {policy : CasePolicy} {wanted : String}

/-- An ascending list can be cut at any name. -/
theorem Ascending.exists_cut {xs : List α} (h : Ascending policy xs) (wanted : String) :
    ∃ c : Cut policy wanted α, xs = c.whole := by
  induction xs with
  | nil => exact ⟨⟨[], none, [], by simp, by simp, by simp⟩, rfl⟩
  | cons x xs ih =>
    obtain ⟨hx, hxs⟩ := List.pairwise_cons.mp h
    cases hc : policy.compare (name x) wanted with
    | lt =>
      obtain ⟨c, rfl⟩ := ih hxs
      refine ⟨⟨x :: c.front, c.hit, c.back, ?_, c.hit_key, c.back_behind⟩, rfl⟩
      intro y hy
      rcases List.mem_cons.mp hy with rfl | hy
      · exact hc
      · exact c.front_before y hy
    | eq =>
      have hkey := CasePolicy.compare_eq_iff.mp hc
      refine ⟨⟨[], some x, xs, by simp, by simpa using hkey, ?_⟩, rfl⟩
      intro y hy
      have hxy := hx y hy
      rwa [CasePolicy.Before, CasePolicy.compare_congr hkey rfl] at hxy
    | gt =>
      have hbefore := CasePolicy.compare_gt_iff.mp hc
      refine ⟨⟨[], none, x :: xs, by simp, by simp, ?_⟩, rfl⟩
      intro y hy
      rcases List.mem_cons.mp hy with rfl | hy
      · exact hbefore
      · exact hbefore.trans (hx y hy)

namespace Cut

variable (c : Cut policy wanted α)

/-! ### Positions -/

/-- The position of the cut. -/
theorem place_index (base : Nat) : (c.place base).index = base + c.front.length := by
  unfold place
  split <;> rfl

/-- The place is that of a found name exactly when there is a hit. -/
theorem place_index?_isSome (base : Nat) : (c.place base).index?.isSome = c.hit.isSome := by
  unfold place
  split <;> simp_all [Place.index?]

/-- With a hit, the place is that of a found name. -/
theorem place_of_isSome {base i : Nat} (h : c.hit.isSome = true) (hi : i = base + c.front.length) :
    c.place base = .found i := by
  rw [hi]
  exact if_pos h

/-- Without a hit, the place is a gap. -/
theorem place_of_eq_none {base i : Nat} (h : c.hit = none) (hi : i = base + c.front.length) :
    c.place base = .gap i := by
  rw [hi, place, h]
  rfl

/-- The cut lies inside of the list, and strictly so if there is a hit. -/
theorem front_length_le : c.front.length + c.hit.toList.length ≤ c.whole.length := by
  simp only [whole, List.length_append]
  omega

/-- With a hit, the cut lies strictly inside of the list. -/
theorem front_length_lt (h : c.hit.isSome = true) : c.front.length < c.whole.length := by
  obtain ⟨x, hx⟩ := Option.isSome_iff_exists.mp h
  have hlen := c.front_length_le
  rw [hx] at hlen
  simp only [Option.toList_some, List.length_singleton] at hlen
  omega

/-- Elements in front of the cut compare as coming before the name. -/
theorem compare_front {i : Nat} {x : α} (hi : i < c.front.length) (hx : c.whole[i]? = some x) :
    policy.compare (name x) wanted = .lt := by
  rw [whole, List.getElem?_append_left hi] at hx
  exact c.front_before x (List.mem_of_getElem? hx)

/-- What is found at the cut is the hit. -/
theorem getElem?_hit {x : α} (h : c.hit = some x) : c.whole[c.front.length]? = some x := by
  simp [whole, h]

/-- Elements behind the cut compare as lying behind the name. -/
theorem compare_back {i : Nat} {x : α} (hi : c.front.length ≤ i)
    (hne : c.hit.isSome → i ≠ c.front.length) (hx : c.whole[i]? = some x) :
    policy.compare (name x) wanted = .gt := by
  rw [whole, List.getElem?_append_right hi] at hx
  refine CasePolicy.compare_gt_iff.mpr (c.back_behind x ?_)
  cases hhit : c.hit with
  | none => exact List.mem_of_getElem? (by simpa [hhit] using hx)
  | some y =>
    have hpos : i - c.front.length ≠ 0 := by
      have := hne (by simp [hhit])
      omega
    obtain ⟨j, hj⟩ := Nat.exists_eq_succ_of_ne_zero hpos
    rw [hhit, hj] at hx
    exact List.mem_of_getElem? (by simpa using hx)

/-- An element stands on the side of the cut that its name tells. -/
theorem position {i : Nat} {x : α} (hx : c.whole[i]? = some x) :
    (i < c.front.length ∧ policy.compare wanted (name x) = .gt) ∨
      (i = c.front.length ∧ c.hit.isSome = true ∧ policy.compare wanted (name x) = .eq) ∨
      (c.front.length + c.hit.toList.length ≤ i ∧ policy.compare wanted (name x) = .lt) := by
  rw [CasePolicy.compare_swap policy (name x) wanted]
  rcases Nat.lt_or_ge i c.front.length with hi | hi
  · exact .inl ⟨hi, by rw [c.compare_front hi hx]; rfl⟩
  · cases hhit : c.hit with
    | none =>
      have hgt := c.compare_back hi (by simp [hhit]) hx
      exact .inr (.inr ⟨by simpa using hi, by rw [hgt]; rfl⟩)
    | some y =>
      by_cases hne : i = c.front.length
      · rw [hne, c.getElem?_hit hhit] at hx
        obtain rfl : y = x := by simpa using hx
        refine .inr (.inl ⟨hne, rfl, ?_⟩)
        rw [CasePolicy.compare_eq_iff.mpr (c.hit_key y hhit)]
        rfl
      · have hgt := c.compare_back hi (fun _ => hne) hx
        refine .inr (.inr ⟨?_, by rw [hgt]; rfl⟩)
        simp only [Option.toList_some, List.length_singleton]
        omega

/-! ### Members -/

/-- No key in front of the cut is that of the name. -/
theorem front_key_ne {x : α} (hx : x ∈ c.front) : policy.key (name x) ≠ policy.key wanted :=
  (c.front_before x hx).key_ne

/-- No key behind the cut is that of the name. -/
theorem back_key_ne {x : α} (hx : x ∈ c.back) : policy.key (name x) ≠ policy.key wanted :=
  (c.back_behind x hx).key_ne.symm

/-- What is left does not have the name. -/
theorem rest_key_ne {x : α} (hx : x ∈ c.rest) : policy.key (name x) ≠ policy.key wanted := by
  rcases List.mem_append.mp hx with hx | hx
  · exact c.front_key_ne hx
  · exact c.back_key_ne hx

/-- The list consists of the hit and of what is left without it. -/
theorem mem_whole {x : α} : x ∈ c.whole ↔ c.hit = some x ∨ x ∈ c.rest := by
  simp only [whole, rest, List.mem_append, Option.mem_toList]
  exact or_left_comm

/-- An element has the name exactly when it is the hit. -/
theorem mem_and_key_iff {x : α} :
    x ∈ c.whole ∧ policy.key (name x) = policy.key wanted ↔ c.hit = some x := by
  constructor
  · rintro ⟨hx, hkey⟩
    exact (c.mem_whole.mp hx).resolve_right fun hrest => c.rest_key_ne hrest hkey
  · exact fun h => ⟨c.mem_whole.mpr (.inl h), c.hit_key x h⟩

/-- Without a hit, taking it out changes nothing. -/
theorem rest_eq_whole (h : c.hit = none) : c.rest = c.whole := by
  rw [rest, whole, h]
  rfl

/-! ### Order -/

/-- Taking out the hit keeps the order. -/
theorem ascending_rest (h : Ascending policy c.whole) : Ascending policy c.rest :=
  h.sublist ((List.Sublist.refl _).append (List.sublist_append_right _ _))

/-- Filling the cut with an element of its name keeps the order. -/
theorem ascending_fill (h : Ascending policy c.whole) {x : α}
    (hx : policy.key (name x) = policy.key wanted) : Ascending policy (c.fill x) := by
  have hrest := List.pairwise_append.mp (c.ascending_rest h)
  have hfront : ∀ y ∈ c.front, policy.Before (name y) (name x) := by
    intro y hy
    have := c.front_before y hy
    rwa [CasePolicy.Before, CasePolicy.compare_congr rfl hx.symm] at this
  have hback : ∀ y ∈ c.back, policy.Before (name x) (name y) := by
    intro y hy
    have := c.back_behind y hy
    rwa [CasePolicy.Before, CasePolicy.compare_congr hx.symm rfl] at this
  refine List.pairwise_append.mpr ⟨hrest.1, List.pairwise_cons.mpr ⟨hback, hrest.2.1⟩, ?_⟩
  intro y hy z hz
  rcases List.mem_cons.mp hz with rfl | hz
  · exact hfront y hy
  · exact hrest.2.2 y hy z hz

/-- Putting something else into the cut keeps the order. -/
theorem ascending_put (h : Ascending policy c.whole) (x : Option α)
    (hx : ∀ y, x = some y → policy.key (name y) = policy.key wanted) :
    Ascending policy (c.put x hx).whole := by
  cases x with
  | none => exact c.ascending_rest h
  | some y => exact c.ascending_fill h (hx y rfl)

/-! ### Looking for a key -/

/-- Looking for the name of the cut finds nothing in what is left. -/
theorem find?_rest_key :
    c.rest.find? (fun x => policy.key (name x) = policy.key wanted) = none := by
  simpa using fun x hx => c.rest_key_ne hx

/-- Looking for the name of the cut finds the hit. -/
theorem find?_key : c.whole.find? (fun x => policy.key (name x) = policy.key wanted) = c.hit := by
  have hrest := c.find?_rest_key
  rw [rest, List.find?_append, Option.or_eq_none_iff] at hrest
  rw [whole, List.find?_append, List.find?_append, hrest.1, hrest.2]
  cases hhit : c.hit with
  | none => rfl
  | some x => simp [c.hit_key x hhit]

/-- Looking for another key does not see the hit. -/
theorem find?_rest {k : List Char} (hk : k ≠ policy.key wanted) :
    c.rest.find? (fun x => policy.key (name x) = k) =
      c.whole.find? fun x => policy.key (name x) = k := by
  rw [rest, whole, List.find?_append, List.find?_append, List.find?_append]
  cases hhit : c.hit with
  | none => rfl
  | some x => simp [c.hit_key x hhit, Ne.symm hk]

/-- Looking for a key sees what is put into the cut exactly at the name of the cut. -/
theorem find?_put (x : Option α)
    (hx : ∀ y, x = some y → policy.key (name y) = policy.key wanted) (k : List Char) :
    (c.put x hx).whole.find? (fun y => policy.key (name y) = k) =
      if k = policy.key wanted then x else c.whole.find? fun y => policy.key (name y) = k := by
  split
  · next hk =>
    rw [hk]
    exact (c.put x hx).find?_key
  · next hk => exact ((c.put x hx).find?_rest hk).symm.trans (c.find?_rest hk)

end Cut

/-- An ascending list is determined by its elements. -/
theorem Ascending.eq_of_mem_iff {xs ys : List α} (hxs : Ascending policy xs)
    (hys : Ascending policy ys) (hmem : ∀ x, x ∈ xs ↔ x ∈ ys) : xs = ys := by
  have hnodup : ∀ {zs : List α}, Ascending policy zs → zs.Nodup := fun h =>
    h.imp fun hbefore hsame => absurd rfl (hsame ▸ hbefore).key_ne
  refine ((List.perm_ext_iff_of_nodup (hnodup hxs) (hnodup hys)).mpr hmem).eq_of_pairwise
    (fun a b _ _ hab hba => absurd rfl (hab.trans hba).key_ne) hxs hys

/-- Looking for the key of a name in an ascending list finds the element that has it. -/
theorem Ascending.find?_key_eq_some_iff {xs : List α} (h : Ascending policy xs) {x : α} :
    xs.find? (fun y => policy.key (name y) = policy.key wanted) = some x ↔
      x ∈ xs ∧ policy.key (name x) = policy.key wanted := by
  obtain ⟨c, rfl⟩ := h.exists_cut wanted
  rw [c.find?_key, c.mem_and_key_iff]

end LazyTree
