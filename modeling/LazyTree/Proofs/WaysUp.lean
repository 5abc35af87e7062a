import LazyTree.Proofs.RegistryEntries
import LazyTree.Tree.Path
import Mathlib.Data.List.Duplicate
import Mathlib.Data.List.Perm.Subperm
import Mathlib.Logic.Relation

set_option autoImplicit false

/-!
# Ways up from nodes

The path of a node is found by climbing from identity to identity through the registry. Nothing but
the registry tells where a way leads, and nothing makes sure that it comes to an end: a node stands
for the identity under which it was reported, and a child may be reported under the identity of a
directory above it. Then the way up from the child comes back to it.

Climbing comes to an end exactly if the way does not circle, and then it takes no more steps than
the registry has entries. A way that circles never ends. The registry is changed by nodes that come
to stand for their identities, and this brings a circle about exactly if the way up from the node
asks for the identity of the node.

## Main definitions

* `LazyTree.Tree.Above` — one step up.
* `LazyTree.Tree.Climbs` — climbing comes to an end, with the names on the way or with an identity
  for which no node stands.
* `LazyTree.Tree.Circles` — the way up from a node comes to a node a second time.
* `LazyTree.Tree.Meets` — the way up from a node asks for an identity.

## Main results

* `LazyTree.Tree.exists_climbs_iff` — climbing comes to an end exactly on ways that do not circle.
* `LazyTree.Tree.Climbs.run_pathOf` — the path of a node is what climbing comes to.
* `LazyTree.Tree.circles_iff_endless` — no number of steps leads to the end of a way that circles.
* `LazyTree.Tree.register_circles_iff` — when a registered node makes ways circle.
-/

namespace LazyTree.Tree

open TreeM Relation

variable {t : Tree} {n m p : Node} {id : FileId}

/-! ### Climbing -/

/-- What is found one step up from a node: nothing above a node without a directory, the node that
stands for the directory, or that none stands for its identity. -/
def stepUp (t : Tree) (n : Node) : Except FileId (Option Node) :=
  match n.parent with
  | none => .ok none
  | some id =>
    match t.node? id with
    | none => .error id
    | some p => .ok (some p)

/-- A node stands for the directory of a node. -/
def Above (t : Tree) (n p : Node) : Prop :=
  t.stepUp n = .ok (some p)

/-- Climbing from a node comes to an end: at a node that has no directory, with the names on the
way, or at a node for whose directory no node stands, with the identity of that. -/
inductive Climbs (t : Tree) : Node → Except FileId (List String) → Prop where
  /-- Nothing is above. -/
  | top {n : Node} (hstep : t.stepUp n = .ok none) : Climbs t n (.ok [])
  /-- No node stands for the directory. -/
  | lost {n : Node} {id : FileId} (hstep : t.stepUp n = .error id) : Climbs t n (.error id)
  /-- The way goes on from the node that stands for the directory. -/
  | up {n p : Node} {outcome : Except FileId (List String)} (hstep : t.Above n p)
    (rest : Climbs t p outcome) : Climbs t n (outcome.map (n.name :: ·))

/-- The way up from a node comes to some node a second time. -/
def Circles (t : Tree) (n : Node) : Prop :=
  ∃ m, ReflTransGen t.Above n m ∧ TransGen t.Above m m

/-- There is only one way up. -/
theorem Above.unique {p' : Node} (h : t.Above n p) (h' : t.Above n p') : p = p' := by
  cases h.symm.trans h'
  rfl

/-- A node stands for the directory of a node exactly if the registry leads there. -/
theorem above_iff : t.Above n p ↔ ∃ id, n.parent = some id ∧ t.node? id = some p := by
  unfold Above stepUp
  cases n.parent with
  | none => simp
  | some id => cases hid : t.node? id <;> simp [hid]

/-- What is above a node has an entry in the registry. -/
theorem Above.mem (h : t.Above n p) : p ∈ t.registry.nodes := by
  obtain ⟨id, -, hp⟩ := above_iff.mp h
  obtain ⟨hfind, -⟩ := Option.filter_eq_some_iff.mp hp
  exact List.mem_of_find?_eq_some hfind

/-- Climbing comes to one end. -/
theorem Climbs.unique {outcome outcome' : Except FileId (List String)} (h : t.Climbs n outcome)
    (h' : t.Climbs n outcome') : outcome = outcome' := by
  induction h generalizing outcome' with
  | top hstep =>
    cases h' with
    | top => rfl
    | lost hstep' => cases hstep.symm.trans hstep'
    | up hstep' => cases hstep.symm.trans hstep'
  | lost hstep =>
    cases h' with
    | top hstep' => cases hstep.symm.trans hstep'
    | lost hstep' =>
      cases hstep.symm.trans hstep'
      rfl
    | up hstep' => cases hstep.symm.trans hstep'
  | up hstep _ ih =>
    cases h' with
    | top hstep' => cases hstep.symm.trans hstep'
    | lost hstep' => cases hstep.symm.trans hstep'
    | up hstep' rest =>
      obtain rfl := hstep.unique hstep'
      rw [ih rest]

/-- What circles a step further up circles, and the other way round. -/
theorem circles_iff_of_above (h : t.Above n p) : t.Circles n ↔ t.Circles p := by
  constructor
  · rintro ⟨m, hm, hcircle⟩
    rcases hm.cases_head with rfl | ⟨q, hq, hm⟩
    · -- the node is on the circle itself, and so is what is above it
      obtain ⟨q, hq, hback⟩ := TransGen.head'_iff.mp hcircle
      obtain rfl := h.unique hq
      exact ⟨p, .refl, TransGen.tail' hback h⟩
    · obtain rfl := h.unique hq
      exact ⟨m, hm, hcircle⟩
  · rintro ⟨m, hm, hcircle⟩
    exact ⟨m, .head h hm, hcircle⟩

/-- Where there is no step up, nothing circles. -/
theorem Circles.exists_above (h : t.Circles n) : ∃ p, t.Above n p := by
  obtain ⟨m, hm, hcircle⟩ := h
  rcases hm.cases_head with rfl | ⟨p, hp, -⟩
  · obtain ⟨p, hp, -⟩ := TransGen.head'_iff.mp hcircle
    exact ⟨p, hp⟩
  · exact ⟨p, hp⟩

/-- No way that comes to an end circles. -/
theorem Climbs.not_circles {outcome : Except FileId (List String)} (h : t.Climbs n outcome) :
    ¬ t.Circles n := by
  induction h with
  | top hstep =>
    intro hcircles
    obtain ⟨p, hp⟩ := hcircles.exists_above
    cases hstep.symm.trans hp
  | lost hstep =>
    intro hcircles
    obtain ⟨p, hp⟩ := hcircles.exists_above
    cases hstep.symm.trans hp
  | up hstep _ ih => exact fun hcircles => ih ((circles_iff_of_above hstep).mp hcircles)

/-! ### Steps that are counted -/

/-- Either climbing comes to an end within some number of steps, or there is a way of one step more.
-/
theorem climb_cases (t : Tree) (steps : Nat) (n : Node) :
    (∃ outcome, t.Climbs n outcome ∧ t.climb steps n = outcome.mapError .detached) ∨
      ∃ id way, t.climb steps n = .error (.endless id) ∧ way.length = steps + 1 ∧
        List.IsChain t.Above (n :: way) := by
  fun_induction climb t steps n with
  | case1 steps n hparent =>
    have hstep : t.stepUp n = .ok none := by simp [stepUp, hparent]
    exact .inl ⟨_, .top hstep, rfl⟩
  | case2 steps n id hparent hlost =>
    have hstep : t.stepUp n = .error id := by simp [stepUp, hparent, hlost]
    exact .inl ⟨_, .lost hstep, rfl⟩
  | case3 n id hparent p hp =>
    have hstep : t.Above n p := above_iff.mpr ⟨id, hparent, hp⟩
    exact .inr ⟨id, [p], rfl, rfl, .cons_cons hstep (.singleton p)⟩
  | case4 n id hparent p hp steps ih =>
    have hstep : t.Above n p := above_iff.mpr ⟨id, hparent, hp⟩
    rcases ih with ⟨outcome, hclimbs, hclimb⟩ | ⟨id, way, hclimb, hlength, hway⟩
    · refine .inl ⟨_, .up hstep hclimbs, ?_⟩
      rw [hclimb]
      cases outcome <;> rfl
    · refine .inr ⟨id, p :: way, ?_, by rw [List.length_cons, hlength], .cons_cons hstep hway⟩
      rw [hclimb]
      rfl

/-- A way that is longer than the registry circles.

**Proof sketch.** All nodes on the way but the one at its start have entries in the registry. As the
way has more of them than there are entries, one of them is on it twice. -/
theorem circles_of_long {way : List Node} (hway : List.IsChain t.Above (n :: way))
    (hlong : t.registry.size < way.length) : t.Circles n := by
  have hpairs : (n :: way).Pairwise (TransGen t.Above) :=
    List.isChain_iff_pairwise.mp (hway.imp fun _ _ h => .single h)
  obtain ⟨hfirst, hrest⟩ := List.pairwise_cons.mp hpairs
  have hentries : ∀ m ∈ way, m ∈ t.registry.nodes := by
    intro m hm
    obtain ⟨q, -, hq⟩ := TransGen.tail'_iff.mp (hfirst m hm)
    exact Above.mem hq
  have htwice : ¬ way.Nodup := fun hnodup =>
    Nat.not_lt.mpr (hnodup.subperm hentries).length_le hlong
  obtain ⟨m, hm⟩ := List.exists_duplicate_iff_not_nodup.mpr htwice
  have hcircle := hrest.sublist (List.duplicate_iff_sublist.mp hm)
  exact ⟨m, (hfirst m hm.mem).to_reflTransGen, List.rel_of_pairwise_cons hcircle (by simp)⟩

/-- Climbing comes to an end exactly on ways that do not circle. -/
theorem exists_climbs_iff : (∃ outcome, t.Climbs n outcome) ↔ ¬ t.Circles n := by
  refine ⟨fun ⟨_, h⟩ => h.not_circles, fun hcircles => ?_⟩
  rcases t.climb_cases t.registry.size n with ⟨outcome, h, -⟩ | ⟨id, way, -, hlength, hway⟩
  · exact ⟨outcome, h⟩
  · exact absurd (circles_of_long hway (by omega)) hcircles

/-- As many steps as there are entries lead to the end of a way that has one. -/
theorem Climbs.climb {outcome : Except FileId (List String)} (h : t.Climbs n outcome) :
    t.climb t.registry.size n = outcome.mapError .detached := by
  rcases t.climb_cases t.registry.size n with ⟨outcome', h', hclimb⟩ | ⟨id, way, -, hlength, hway⟩
  · rw [hclimb, h.unique h']
  · exact absurd (circles_of_long hway (by omega)) h.not_circles

/-- The path of a node is what climbing comes to, if it comes to an end. -/
theorem Climbs.run_pathOf {outcome : Except FileId (List String)} (h : t.Climbs n outcome) :
    (pathOf n).run t = .done ((outcome.map joinNames).mapError .detached) t := by
  rw [pathOf, run_bind, run_get, Run.bind_done_ok, h.climb]
  cases outcome <;> rfl

/-- A way circles exactly if no number of steps leads to its end. -/
theorem circles_iff_endless :
    t.Circles n ↔ ∀ steps, ∃ id, t.climb steps n = .error (.endless id) := by
  constructor
  · intro hcircles steps
    rcases t.climb_cases steps n with ⟨outcome, hclimbs, -⟩ | ⟨id, way, hclimb, -⟩
    · exact absurd hcircles hclimbs.not_circles
    · exact ⟨id, hclimb⟩
  · intro hendless
    by_contra hends
    obtain ⟨outcome, hclimbs⟩ := exists_climbs_iff.mpr hends
    obtain ⟨id, hclimb⟩ := hendless t.registry.size
    rw [hclimbs.climb] at hclimb
    cases outcome <;> cases hclimb

/-! ### Nodes that come to stand for their identities -/

/-- The way up from a node asks for an identity. -/
def Meets (t : Tree) (n : Node) (id : FileId) : Prop :=
  ∃ m, ReflTransGen t.Above n m ∧ m.parent = some id

/-- Once a living node stands for its identity, that leads to the node, and any other where it led.
-/
theorem above_register_iff (hm : t.isLive m = true) {k : Node} :
    (t.register m).Above k p ↔ (k.parent = some m.id ∧ p = m) ∨
      (k.parent ≠ some m.id ∧ t.Above k p) := by
  have hnode (id : FileId) : (t.register m).node? id =
      if m.id = id then some m else t.node? id := by
    have hlive : (t.register m).isLive = t.isLive := funext (isLive_frame t _)
    rw [node?, hlive, register, Registry.find_put]
    split
    · exact Option.filter_some_pos hm
    · rfl
  rw [above_iff, above_iff]
  cases k.parent with
  | none => simp
  | some id =>
    by_cases hid : m.id = id
    · simp [hnode, hid, eq_comm]
    · simp [hnode, hid, Ne.symm hid]

/-- A way that asks for the identity of a registered node leads to the node. -/
theorem Meets.transGen (hm : t.isLive m = true) {k : Node} (h : t.Meets k m.id) :
    TransGen (t.register m).Above k m := by
  obtain ⟨last, hway, hlast⟩ := h
  induction hway using ReflTransGen.head_induction_on with
  | refl => exact .single ((above_register_iff hm).mpr (.inl ⟨hlast, rfl⟩))
  | @head k q hq _ ih =>
    by_cases hk : k.parent = some m.id
    · exact .single ((above_register_iff hm).mpr (.inl ⟨hk, rfl⟩))
    · exact .head ((above_register_iff hm).mpr (.inr ⟨hk, hq⟩)) ih

/-- A way after the registration of a node either was a way before, or asks for the identity of the
node. -/
theorem transGen_or_meets (hm : t.isLive m = true) {k : Node}
    (h : TransGen (t.register m).Above k p) : TransGen t.Above k p ∨ t.Meets k m.id := by
  induction h using TransGen.head_induction_on with
  | @single k hk =>
    rcases (above_register_iff hm).mp hk with ⟨hparent, -⟩ | ⟨-, hold⟩
    · exact .inr ⟨k, .refl, hparent⟩
    · exact .inl (.single hold)
  | @head k q hk _ ih =>
    rcases (above_register_iff hm).mp hk with ⟨hparent, -⟩ | ⟨-, hold⟩
    · exact .inr ⟨k, .refl, hparent⟩
    · rcases ih with hway | ⟨last, hway, hlast⟩
      · exact .inl (.head hold hway)
      · exact .inr ⟨last, .head hold hway, hlast⟩

/-- What a circle leads to is on the circle. -/
theorem transGen_self_of_transGen (h : TransGen t.Above n n) (hm : ReflTransGen t.Above n m) :
    TransGen t.Above m m := by
  induction hm with
  | refl => exact h
  | tail _ hstep ih =>
    obtain ⟨q, hq, hback⟩ := TransGen.head'_iff.mp ih
    obtain rfl := hq.unique hstep
    exact TransGen.tail' hback hstep

/-- When a node comes to stand for its identity, and no way circled before, then some way circles
exactly if the way up from the node asks for the identity. -/
theorem register_circles_iff (hm : t.isLive m = true) (ht : ∀ n, ¬ t.Circles n) :
    (∃ n, (t.register m).Circles n) ↔ t.Meets m m.id := by
  constructor
  · rintro ⟨n, k, -, hcircle⟩
    rcases transGen_or_meets hm hcircle with hold | hmeets
    · exact absurd ⟨k, .refl, hold⟩ (ht k)
    · -- the circle leads to the node, so that the node is on it
      have hnode := transGen_self_of_transGen hcircle (hmeets.transGen hm).to_reflTransGen
      exact (transGen_or_meets hm hnode).resolve_left fun hold => ht m ⟨m, .refl, hold⟩
  · exact fun hmeets => ⟨m, m, .refl, hmeets.transGen hm⟩

end LazyTree.Tree
