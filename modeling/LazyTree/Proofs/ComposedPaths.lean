import LazyTree.Proofs.AdmittedChildren
import LazyTree.Proofs.NodePaths
import LazyTree.Proofs.SpelledTrees

set_option autoImplicit false

/-!
# Paths put together

Looking a path up means to look up its names, one after the other, each in the child before it. So
two paths that are joined by a separator are looked up one after the other, and it does not matter
which empty names and which `.` a path has. A search that comes to a missing name or to a file
stops there, and asks nothing more. What it goes down to has an array, so no search fails because a
node is no directory.

## Main definitions

* `LazyTree.Responder` — a backend that only answers.
* `LazyTree.Tree.walk` — looking a path up, and what is asked for it.
* `LazyTree.Tree.lodging` — to be an object of a tree whose directories have arrays.
* `LazyTree.Tree.WalksWell` — what is said of looking paths up from an object.

## Main results

* `LazyTree.Tree.components_append` — the names of two paths with a separator between them.
* `LazyTree.Tree.lookupPath_append` — they are looked up one after the other.
* `LazyTree.Tree.always_lookupNames_enters` — a lookup that starts at an object misses no array.
* `LazyTree.Tree.Admits.walksWell` — all this from any object of any tree.
-/

namespace LazyTree

/-! ### Backends that only answer -/

/-- A backend that only answers. What it answers may depend on what it was asked before. -/
abbrev Responder (σ : Type) :=
  (q : Query) → σ → Except BackendError q.Reply × σ

/-- The backend answers, nothing happens to the tree, and the question is written down. -/
def Responder.attend {σ : Type} (b : Responder σ) (q : Query) (t : Tree) (s : σ × List Query) :
    Except BackendError q.Reply × Tree × σ × List Query :=
  let (reply, state) := b q s.1
  (reply, t, state, s.2 ++ [q])

/-- While a question is open, nothing happens. -/
def idle : World :=
  fun _ t _ t' => t' = t

/-- What always holds at the end if nothing else happens does hold at the end of a run that such a
backend serves. -/
theorem Run.Always.attended {α σ : Type} {run : Run α} {post : Except TreeError α → Tree → Prop}
    (h : run.Always idle post) (b : Responder σ) (s : σ × List Query) :
    post (run.serve b.attend s).1 (run.serve b.attend s).2.1 :=
  (Run.took_serve b.attend run s).always h fun x hx => by
    obtain ⟨_, -, hresumed⟩ := Run.exists_of_mem_exchanges hx
    exact hresumed

/-- Of three runs, one after the other, the last two may be taken together. -/
theorem Run.bind_assoc {α β γ : Type} (run : Run α) (f : α → Tree → Run β)
    (g : β → Tree → Run γ) : (run.bind f).bind g = run.bind fun a t => (f a t).bind g := by
  induction run with
  | done result t => cases result <;> rfl
  | ask q t resume ih => exact congrArg (Run.ask q t) (funext₂ ih)

namespace Tree

open TreeM

variable {t t' : Tree} {dir n : Node}

/-! ### The names of paths -/

/-- The names of two paths with a separator between them are those of the one and then those of the
other. -/
theorem components_append (p q : String) :
    components (p ++ "/" ++ q) = components p ++ components q := by
  have hsplit : (p.toList ++ '/' :: q.toList).splitOn '/' =
      p.toList.splitOn '/' ++ q.toList.splitOn '/' := by
    rw [List.splitOn_eq_splitOnP, List.splitOn_eq_splitOnP, List.splitOn_eq_splitOnP]
    exact List.splitOnP_append_cons p.toList q.toList rfl
  have htext : (p ++ "/" ++ q).toList = p.toList ++ '/' :: q.toList := by simp
  rw [components, htext, hsplit, List.map_append, List.filter_append]
  rfl

/-- The names of a path that is put together from parts are those of the parts. -/
theorem components_intercalate (parts : List String) :
    components ("/".intercalate parts) = parts.flatMap components := by
  induction parts with
  | nil => decide
  | cons part rest ih =>
    cases rest with
    | nil => rw [String.intercalate_singleton, List.flatMap_singleton]
    | cons next rest => rw [String.intercalate_cons_cons, components_append, ih]; rfl

/-- A part of a path is a step, unless it is empty or `.`. -/
def isStep (part : String) : Bool :=
  !part.isEmpty && part != "."

/-- A part that is no step has no names. -/
theorem components_of_not_isStep {part : String} (h : isStep part = false) :
    components part = [] := by
  have hpart : part = "" ∨ part = "." := by
    simpa [isStep, Classical.or_iff_not_imp_left] using h
  rcases hpart with rfl | rfl <;> decide

/-- Parts that are no steps may be left out. -/
theorem flatMap_components_filter (parts : List String) :
    (parts.filter isStep).flatMap components = parts.flatMap components := by
  induction parts with
  | nil => rfl
  | cons part rest ih =>
    cases hstep : isStep part with
    | true => rw [List.filter_cons_of_pos hstep, List.flatMap_cons, List.flatMap_cons, ih]
    | false =>
      rw [List.filter_cons_of_neg (ne_true_of_eq_false hstep), List.flatMap_cons,
        components_of_not_isStep hstep, List.nil_append, ih]

/-! ### One lookup after another -/

/-- Looking names up from where a search has led, if it has led anywhere. -/
def lookupNamesFrom (later : List String) : Lookup → TreeM Lookup
  | .present n => lookupNames n later
  | .absent => pure .absent

/-- Names are looked up from where the names before them lead. -/
theorem lookupNames_append (dir : Node) (names later : List String) :
    lookupNames dir (names ++ later) = lookupNames dir names >>= lookupNamesFrom later := by
  induction names generalizing dir with
  | nil => rfl
  | cons name rest ih =>
    rw [List.cons_append, lookupNames, lookupNames]
    split
    · refine funext fun t => (congrArg (Run.bind _) (funext₂ fun answer u => ?_)).trans
        (Run.bind_assoc _ _ _).symm
      cases answer with
      | present next => exact congrArg (TreeM.run · u) (ih next)
      | absent => rfl
    · rfl

/-- Of two paths with a separator between them the second one is looked up from where the first one
leads. -/
theorem lookupPath_append (dir : Node) (p q : String) :
    lookupPath dir (p ++ "/" ++ q) = lookupPath dir p >>= lookupNamesFrom (components q) := by
  rw [lookupPath, components_append]
  exact lookupNames_append dir _ _

/-- Paths whose parts differ only by parts that are no steps are looked up in the same way. -/
theorem lookupPath_intercalate_congr (dir : Node) {parts parts' : List String}
    (h : parts.filter isStep = parts'.filter isStep) :
    lookupPath dir ("/".intercalate parts) = lookupPath dir ("/".intercalate parts') := by
  rw [lookupPath, lookupPath, components_intercalate, components_intercalate,
    ← flatMap_components_filter parts, h, flatMap_components_filter]

/-- No name is looked up in what is no directory. -/
theorem lookupNames_of_not_isDirectory (h : dir.isDirectory = false) {names : List String}
    (hnames : names ≠ []) : lookupNames dir names = pure .absent := by
  cases names with
  | nil => exact absurd rfl hnames
  | cons name rest =>
    rw [lookupNames, if_neg (ne_true_of_eq_false h)]

/-! ### Directories have arrays -/

/-- An operation does not fail because a node is no directory. -/
def Enters {α : Type} (result : Except TreeError α) : Prop :=
  ∀ id, result ≠ .error (.notADirectory id)

/-- An operation that answers does not fail. -/
theorem enters_ok {α : Type} (a : α) : Enters (.ok a) := by
  rintro id ⟨⟩

/-- To be an object binds a child to any directory, in trees whose directories have arrays. -/
def lodging (policy : CasePolicy) (config : TreeConfig) : Bond where
  policy := policy
  config := config
  stands t dir := t.Furnished ∧ t.Owns dir
  binds t _ n := t.Owns n
  names _ _ _ := True
  stands_update {t t' dir} hupdate h :=
    ⟨h.1.update hupdate, ((stable_owns t.policy dir).update t t' hupdate ⟨rfl, h.2⟩).2⟩
  binds_update := @(membership policy config).binds_update
  stands_child h hn := ⟨h.1, hn⟩
  binds_make {t dir id name} _ _ _ attributes _ _ := owns_make t dir id name attributes

/-- An object that is a directory has an array. -/
theorem Furnished.array (h : t.Furnished) (hdir : t.Owns dir)
    (hdirectory : dir.isDirectory = true) :
    (t.children? dir).isSome = true := by
  obtain ⟨cell, hcell, rfl⟩ := Option.map_eq_some_iff.mp hdir
  rw [children?, hcell, Option.bind_some, h _ cell hcell, hdirectory]

section Enters

variable {B : Bond} {w : World} (hw : B.Trusts w)

/-- Recording an answer finds the array of the directory. -/
theorem BondedAt.enters_recordAnswer (h : t.BondedAt B dir) (name query : String)
    (id : Option FileId) (attributes : Option Attributes) :
    ((Tree.recordAnswer dir name query id attributes).run t).Always w
      fun result _ => Enters result := by
  obtain ⟨c, hc⟩ := Option.isSome_iff_exists.mp h.array
  have hmissing : ((Tree.recordAnswer dir name query none none).run t).Always w
      fun result _ => Enters result := by
    rw [run_recordAnswer_none h.tidy hc]
    exact enters_ok _
  cases id with
  | none => exact hmissing
  | some id =>
    cases attributes with
    | none => exact hmissing
    | some attributes =>
      rw [run_recordAnswer_found h.tidy hc]
      exact enters_ok _

include hw

/-- So does asking for a name. -/
theorem BondedAt.enters_askFor (h : t.BondedAt B dir) (name query : String) (policy : CasePolicy) :
    ((Tree.askFor dir name query policy).run t).Always w fun result _ => Enters result := by
  refine h.ask hw (fun _ _ _ => nofun) fun id t₁ _ _ h₁ => ?_
  cases id with
  | none => exact h₁.enters_recordAnswer name query none none
  | some id =>
    exact h₁.ask hw (fun _ _ _ => nofun) fun attributes t₂ _ _ h₂ =>
      h₂.enters_recordAnswer name query (some id) attributes

/-- So does looking a name up. -/
theorem BondedAt.enters_findChild (h : t.BondedAt B dir) (name : String) (canonicalize : Bool) :
    ((findChild dir name canonicalize).run t).Always w fun result _ => Enters result := by
  obtain ⟨c, hc⟩ := Option.isSome_iff_exists.mp h.array
  rw [run_findChild, hc]
  dsimp only
  split
  · exact enters_ok _
  · exact enters_ok _
  · split
    · exact h.ask hw (fun _ _ _ => nofun) fun query t₁ _ _ h₁ =>
        h₁.enters_askFor hw name query t.policy
    · exact h.enters_askFor hw name name t.policy

end Enters

/-- A lookup of names that starts at an object misses no array, if what happens meanwhile keeps the
nodes in arrays objects.

**Proof sketch.** By induction on the names. What is found under the first one is in an array, so it
is an object, and if it is a directory then it has an array. -/
theorem always_lookupNames_enters {policy : CasePolicy} {config : TreeConfig} {w : World}
    (hw : (lodging policy config).Trusts w) (h : t.Bonded (lodging policy config))
    (hdir : (lodging policy config).stands t dir) (names : List String) :
    ((lookupNames dir names).run t).Always w fun result _ => Enters result := by
  induction names generalizing dir t with
  | nil => exact enters_ok _
  | cons name rest ih =>
    rw [lookupNames]
    split
    · next hdirectory =>
      have hheld : (t.hold [dir]).BondedAt (lodging policy config) dir :=
        ⟨h.frame t.registry _, hdir, hdir.1.array hdir.2 hdirectory⟩
      have hfound : ((lookup dir name).run (t.hold [dir])).Always w
          (FoundBonded (lodging policy config) dir) :=
        hheld.toBonded.findChild hw hheld.stands name _ fun _ _ _ _ _ _ => trivial
      have henters : ((lookup dir name).run (t.hold [dir])).Always w
          fun result _ => Enters result := hheld.enters_findChild hw name _
      rw [run_bind, run_holding, Run.always_bind_iff, Run.always_settle_iff]
      refine (hfound.and henters).mono fun result t' hafter => ?_
      have hreleased : (t'.release [dir]).Bonded (lodging policy config) :=
        hafter.1.bonded.frame t'.registry _
      cases result with
      | error e => exact fun id hid => hafter.2 id (by rw [← hid])
      | ok answer =>
        cases answer with
        | absent => exact enters_ok _
        | present next => exact ih hreleased (hafter.1.child next rfl)
    · exact enters_ok _

/-- No answer of a backend that does nothing else stands against that. -/
theorem trusts_idle (policy : CasePolicy) (config : TreeConfig) :
    (lodging policy config).Trusts idle where
  happens := by
    rintro q t reply t' rfl
    exact .refl _
  bonded := by
    rintro q t reply t' rfl h
    exact h
  list _ _ _ := trivial
  spelled _ _ := trivial

/-! ### Walks -/

/-- Looking a path up from a node on, with a backend that only answers: the answer, the tree, and
what the backend has in mind and was asked by then. -/
def walk {σ : Type} (b : Responder σ) (dir : Node) (path : String) (t : Tree)
    (s : σ × List Query) : Except TreeError Lookup × Tree × σ × List Query :=
  ((lookupPath dir path).run t).serve b.attend s

/-- What is said of looking paths up from a node on. -/
structure WalksWell {σ : Type} (b : Responder σ) (t : Tree) (dir : Node) : Prop where
  /-- Two paths with a separator between them are looked up one after the other. If the first one
  leads nowhere, then that is the end. -/
  joined : ∀ p q s, walk b dir (p ++ "/" ++ q) t s = match walk b dir p t s with
    | (.ok (.present n), t', s') => walk b n q t' s'
    | ended => ended
  /-- It does not matter which empty parts and which `.` a path has, nor where. -/
  steps : ∀ parts parts' s, parts.filter isStep = parts'.filter isStep →
    walk b dir ("/".intercalate parts) t s = walk b dir ("/".intercalate parts') t s
  /-- Nothing more is asked behind a name that is missing. -/
  missing : ∀ p q t' s s', walk b dir p t s = (.ok .absent, t', s') →
    walk b dir (p ++ "/" ++ q) t s = (.ok .absent, t', s')
  /-- Nothing more is asked behind a file, and no name is found there. -/
  file : ∀ p q n t' s s', walk b dir p t s = (.ok (.present n), t', s') → n.isDirectory = false →
    components q ≠ [] → walk b dir (p ++ "/" ++ q) t s = (.ok .absent, t', s')
  /-- No array is missing. -/
  enters : ∀ p s, Enters (walk b dir p t s).1

/-- Two paths with a separator between them are looked up one after the other. -/
theorem walk_append {σ : Type} (b : Responder σ) (dir : Node) (p q : String) (t : Tree)
    (s : σ × List Query) :
    walk b dir (p ++ "/" ++ q) t s = match walk b dir p t s with
      | (.ok (.present n), t', s') => walk b n q t' s'
      | ended => ended := by
  unfold walk
  rw [lookupPath_append, run_bind, Run.serve_bind]
  obtain ⟨result, t', s'⟩ := ((lookupPath dir p).run t).serve b.attend s
  cases result with
  | error e => rfl
  | ok answer => cases answer <;> rfl

/-- Paths are looked up well from any object of any tree that has come about by operations which
report only objects, whatever such a backend answers. -/
theorem Admits.walksWell {σ : Type} {policy : CasePolicy} {config : TreeConfig} {root : FileId}
    {name : String} (h : Admits (ofRoot policy config root name) t) (hdir : t.Owns dir)
    (b : Responder σ) : WalksWell b t dir where
  joined p q s := walk_append b dir p q t s
  steps parts parts' s hparts := by
    rw [walk, lookupPath_intercalate_congr dir hparts]
    rfl
  missing p q t' s s' hp := by rw [walk_append, hp]
  file p q n t' s s' hp hn hq := by
    rw [walk_append, hp]
    dsimp only
    rw [walk, lookupPath, lookupNames_of_not_isDirectory hn hq]
    rfl
  enters p s := by
    have hpeopled := h.peopled (peopled_ofRoot policy config root name)
    have hfirst := rooted_ofRoot policy config root name
    have hgrounded := (stable_grounded policy _).happens h.happens
      ⟨rfl, rfl, hfirst.owns _ .root, hfirst.arrays⟩
    have hwalk := always_lookupNames_enters (trusts_idle t.policy t.config)
      ⟨hpeopled.tidy, rfl, rfl, hpeopled.objects⟩ ⟨hgrounded.2.2.2, hdir⟩ (components p)
    exact hwalk.attended b s

/-! ### A search that comes to a file -/

namespace Ladder

/-- The tree before anything happened. -/
def first : Tree := ofRoot .sensitive default ⟨1, FileId.raw_one_ne_zero⟩ "/"

/-- The identity of all that is found. -/
def rung : FileId := ⟨2, FileId.raw_two_ne_zero⟩

/-- A backend that has a file under every name, and says of the first few of them that they are
directories. -/
def backend : Responder Nat
  | .resolve _ _ _, few => (.ok (some rung), few)
  | .attributes _ _, few => (.ok (some { directory := 0 < few }), few - 1)
  | .canonical _ name, few => (.ok name, few)
  | .list _, few => (.ok [], few)
  | .nameOf _, few => (.ok none, few)

/-- What is said of all trees holds of the first one. If one name is that of a directory, then the
search for a path of four names stops at the second one. -/
theorem walksWell_first : Admits first first ∧ first.Owns first.root ∧
    (walk backend first.root "./a//b/c/./d" first (1, [])).2.2.2 =
      [.resolve first.root.id "a" .sensitive, .attributes first.root.id "a",
        .resolve rung "b" .sensitive, .attributes rung "b"] ∧
    WalksWell backend first first.root :=
  ⟨.refl _, (rooted_ofRoot _ _ _ _).owns _ .root, by decide +kernel,
    Admits.walksWell (.refl _) ((rooted_ofRoot _ _ _ _).owns _ .root) backend⟩

end Ladder

end Tree

end LazyTree
