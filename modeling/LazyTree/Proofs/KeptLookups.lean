import LazyTree.Proofs.ExactRegistry

set_option autoImplicit false

/-!
# Lookups and reports that leave the registry exact

As long as nothing else happens to the tree while the backend is asked, and attached nodes differ in
their identities, a lookup leaves the tree in order, whatever the backend answers: it adds at most
one child to one array, which it then makes to stand for its identity. Reports that a child came or
went leave the tree in order as well, and so does a check, which is made of both.

## Main definitions

* `LazyTree.Children.Gains` — a change of an array adds at most the child that it answers.
* `LazyTree.calm` — nothing happens while the backend is asked, and identities differ.
* `LazyTree.Tree.Looked` — what holds after a name was looked up.

## Main results

* `LazyTree.Tree.Kept.gain` — such a change leaves the tree in order.
* `LazyTree.Tree.Kept.findChild`, `LazyTree.Tree.Kept.lookupNames`,
  `LazyTree.Tree.Kept.findChildById` — so do lookups of names, of paths and of identities.
* `LazyTree.Tree.Kept.addChild`, `LazyTree.Tree.Kept.removeChild`,
  `LazyTree.Tree.Kept.clearChildren`, `LazyTree.Tree.Kept.markAllLoaded` — so do reports.
* `LazyTree.Tree.Kept.refreshAndFindChild` — so does a check.
-/

namespace LazyTree

/-- Nothing happens to the tree while the backend is asked, and attached nodes differ in their
identities. The backend may answer anything, and may fail. -/
def calm : World :=
  fun _ t _ t' => t' = t ∧ t.Distinct

/-- When nothing happens meanwhile, an operation that begins with a question goes on from the same
tree with any answer. -/
theorem TreeM.always_calm_ask {α : Type} {q : Query} {f : q.Reply → TreeM α} {t : Tree}
    {post : Except TreeError α → Tree → Prop} (herror : ∀ e, post (.error e) t)
    (h : ∀ reply, t.Distinct → ((f reply).run t).Always calm post) :
    ((ask q >>= f).run t).Always calm post := by
  refine always_ask_bind_iff.mpr ⟨?_, ?_⟩
  · rintro reply t' ⟨rfl, hdistinct⟩
    exact h reply hdistinct
  · rintro e t' ⟨rfl, -⟩
    exact herror _

/-- A lookup answers a child exactly if the child is known. -/
theorem Lookup.node?_ofKnowledge {k : Knowledge} {n : Node} :
    (Lookup.ofKnowledge k).node? = some n ↔ k = .present n := by
  cases k <;> simp [Lookup.ofKnowledge, Lookup.node?]

/-! ### Changes that add a child -/

namespace Children

/-- A change keeps all children, and adds none but the child that it answers, if it answers one. -/
structure Gains (c c' : Children) (answer : Option Node) : Prop where
  /-- All children are kept. -/
  keeps : ∀ n ∈ c.present, n ∈ c'.present
  /-- No other child is added. -/
  adds : ∀ n ∈ c'.present, n ∈ c.present ∨ answer = some n
  /-- The child that is answered is present. -/
  answered : ∀ n, answer = some n → n ∈ c'.present

variable {c : Children} {child n : Node}

/-- The children after an admissible change are those that the ledger knows. -/
theorem mem_present_apply (hc : c.Tidy) {op : Op} (hop : op.Admissible c.policy) :
    n ∈ (c.apply op).2.present ↔ (c.ledger.apply op).2.fact? n.name = some (.present n) := by
  have hfollows := apply_follows hc hop
  rw [Tree.mem_present_iff hfollows.tidy, hfollows.ledger]

/-- A change of the ledger that keeps all children, and adds none but the child that it answers, does
so to the array. -/
theorem gains_of_ledger (hc : c.Tidy) (op : Op) (hop : op.Admissible c.policy)
    {answer : Option Node}
    (hkeeps : ∀ name n, c.ledger.fact? name = some (.present n) →
      (c.ledger.apply op).2.fact? name = some (.present n))
    (hadds : ∀ name n, (c.ledger.apply op).2.fact? name = some (.present n) →
      c.ledger.fact? name = some (.present n) ∨ answer = some n)
    (hanswered : ∀ n, answer = some n →
      ∃ name, (c.ledger.apply op).2.fact? name = some (.present n)) :
    c.Gains (c.apply op).2 answer where
  keeps n hn := (mem_present_apply hc hop).mpr (hkeeps n.name n ((Tree.mem_present_iff hc).mp hn))
  adds n hn := (hadds n.name n ((mem_present_apply hc hop).mp hn)).imp_left
    (Tree.mem_present_iff hc).mpr
  answered n hn := by
    obtain ⟨name, hname⟩ := hanswered n hn
    have hfollows := apply_follows hc hop
    rw [← hfollows.ledger] at hname
    exact (Tree.mem_present_of_fact? hfollows.tidy hname).1

/-- Recording that a name is free adds no child. -/
theorem gains_insertAbsent (hc : c.Tidy) (name : String) :
    c.Gains (c.apply (.insertAbsent name)).2 none :=
  gains_of_ledger hc (.insertAbsent name) trivial
    (fun _ _ hn => Ledger.present_insertAbsent.mpr hn)
    (fun _ _ hn => .inl (Ledger.present_insertAbsent.mp hn)) nofun

/-- Declaring the children to be all there are adds none. -/
theorem gains_markAllLoaded (hc : c.Tidy) : c.Gains (c.apply .markAllLoaded).2 none :=
  gains_of_ledger hc .markAllLoaded trivial (fun _ _ hn => Ledger.present_markAllLoaded.mpr hn)
    (fun _ _ hn => .inl (Ledger.present_markAllLoaded.mp hn)) nofun

/-- Inserting a child adds at most the child that is answered. -/
theorem gains_insert (hc : c.Tidy) (child : Node) :
    c.Gains (c.apply (.insert child)).2 (some (c.ledger.insert child).1) := by
  refine gains_of_ledger hc (.insert child) trivial (fun _ _ => Ledger.insert_keeps)
    (fun name n hn => ?_) ?_
  · rcases Ledger.present_insert hn with hold | ⟨rfl, hanswer⟩
    · exact .inl hold
    · exact .inr (congrArg some hanswer)
  · rintro n ⟨⟩
    exact ⟨child.name, Ledger.insert_answered⟩

/-- Inserting a child where its name is unknown adds at most the child that is answered. -/
theorem gains_insertIfUnknown (hc : c.Tidy) (child : Node) :
    c.Gains (c.apply (.insertIfUnknown child)).2
      (Lookup.ofKnowledge (c.ledger.insertIfUnknown child).1).node? := by
  refine gains_of_ledger hc (.insertIfUnknown child) trivial
    (fun _ _ => Ledger.insertIfUnknown_keeps) (fun name n hn => ?_) fun n hn =>
      ⟨child.name, Ledger.insertIfUnknown_answered (Lookup.node?_ofKnowledge.mp hn)⟩
  rcases Ledger.present_insertIfUnknown hn with hold | ⟨rfl, hanswer⟩
  · exact .inl hold
  · exact .inr (Lookup.node?_ofKnowledge.mpr hanswer)

/-- A child that is there after a change was there before, or was offered. -/
theorem mem_present_or_offered {op : Op} (hc : c.Tidy) (hop : op.Admissible c.policy)
    (hn : n ∈ (c.apply op).2.present) : n ∈ c.present ∨ n ∈ op.offered := by
  rw [mem_present_apply hc hop] at hn
  have hold : c.ledger.fact? n.name = some (.present n) → n ∈ c.present :=
    (Tree.mem_present_iff hc).mpr
  cases op with
  | insert child =>
    exact (Ledger.present_insert hn).imp hold fun ⟨heq, _⟩ => List.mem_singleton.mpr heq
  | insertIfUnknown child =>
    exact (Ledger.present_insertIfUnknown hn).imp hold fun ⟨heq, _⟩ => List.mem_singleton.mpr heq
  | insertAbsent name => exact .inl (hold (Ledger.present_insertAbsent.mp hn))
  | remove child remember => exact .inl (hold (Ledger.present_remove hn))
  | markAllLoaded => exact .inl (hold (Ledger.present_markAllLoaded.mp hn))
  | clear => cases hn
  | install listing generation =>
    simp only [Ledger.apply, Ledger.install] at hn
    split at hn
    · exact .inl (hold hn)
    · obtain ⟨m, hm, heq⟩ := Option.map_eq_some_iff.mp hn
      cases heq
      exact .inr (List.mem_of_find?_eq_some hm)

/-- What an array knows after one of its children was removed: the listing is as complete as it was,
the name of the child is recorded as absent if that is wanted and tells more, and all other children
are there. -/
theorem known_after_remove {m : Node} (hc : c.Tidy) (hm : m ∈ c.present) (remember : Bool) :
    (c.remove m remember).2.allLoaded = c.allLoaded ∧
      (c.remove m remember).2.ledger.fact? m.name =
        (if remember && !c.allLoaded then some .absent else none) ∧
      ∀ n ∈ c.present, n ≠ m → n ∈ (c.remove m remember).2.present := by
  have hop : Op.Admissible c.policy (.remove m remember) := trivial
  have hledger : (c.remove m remember).2.ledger = (c.ledger.remove m remember).2 :=
    (apply_follows hc hop).ledger
  have hfact := (Tree.mem_present_iff hc).mp hm
  refine ⟨?_, ?_, fun n hn hne => ?_⟩
  · refine (congrArg Ledger.complete hledger).trans ?_
    rw [Ledger.remove_of_known hfact]
    rfl
  · rw [hledger, Ledger.fact?_remove, hfact]
    exact if_pos rfl
  · refine (mem_present_apply hc hop).mpr ((Ledger.present_remove_iff hfact remember).mpr ?_)
    have hknown := (Tree.mem_present_iff hc).mp hn
    refine ⟨hknown, fun hkey => hne ?_⟩
    -- names that are the same have one child
    rw [c.ledger.fact?_congr hkey, hfact] at hknown
    cases hknown
    rfl

end Children

namespace Tree

open TreeM

variable {t t' : Tree} {dir n : Node} {c : Children}

/-- A change that adds at most the child that it answers leaves the tree in order, if that child is
then made to stand for its identity. -/
theorem Kept.gain (h : t.Kept) (hdistinct : t.Distinct) (hdir : t.Attached dir)
    (hc : t.children? dir = some c) (op : Children.Op) (hop : op.Admissible c.policy)
    {answer : Option Node} (hgains : c.Gains (c.apply op).2 answer)
    (horigin : ∀ n, answer = some n → n ∈ c.present ∨ t.Spare dir n) :
    let t' := answer.toList.foldl register (t.setChildren dir (c.apply op).2)
    t.Tended t' answer.toList ∧ t'.Attached dir ∧ t'.children? dir = some (c.apply op).2 := by
  intro t'
  have hmem : ∀ n, n ∈ answer.toList ↔ answer = some n := fun n => by simp
  obtain ⟨t'', hrun, hafter⟩ := h.change hdistinct hdir hc op hop
    (fun n hn => (hgains.adds n hn).elim .inl (horigin n)) answer.toList []
    (fun n hn => hgains.answered n ((hmem n).mp hn))
    (fun n hn => (hgains.adds n hn).imp_right (hmem n).mpr)
    (fun n => ⟨nofun, fun ⟨hn, hout⟩ => absurd (hgains.keeps n hn) hout⟩)
  obtain rfl : t' = t'' := by
    injection hrun
  exact hafter

/-! ### Lookups -/

/-- What holds after a name of a directory was looked up: the tree is in order, the directory is
still attached, and a child that was found is in its array. -/
structure Looked (t : Tree) (dir : Node) (result : Except TreeError Lookup) (t' : Tree) :
    Prop where
  /-- The tree is in order. -/
  tended : t.Tended t' []
  /-- The directory is attached. -/
  attached : t'.Attached dir
  /-- A child that was found is in its array. -/
  present : ∀ n, result = .ok (.present n) → ∃ c, t'.children? dir = some c ∧ n ∈ c.present

/-- A lookup that found nothing new has left the tree in order. -/
theorem Kept.looked (h : t.Kept) (hdir : t.Attached dir) {result : Except TreeError Lookup}
    (hpresent : ∀ n, result = .ok (.present n) → ∃ c, t.children? dir = some c ∧ n ∈ c.present) :
    t.Looked dir result t :=
  ⟨h.tended, hdir, hpresent⟩

section Directory

variable (h : t.Kept) (hdistinct : t.Distinct) (hdir : t.Attached dir)
  (hc : t.children? dir = some c)
include h hdistinct hdir hc

/-- Recording that a name is free leaves the tree in order. -/
theorem Kept.recordMissing (name query : String) :
    ((recordAnswer dir name query none none).run t).Always calm (t.Looked dir) := by
  have htidy := (h.tidy dir c hc).2
  have hgains := Children.gains_insertAbsent htidy name
  obtain ⟨htended, hdir', hc'⟩ := h.gain hdistinct hdir hc (.insertAbsent name) trivial
    hgains nofun
  rw [run_recordAnswer_none h.tidy hc]
  refine ⟨htended, hdir', fun n hn => ⟨_, hc', hgains.keeps n ?_⟩⟩
  have hanswer : (c.ledger.insertAbsent name).1 = .present n := by
    refine Lookup.node?_ofKnowledge.mp ?_
    rw [Except.ok.inj hn]
    rfl
  exact (mem_present_of_fact? htidy (Ledger.insertAbsent_answered hanswer)).1

/-- Recording a child that was found leaves the tree in order. -/
theorem Kept.recordFound (name query : String) (id : FileId) (attributes : Attributes) :
    ((recordAnswer dir name query (some id) (some attributes)).run t).Always calm
      (t.Looked dir) := by
  have htidy := (h.tidy dir c hc).2
  have hmade : Made t (t.make dir id query attributes).2 := .make _ _ _ _ (.refl _)
  have htended := h.made hmade rfl
  have hspare := h.toRooted.spare_make (h.owns dir hdir) id query attributes
  have hdistinct' := hdistinct.made h.toRooted hmade
  have hattached := hmade.attached hdir
  have hc' := hmade.children? hc
  have hserial : (t.make dir id query attributes).1.serial = t.cells.size := rfl
  rw [run_recordAnswer_found h.tidy hc]
  generalize t.make dir id query attributes = made at *
  obtain ⟨child, t₁⟩ := made
  dsimp only at *
  have hgains := Children.gains_insertIfUnknown htidy child
  have horigin : ∀ n, (Lookup.ofKnowledge (c.ledger.insertIfUnknown child).1).node? = some n →
      n ∈ c.present ∨ n = child := by
    intro n hn
    have hknown := Ledger.insertIfUnknown_answered (Lookup.node?_ofKnowledge.mp hn)
    exact (Ledger.present_insertIfUnknown hknown).imp
      (fun hold => (mem_present_of_fact? htidy hold).1) And.left
  obtain ⟨htended', hdir', hchildren⟩ := htended.kept.gain hdistinct' hattached hc'
    (.insertIfUnknown child) trivial hgains
    fun n hn => (horigin n hn).imp_right fun hsame : n = child => hsame ▸ hspare
  have hafter := (htended.trans htended').unused hdir hc fun n hn =>
    (horigin n (by simpa using hn)).imp_right fun hsame : n = child =>
      hsame ▸ Nat.le_of_eq hserial.symm
  refine ⟨hafter, hdir', fun n hn => ⟨_, hchildren, hgains.answered n ?_⟩⟩
  rw [Except.ok.inj hn]
  rfl

end Directory

/-- Asking for a name leaves the tree in order. -/
theorem Kept.askFor (h : t.Kept) (hdir : t.AttachedDirectory dir) (name query : String)
    (policy : CasePolicy) :
    ((askFor dir name query policy).run t).Always calm (t.Looked dir) := by
  obtain ⟨c, hc⟩ := h.toRooted.exists_children hdir
  have hfailed : ∀ e, t.Looked dir (.error e) t := fun e => h.looked hdir.attached nofun
  refine always_calm_ask (fun e => hfailed _) fun id hdistinct => ?_
  cases id with
  | none => exact h.recordMissing hdistinct hdir.attached hc name query
  | some id =>
    refine always_calm_ask (fun e => hfailed _) fun attributes _ => ?_
    cases attributes with
    | none => exact h.recordMissing hdistinct hdir.attached hc name query
    | some attributes => exact h.recordFound hdistinct hdir.attached hc name query id attributes

/-- Looking a name up leaves the tree in order. -/
theorem Kept.findChild (h : t.Kept) (hdir : t.AttachedDirectory dir) (name : String)
    (canonicalize : Bool) :
    ((findChild dir name canonicalize).run t).Always calm (t.Looked dir) := by
  obtain ⟨c, hc⟩ := h.toRooted.exists_children hdir
  have htidy := (h.tidy dir c hc).2
  rw [run_findChild, hc]
  dsimp only
  split
  · next node hfound =>
    refine h.looked hdir.attached ?_
    rintro n ⟨⟩
    split at hfound
    · next hname =>
      rw [Children.find_of_isFileName htidy hname] at hfound
      exact ⟨c, hc, (mem_present_of_fact? htidy (Ledger.answer_eq_present_iff.mp hfound)).1⟩
    · cases hfound
  · exact h.looked hdir.attached nofun
  · split
    · exact always_calm_ask (fun e => h.looked hdir.attached nofun)
        fun query _ => h.askFor hdir name query t.policy
    · exact h.askFor hdir name name t.policy

/-- Looking a path up leaves the tree in order. -/
theorem Kept.lookupNames (h : t.Kept) (hdir : t.Attached dir) (names : List String) :
    ((lookupNames dir names).run t).Always calm fun _ t' => t.Tended t' [] := by
  induction names generalizing dir t with
  | nil => exact h.tended
  | cons name rest ih =>
    rw [Tree.lookupNames]
    split
    · next hdirectory =>
      have hdir' : (t.hold [dir]).AttachedDirectory dir := ⟨hdir.frame _ _, hdirectory⟩
      rw [run_bind, Run.always_bind_iff, run_holding, Run.always_settle_iff]
      refine ((h.hold [dir]).findChild hdir' name _).mono fun result t' hlooked => ?_
      have htended : t.Tended (t'.release [dir]) [] := hlooked.tended.release h
      cases result with
      | error e => exact htended
      | ok answer =>
        cases answer with
        | absent => exact htended
        | present next =>
          obtain ⟨c, hc, hn⟩ := hlooked.present next rfl
          have hnext : (t'.release [dir]).Attached next :=
            (Attached.child hlooked.attached hc hn).frame _ _
          exact (ih htended.kept hnext).mono fun _ _ hafter => htended.trans hafter
    · exact h.tended

/-- Looking for an identity leaves the tree in order. -/
theorem Kept.findChildById (h : t.Kept) (hdir : t.AttachedDirectory dir) (id : FileId)
    (cachedOnly : Bool) :
    ((findChildById dir id cachedOnly).run t).Always calm fun _ t' => t.Tended t' [] := by
  obtain ⟨c, hc⟩ := h.toRooted.exists_children hdir
  rw [Tree.findChildById, run_childrenOf_bind hc]
  split
  · exact h.tended
  · split
    · exact h.tended
    · refine always_calm_ask (fun e => h.tended) fun name _ => ?_
      cases name with
      | none => exact h.tended
      | some name =>
        dsimp only
        rw [run_bind, Run.always_bind_iff]
        refine (h.findChild hdir name false).mono fun result t' hlooked => ?_
        cases result <;> exact hlooked.tended

/-! ### Reports -/

section Reports

variable (h : t.Kept) (hdistinct : t.Distinct) (hdir : t.Attached dir)
  (hc : t.children? dir = some c)
include h hdistinct hdir hc

/-- Reporting that a child came leaves the tree in order. -/
theorem Kept.addChild (hn : t.Spare dir n) :
    ∃ node t', (addChild dir n).run t = .done (.ok node) t' ∧ t.Tended t' [n] := by
  have htidy := (h.tidy dir c hc).2
  have horigin : ∀ m, some (c.ledger.insert n).1 = some m → m ∈ c.present ∨ m = n := by
    rintro m ⟨⟩
    exact (Ledger.present_insert Ledger.insert_answered).imp
      (fun hold => (mem_present_of_fact? htidy hold).1) And.right
  obtain ⟨htended, -, -⟩ := h.gain hdistinct hdir hc (.insert n) trivial
    (Children.gains_insert htidy n)
    fun m hm => (horigin m hm).imp_right fun hsame : m = n => hsame ▸ hn
  refine ⟨_, _, run_addChild h.tidy hc n, htended.mono fun d m hm hused => ?_⟩
  rcases horigin m (congrArg some (List.mem_singleton.mp hused).symm) with hold | rfl
  · exact absurd rfl (hm.loose.apart m (.child hdir hc hold))
  · exact List.mem_singleton_self m

/-- Reporting that a child went leaves the tree in order. -/
theorem Kept.removeChild (hn : n ∈ c.present) :
    ∃ t', (removeChild dir n).run t = .done (.ok true) t' ∧ t.Tended t' [] ∧ t'.Attached dir := by
  have htidy := (h.tidy dir c hc).2
  have hop : Children.Op.Admissible c.policy (.remove n t.config.cacheRemovedNames) := trivial
  have hknown := (mem_present_iff htidy).mp hn
  have hleft : ∀ m, m ∈ (c.apply (.remove n t.config.cacheRemovedNames)).2.present ↔
      m ∈ c.present ∧ c.policy.key m.name ≠ c.policy.key n.name := by
    intro m
    rw [Children.mem_present_apply htidy hop, mem_present_iff htidy]
    exact Ledger.present_remove_iff hknown _
  obtain ⟨t', hrun, htended, hdir', -⟩ := h.change hdistinct hdir hc _ hop
    (fun m hm => .inl ((hleft m).mp hm).1) [] [n] nofun (fun m hm => .inl ((hleft m).mp hm).1)
    fun m => by
      rw [hleft, List.mem_singleton]
      constructor
      · rintro rfl
        exact ⟨hn, fun hleft => hleft.2 rfl⟩
      · rintro ⟨hm, hout⟩
        have hkey : c.policy.key m.name = c.policy.key n.name :=
          Classical.not_not.mp fun hne => hout ⟨hm, hne⟩
        have hfact := (mem_present_iff htidy).mp hm
        rw [c.ledger.fact?_congr hkey, hknown] at hfact
        cases hfact
        rfl
  refine ⟨t', ?_, htended, hdir'⟩
  have hremoved : (Tree.removeChild dir n).run t = _ := run_change_bind h.tidy hc hop _
  have hanswer : (c.ledger.apply (.remove n t.config.cacheRemovedNames)).1 = true :=
    congrArg Prod.fst (Ledger.remove_of_known hknown _)
  rw [hremoved, hanswer]
  exact congrArg (Run.bind · _) hrun

/-- Forgetting the children leaves the tree in order. -/
theorem Kept.clearChildren :
    ∃ t', (clearChildren dir).run t = .done (.ok ()) t' ∧ t.Tended t' [] := by
  have htidy := (h.tidy dir c hc).2
  have hop : Children.Op.Admissible c.policy .clear := trivial
  have hnone : ∀ m, m ∉ (c.apply .clear).2.present := by
    intro m hm
    rw [Children.mem_present_apply htidy hop] at hm
    cases hm
  have hheld := h.hold c.present
  have hc' : (t.hold c.present).children? dir = some c := hc
  obtain ⟨t', hrun, htended, -⟩ := hheld.change (hdistinct.frame _ _) (hdir.frame _ _) hc' .clear
    hop (fun m hm => absurd hm (hnone m)) [] c.present nofun (fun m hm => absurd hm (hnone m))
    fun m => (and_iff_left (hnone m)).symm
  have hcleared : (do Tree.change dir Children.clear
                      unregisterSubtrees c.present : TreeM Unit).run (t.hold c.present) = _ :=
    run_change_bind hheld.tidy hc' hop fun _ => unregisterSubtrees c.present
  refine ⟨t'.release c.present, ?_, htended.release h⟩
  rw [Tree.clearChildren, run_childrenOf_bind hc, run_holding, hcleared]
  exact congrArg (Run.settle _) hrun

/-- Declaring the children to be all there are leaves the tree in order. -/
theorem Kept.markAllLoaded :
    ∃ t', (markAllLoaded dir).run t = .done (.ok ()) t' ∧ t.Tended t' [] := by
  have hop : Children.Op.Admissible c.policy .markAllLoaded := trivial
  obtain ⟨htended, -⟩ := h.gain hdistinct hdir hc .markAllLoaded hop
    (Children.gains_markAllLoaded (h.tidy dir c hc).2) nofun
  have hrun := run_change_of_tidy h.tidy hc hop
  exact ⟨_, hrun, htended⟩

end Reports

/-! ### Checks -/

/-- Making a child and reporting that it came leaves the tree in order. -/
theorem Kept.addNew (h : t.Kept) (hdistinct : t.Distinct) (hdir : t.Attached dir)
    (hc : t.children? dir = some c) (id : FileId) (name : String) (attributes : Attributes) :
    ∃ node t', (newChild dir id name attributes >>= Tree.addChild dir).run t =
      .done (.ok node) t' ∧ t.Tended t' [] := by
  have hmade : Made t (t.make dir id name attributes).2 := .make _ _ _ _ (.refl _)
  have htended := h.made hmade rfl
  obtain ⟨node, t', hrun, htended'⟩ := htended.kept.addChild (hdistinct.made h.toRooted hmade)
    (hmade.attached hdir) (hmade.children? hc)
    (h.toRooted.spare_make (h.owns dir hdir) id name attributes)
  refine ⟨node, t', ?_, (htended.trans htended').unused hdir hc fun n hn => .inr ?_⟩
  · rw [run_bind, run_newChild, Run.bind_done_ok, hrun]
  · rw [List.mem_singleton.mp hn]
    exact Nat.le_refl t.cells.size

/-- Adding a child that the backend has leaves the tree in order. -/
theorem Kept.materializeCreated (h : t.Kept) (hdir : t.AttachedDirectory dir) (name : String) :
    ((materializeCreated dir name).run t).Always calm fun _ t' => t.Tended t' [] := by
  obtain ⟨c, hc⟩ := h.toRooted.exists_children hdir
  unfold Tree.materializeCreated
  split
  · exact h.tended
  · refine always_calm_ask (fun e => h.tended) fun attributes _ => ?_
    cases attributes with
    | none => exact h.tended
    | some attributes =>
      refine always_calm_ask (fun e => h.tended) fun spelling _ => ?_
      rw [run_bind, run_get, Run.bind_done_ok]
      refine always_calm_ask (fun e => h.tended) fun id hdistinct => ?_
      cases id with
      | none => exact h.tended
      | some id =>
        obtain ⟨node, t', hrun, htended⟩ := h.addNew hdistinct hdir.attached hc id spelling
          attributes
        show ((newChild dir id spelling attributes >>= fun child =>
          some <$> Tree.addChild dir child).run t).Always calm _
        have hmapped : (newChild dir id spelling attributes >>= fun child =>
            some <$> Tree.addChild dir child).run t = .done (.ok (some node)) t' :=
          congrArg (Run.bind · fun a => (pure (some a) : TreeM (Option Node)).run) hrun
        rw [hmapped]
        exact htended

/-- Checking a child leaves the tree in order. -/
theorem Kept.recheck (h : t.Kept) (hdir : t.AttachedDirectory dir)
    (hc : t.children? dir = some c) (hn : n ∈ c.present) :
    ((recheck dir n).run t).Always calm fun _ t' => t.Tended t' [] := by
  refine always_calm_ask (fun e => h.tended) fun attributes hdistinct => ?_
  obtain ⟨t', hrun, htended, hdir'⟩ := h.removeChild hdistinct hdir.attached hc hn
  cases attributes with
  | none =>
    dsimp only
    rw [run_bind, hrun]
    exact htended
  | some attributes =>
    dsimp only
    split
    · exact h.tended
    · rw [run_bind, hrun]
      exact (htended.kept.materializeCreated ⟨hdir', hdir.isDirectory⟩ n.name).mono
        fun _ _ hafter => htended.trans hafter

/-- Looking a name up and checking the answer leaves the tree in order. -/
theorem Kept.refreshAndFindChild (h : t.Kept) (hdir : t.AttachedDirectory dir) (name : String) :
    ((refreshAndFindChild dir name).run t).Always calm fun _ t' => t.Tended t' [] := by
  unfold Tree.refreshAndFindChild
  rw [run_bind, Run.always_bind_iff]
  refine (h.findChild hdir name true).mono fun result t' hlooked => ?_
  obtain ⟨htended, hdir', hpresent⟩ := hlooked
  cases result with
  | error e => exact htended
  | ok answer =>
    cases answer with
    | absent =>
      exact (htended.kept.materializeCreated ⟨hdir', hdir.isDirectory⟩ name).mono
        fun _ _ hafter => htended.trans hafter
    | present node =>
      obtain ⟨c, hc, hn⟩ := hpresent node rfl
      show ((TreeM.holding [node] (Tree.recheck dir node)).run t').Always calm _
      rw [run_holding, Run.always_settle_iff]
      exact ((htended.kept.hold [node]).recheck ⟨hdir'.frame _ _, hdir.isDirectory⟩ hc hn).mono
        fun _ _ hafter => htended.trans (hafter.release htended.kept)

end Tree

end LazyTree
