import LazyTree.Proofs.GradedTrees
import LazyTree.Proofs.Lineages
import LazyTree.Proofs.Traffic

set_option autoImplicit false

/-!
# Children of one directory

If a directory is given only children that were made for it, then the arrays form a forest. No
object is in two arrays, or twice in one; the root is in none; and no directory is below itself, as
every object is younger than the one that it was made for. So the walks over what is cached below an
object have an end, and meet no object twice.

What was made for what is known to whoever works with the tree: a new node is answered to those who
asked for it, a listing answers the nodes of the directory, and whatever is in the array of a
directory was made for it. All this may be used later, for the report of a child that is new, or was
removed, any number of times. Meanwhile other operations may be under way, such as the one during
which a hook of the backend makes the report.

## Main definitions

* `LazyTree.Household` — a tree, the operations that wait, and what is known to be made for what.
* `LazyTree.Household.Step` — what happens next, as long as only children of a directory are
  reported to it.
* `LazyTree.Household.Reared` — all nodes are with what they were made for.
* `LazyTree.Tree.Forest` — the arrays form a forest.

## Main results

* `LazyTree.Household.Reared.step` — steps leave nodes with what they were made for.
* `LazyTree.Tree.Descended.eq_of_beneath_siblings` — nothing is below two children of a directory.
* `LazyTree.Tree.Descended.nodup_of_below?` — a walk meets no object twice.
* `LazyTree.Household.Reached.forest` — the arrays form a forest, whatever happens.
-/

namespace LazyTree

/-! ### Steps -/

/-- A tree, the operations that wait, and what is known to be made for what. -/
structure Household where
  /-- The tree. -/
  tree : Tree
  /-- The operations that wait, each with the directory for which the nodes of its answer are made,
  if there is one. -/
  waiting : List (Option Node × Waiting)
  /-- Directories with nodes that are known to be made for them. -/
  kin : List (Node × Node)

namespace Household

/-- A tree that holds nothing but its root. -/
def start (policy : CasePolicy) (config : TreeConfig) (root : FileId) (name : String) : Household :=
  ⟨.ofRoot policy config root name, [], []⟩

/-- What an answer tells. -/
def told (parent? : Option Node) : Ending → List (Node × Node)
  | .ok reply => parent?.toList.flatMap fun dir => reply.members.map fun n => (dir, n)
  | .error _ => []

/-- An operation goes on until it ends or waits. -/
def proceed (s : Household) (parent? : Option Node) : Run (StepReply Node) → Household
  | .done outcome t => { s with tree := t, kin := told parent? outcome ++ s.kin }
  | .ask q t resume => { s with tree := t, waiting := (parent?, ⟨q, resume⟩) :: s.waiting }

/-- What happens next. A child is reported to a directory only if it is known to be made for it. -/
inductive Step : Household → Household → Prop where
  /-- An operation on an object begins. -/
  | begin (s : Household) (handles : Handles) (on : Operands) (command : Command)
    (owns : s.tree.Owns on.dir) (added : command = .addChild → (on.dir, on.child) ∈ s.kin) :
    Step s (s.proceed (command.parent? on) ((command.run handles on).run s.tree))
  /-- An operation that waits gets some answer. -/
  | answer (s : Household) (index : Nat) (parent? : Option Node) (w : Waiting)
    (reply : Except BackendError w.query.Reply) (waits : s.waiting[index]? = some (parent?, w)) :
    Step s (({ s with waiting := s.waiting.eraseIdx index } : Household).proceed parent?
      (w.resume reply s.tree))
  /-- Other objects are held. -/
  | hold (s : Household) (held : List Nat) :
    Step s { s with tree := { s.tree with held := held } }
  /-- A node is met in the array of an object. -/
  | meet (s : Household) (dir n : Node) (c : Children) (owns : s.tree.Owns dir)
    (known : s.tree.children? dir = some c) (present : n ∈ c.present) :
    Step s { s with kin := (dir, n) :: s.kin }

/-- What may become of the tree that holds nothing but its root. -/
def Reached (policy : CasePolicy) (config : TreeConfig) (root : FileId) (name : String) :
    Household → Prop :=
  Relation.ReflTransGen Step (start policy config root name)

/-! ### What steps keep -/

/-- As a lineage says, the nodes in arrays were made for the directories of the arrays, what is
known of others is true, and the operations that wait will go on like that. -/
structure Reared (policy : CasePolicy) (K : Lineage) (s : Household) : Prop where
  /-- Nodes in arrays were made for their directories. -/
  descended : s.tree.Descended policy K
  /-- What is known is true. -/
  kin : ∀ pair ∈ s.kin, K.made pair.1.serial pair.2
  /-- Operations will go on like that. -/
  waiting : ∀ w ∈ s.waiting, ∀ reply K' t, K ≤ K' → t.Descended policy K' →
    (w.2.resume reply t).Rears policy (fun K'' => K''.Begot w.1) K'

variable {policy : CasePolicy} {K : Lineage} {s s' : Household}

/-- Before anything has happened, there is nothing but the root. -/
theorem reared_start (policy : CasePolicy) (config : TreeConfig) (root : FileId) (name : String) :
    (start policy config root name).Reared policy .start := by
  refine ⟨⟨⟨Tree.tidy_ofRoot policy config root name, rfl⟩, rfl, Nat.le_refl 1, nofun, nofun,
    nofun, fun dir c n hc hn => ?_⟩, List.forall_mem_nil _, List.forall_mem_nil _⟩
  rw [Tree.present_of_ofRoot hc] at hn
  cases hn

/-- What an answer tells is true if its nodes were made for the directory. -/
theorem made_of_mem_told {parent? : Option Node} {outcome : Ending}
    (h : ∀ reply, outcome = .ok reply → K.Begot parent? reply) {pair : Node × Node}
    (hpair : pair ∈ told parent? outcome) : K.made pair.1.serial pair.2 := by
  cases outcome with
  | error e => cases hpair
  | ok reply =>
    obtain ⟨dir, hdir, hpair⟩ := List.mem_flatMap.mp hpair
    obtain ⟨n, hn, rfl⟩ := List.mem_map.mp hpair
    exact h reply rfl dir (Option.mem_toList.mp hdir) n hn

/-- More may be known, and another tree may be there. -/
theorem Reared.later {t : Tree} {K' : Lineage} (h : s.Reared policy K) (hle : K ≤ K')
    (ht : t.Descended policy K') : ({ s with tree := t } : Household).Reared policy K' where
  descended := ht
  kin pair hpair := hle.2 _ _ (h.kin pair hpair)
  waiting w hw reply K'' t' hle' := h.waiting w hw reply K'' t' (hle.trans hle')

/-- An operation that leaves nodes with what they were made for goes on beside others that do. -/
theorem Reared.proceed {parent? : Option Node} {operation : Run (StepReply Node)} {K' : Lineage}
    (h : s.Reared policy K) (hle : K ≤ K')
    (hrears : operation.Rears policy (fun K'' => K''.Begot parent?) K') :
    ∃ K'', (s.proceed parent? operation).Reared policy K'' := by
  cases operation with
  | done outcome t =>
    obtain ⟨K'', hle', ht, hend⟩ := hrears
    have hafter := h.later (hle.trans hle') ht
    refine ⟨K'', ht, fun pair hpair => ?_, hafter.waiting⟩
    exact (List.mem_append.mp hpair).elim (made_of_mem_told hend) (hafter.kin pair)
  | ask q t resume =>
    obtain ⟨K'', hle', ht, hresume⟩ := hrears
    have hafter := h.later (hle.trans hle') ht
    exact ⟨K'', ht, hafter.kin, List.forall_mem_cons.mpr ⟨hresume, hafter.waiting⟩⟩

/-- Steps leave nodes with what they were made for. -/
theorem Reared.step (h : s.Reared policy K) (hstep : s.Step s') :
    ∃ K', s'.Reared policy K' := by
  cases hstep with
  | begin handles on command howns hadded =>
    have hle : K ≤ K.count s.tree.cells.size := ⟨h.descended.objects, fun _ _ hn => hn⟩
    exact h.proceed hle (Tree.rears_command (K := K.count s.tree.cells.size) handles howns.serial_lt
      command (fun hadd => h.kin _ (hadded hadd)) _ _ le_rfl h.descended.count)
  | answer index parent? w reply hwaits =>
    have hmem : (parent?, w) ∈ s.waiting := List.mem_of_getElem? hwaits
    have hrest : ({ s with waiting := s.waiting.eraseIdx index } : Household).Reared policy K :=
      ⟨h.descended, h.kin, fun w' hw' => h.waiting w' (List.mem_of_mem_eraseIdx hw')⟩
    exact hrest.proceed le_rfl (h.waiting _ hmem reply K s.tree le_rfl h.descended)
  | hold held => exact ⟨K, h.later le_rfl (h.descended.frame s.tree.registry held)⟩
  | meet dir n c howns hc hn =>
    exact ⟨K, h.descended, List.forall_mem_cons.mpr
      ⟨h.descended.children dir c n hc hn, h.kin⟩, h.waiting⟩

/-- Whatever happens, all nodes stay with what they were made for. -/
theorem Reached.reared {config : TreeConfig} {root : FileId} {name : String}
    (h : Reached policy config root name s) : ∃ K, s.Reared policy K := by
  induction h with
  | refl => exact ⟨_, reared_start policy config root name⟩
  | tail _ hstep ih =>
    obtain ⟨K, hK⟩ := ih
    exact hK.step hstep

end Household

/-! ### Forests -/

namespace Tree

open TreeM

/-- The arrays form a forest, and walks over it have an end. -/
structure Forest (t : Tree) : Prop where
  /-- No object is twice in one array. -/
  once : ∀ dir c, t.children? dir = some c → (c.present.map Node.serial).Nodup
  /-- No object is in two arrays. -/
  alone : ∀ dir dir' c c' n n', t.children? dir = some c → t.children? dir' = some c' →
    n ∈ c.present → n' ∈ c'.present → n.serial = n'.serial → dir.serial = dir'.serial
  /-- The root is in none. -/
  root : ∀ dir c n, t.children? dir = some c → n ∈ c.present → n.serial ≠ t.root.serial
  /-- No directory is below any of its children. -/
  acyclic : ∀ dir c n m, t.children? dir = some c → n ∈ c.present → t.Beneath n m →
    m.serial ≠ dir.serial
  /-- The walk from any object has an end, and meets exactly what is below it, no object twice. -/
  walk : ∀ n, t.Owns n → ∃ met, t.subtree? n = some met ∧ met.Nodup ∧
    ∀ serial, serial ∈ met ↔ ∃ m, t.Beneath n m ∧ m.serial = serial
  /-- So the entries of what is below any object can be dropped. -/
  unregisters : ∀ n, t.Owns n → ∃ t', (unregisterSubtrees [n]).run t = .done (.ok ()) t'
  /-- And all of it can be said to need a refresh. -/
  marks : ∀ n, t.Owns n → ∃ t', (markDirtyRecursively n).run t = .done (.ok ()) t'

variable {policy : CasePolicy} {K : Lineage} {t : Tree} {dir dir' top a b n m : Node}
  {c c' : Children}

/-- In a graded tree everything below an object is younger, or is the object itself. -/
theorem Graded.serial_le (h : t.Graded) (hn : t.Beneath top n) : top.serial ≤ n.serial := by
  induction hn with
  | top => exact Nat.le_refl _
  | child _ hc hn ih => exact Nat.le_trans ih (Nat.le_of_lt (h.younger _ _ _ hc hn).later)

namespace Descended

variable (h : t.Descended policy K)
include h

/-- Children are younger than their directories. -/
theorem graded : t.Graded where
  tidy := h.tidy.1
  younger dir c n hc hn := by
    have hmade := h.children dir c n hc hn
    exact ⟨h.owns _ n hmade, h.later _ n hmade⟩

/-- What is below an object is an object. -/
theorem owns_of_beneath (htop : t.Owns top) (hn : t.Beneath top n) : t.Owns n :=
  (h.graded.branch htop).owns n hn

/-- A node is in the array of one object only. -/
theorem serial_eq (hc : t.children? dir = some c) (hn : n ∈ c.present)
    (hc' : t.children? dir' = some c') (hn' : n ∈ c'.present) : dir.serial = dir'.serial :=
  h.single _ _ n (h.children dir c n hc hn) (h.children dir' c' n hc' hn')

/-- What is below two objects is so because one of them is below the other. -/
theorem beneath_or_beneath (ha : t.Owns a) (hb : t.Owns b) (hna : t.Beneath a n)
    (hnb : t.Beneath b n) : t.Beneath a b ∨ t.Beneath b a := by
  induction hna with
  | top => exact .inr hnb
  | @child d n c hda hc hn ih =>
    cases hnb with
    | top => exact .inl (.child hda hc hn)
    | @child d' _ c' hdb hc' hn' =>
      have hsame : d' = d := (h.owns_of_beneath hb hdb).eq_of_serial (h.owns_of_beneath ha hda)
        (h.serial_eq hc' hn' hc hn)
      exact ih (hsame ▸ hdb)

/-- No child of a directory is below another one. -/
theorem eq_of_beneath_sibling (hc : t.children? dir = some c) (ha : a ∈ c.present)
    (hb : b ∈ c.present) (hab : t.Beneath a b) : a = b := by
  cases hab with
  | top => rfl
  | @child d _ c' had hc' hb' =>
    have hsame := h.serial_eq hc' hb' hc hb
    have hbelow := h.graded.serial_le had
    have hyounger := (h.graded.younger dir c a hc ha).later
    omega

/-- Nothing is below two children of a directory. -/
theorem eq_of_beneath_siblings (hc : t.children? dir = some c) (ha : a ∈ c.present)
    (hb : b ∈ c.present) (hna : t.Beneath a n) (hnb : t.Beneath b n) : a = b := by
  have howns : ∀ m ∈ c.present, t.Owns m := fun m hm => (h.graded.younger dir c m hc hm).owns
  rcases h.beneath_or_beneath (howns a ha) (howns b hb) hna hnb with hab | hba
  · exact h.eq_of_beneath_sibling hc ha hb hab
  · exact (h.eq_of_beneath_sibling hc hb ha hba).symm

/-- No object is twice in an array. -/
theorem nodup_present (hc : t.children? dir = some c) : (c.present.map Node.serial).Nodup := by
  have hnames : c.present.Nodup := by
    refine (h.tidy.1 dir c hc).2.ascending_present.imp ?_
    rintro a _ hbefore rfl
    exact hbefore.key_ne rfl
  refine List.Nodup.map_on (fun a ha b hb hsame => ?_) hnames
  exact (h.graded.younger dir c a hc ha).owns.eq_of_serial (h.graded.younger dir c b hc hb).owns
    hsame

end Descended

/-- The numbers of the children of an object are those of the nodes in its array, in their order. -/
theorem Tidy.childSerials_eq (ht : t.Tidy) (hc : t.children? n = some c) :
    t.childSerials n.serial = c.present.map Node.serial := by
  have hsame : (t.cells[n.serial]?).bind Cell.children = some c := hc
  obtain ⟨ps, as, hslots, -, -⟩ := Zones.tidy_iff.mp (ht n c hc).2
  have hps : (ps.map Slot.present).filterMap (fun slot => slot.child?.map Node.serial) =
      ps.map Node.serial := by
    rw [List.filterMap_map]
    exact congrFun List.filterMap_eq_map ps
  have has : (as.map Slot.absent).filterMap (fun slot => slot.child?.map Node.serial) = [] := by
    simp [Slot.child?]
  rw [childSerials, hsame, Children.present, hslots, Zones.children_ofParts]
  dsimp only
  rw [hslots, Zones.toList_ofParts, List.filterMap_append, hps, has, List.append_nil]

/-- Each list that a walk from a list gave was met from one of its elements. -/
theorem exists_of_mem_of_mapM_eq_some {walk : Nat → Option (List Nat)} {serials : List Nat}
    {lists : List (List Nat)} (h : serials.mapM walk = some lists) {met : List Nat}
    (hmet : met ∈ lists) : ∃ serial ∈ serials, walk serial = some met := by
  induction serials generalizing lists with
  | nil =>
    obtain rfl : [] = lists := Option.some.inj h
    cases hmet
  | cons first rest ih =>
    rw [List.mapM_cons] at h
    obtain ⟨part, hfirst, h⟩ := Option.bind_eq_some_iff.mp h
    obtain ⟨parts, hrest, h⟩ := Option.bind_eq_some_iff.mp h
    obtain rfl : part :: parts = lists := Option.some.inj h
    rcases List.mem_cons.mp hmet with rfl | hmet
    · exact ⟨first, List.mem_cons_self, hfirst⟩
    · obtain ⟨serial, hserial, hwalk⟩ := ih hrest hmet
      exact ⟨serial, List.mem_cons_of_mem _ hserial, hwalk⟩

/-- Walks from the elements of a list that meet nothing twice, and nothing that another one meets,
meet nothing twice together. -/
theorem nodup_flatten_of_mapM {walk : Nat → Option (List Nat)} {serials : List Nat}
    {lists : List (List Nat)} (h : serials.mapM walk = some lists) (hserials : serials.Nodup)
    (hmet : ∀ serial ∈ serials, ∀ met, walk serial = some met → met.Nodup)
    (hapart : ∀ serial ∈ serials, ∀ serial' ∈ serials, ∀ met met', walk serial = some met →
      walk serial' = some met' → ∀ k, k ∈ met → k ∈ met' → serial = serial') :
    lists.flatten.Nodup := by
  induction serials generalizing lists with
  | nil =>
    obtain rfl : [] = lists := Option.some.inj h
    exact List.nodup_nil
  | cons first rest ih =>
    rw [List.mapM_cons] at h
    obtain ⟨met, hfirst, h⟩ := Option.bind_eq_some_iff.mp h
    obtain ⟨mets, hrest, h⟩ := Option.bind_eq_some_iff.mp h
    obtain rfl : met :: mets = lists := Option.some.inj h
    obtain ⟨hnew, hserials⟩ := List.nodup_cons.mp hserials
    have hlater := ih hrest hserials
      (fun serial hserial => hmet serial (List.mem_cons_of_mem _ hserial))
      fun serial hserial serial' hserial' =>
        hapart serial (List.mem_cons_of_mem _ hserial) serial' (List.mem_cons_of_mem _ hserial')
    refine List.nodup_append.mpr ⟨hmet first List.mem_cons_self met hfirst, hlater,
      fun k hk k' hk' hsame => ?_⟩
    subst hsame
    -- what is met again is met from another element
    obtain ⟨part, hpart, hkpart⟩ := List.mem_flatten.mp hk'
    obtain ⟨serial, hserial, hwalk⟩ := exists_of_mem_of_mapM_eq_some hrest hpart
    exact hnew (hapart first List.mem_cons_self serial (List.mem_cons_of_mem _ hserial) met part
      hfirst hwalk k hk hkpart ▸ hserial)

namespace Descended

/-- A walk meets no object twice.

**Proof sketch.** By induction on how deep the walk may go. What is met from the children is younger
than the object that it began with, and nothing is met from two of them. -/
theorem nodup_of_below? (h : t.Descended policy K) (htop : t.Owns top) {depth : Nat}
    {met : List Nat} (hmet : t.below? depth top.serial = some met) : met.Nodup := by
  induction depth generalizing top met with
  | zero => cases hmet
  | succ depth ih =>
    rw [below?] at hmet
    obtain ⟨lists, hlists, hmet⟩ := Option.bind_eq_some_iff.mp hmet
    obtain rfl : top.serial :: lists.flatten = met := Option.some.inj hmet
    cases hc : t.children? top with
    | none =>
      have hnone : t.childSerials top.serial = [] := by
        have hsame : (t.cells[top.serial]?).bind Cell.children = none := hc
        rw [childSerials, hsame]
      rw [hnone] at hlists
      obtain rfl : [] = lists := Option.some.inj hlists
      exact List.nodup_singleton _
    | some c =>
      rw [h.tidy.1.childSerials_eq hc] at hlists
      have hchild : ∀ serial ∈ c.present.map Node.serial, ∃ m ∈ c.present, m.serial = serial :=
        fun serial hserial => List.mem_map.mp hserial
      have howns : ∀ m ∈ c.present, t.Owns m := fun m hm => (h.graded.younger top c m hc hm).owns
      refine List.nodup_cons.mpr ⟨fun htwice => ?_, nodup_flatten_of_mapM hlists
        (h.nodup_present hc) (fun serial hserial met hmet => ?_)
        fun serial hserial serial' hserial' met met' hmet hmet' k hk hk' => ?_⟩
      · obtain ⟨part, hpart, htwice⟩ := List.mem_flatten.mp htwice
        obtain ⟨serial, hserial, hwalk⟩ := exists_of_mem_of_mapM_eq_some hlists hpart
        obtain ⟨m, hm, rfl⟩ := hchild serial hserial
        obtain ⟨n, hn, hnserial⟩ := exists_beneath_of_below? h.tidy.1 hwalk htwice
        have hbelow := h.graded.serial_le hn
        have hyounger := (h.graded.younger top c m hc hm).later
        omega
      · obtain ⟨m, hm, rfl⟩ := hchild serial hserial
        exact ih (howns m hm) hmet
      · obtain ⟨m, hm, rfl⟩ := hchild serial hserial
        obtain ⟨m', hm', rfl⟩ := hchild serial' hserial'
        obtain ⟨n, hn, rfl⟩ := exists_beneath_of_below? h.tidy.1 hmet hk
        obtain ⟨n', hn', hsame⟩ := exists_beneath_of_below? h.tidy.1 hmet' hk'
        obtain rfl : n' = n := (h.owns_of_beneath (howns m' hm') hn').eq_of_serial
          (h.owns_of_beneath (howns m hm) hn) hsame
        rw [h.eq_of_beneath_siblings hc hm hm' hn hn']

/-- The arrays form a forest. -/
theorem isForest (h : t.Descended policy K) : t.Forest := by
  have hwalk : ∀ n, t.Owns n → ∃ met, t.subtree? n = some met ∧ met.Nodup ∧
      ∀ serial, serial ∈ met ↔ ∃ m, t.Beneath n m ∧ m.serial = serial := by
    intro n hn
    obtain ⟨met, hmet, hiff⟩ := (h.graded.branch hn).exists_subtree? h.tidy.1
    exact ⟨met, hmet, h.nodup_of_below? hn hmet, hiff⟩
  refine ⟨fun _ _ hc => h.nodup_present hc, fun dir dir' c c' n n' hc hc' hn hn' hsame => ?_,
    fun dir c n hc hn => ?_, fun dir c n m hc hn hm => ?_, hwalk, fun n hn => ?_, fun n hn => ?_⟩
  · obtain rfl : n = n' := (h.graded.younger dir c n hc hn).owns.eq_of_serial
      (h.graded.younger dir' c' n' hc' hn').owns hsame
    exact h.serial_eq hc hn hc' hn'
  · have hyounger := (h.graded.younger dir c n hc hn).later
    rw [h.root]
    omega
  · have hyounger := (h.graded.younger dir c n hc hn).later
    have hbelow := h.graded.serial_le hm
    omega
  · obtain ⟨met, hmet, -⟩ := hwalk n hn
    refine ⟨t.unregisterAll met, ?_⟩
    rw [unregisterSubtrees, run_bind, run_get, Run.bind_done_ok, hmet]
    rfl
  · obtain ⟨met, hmet, -⟩ := hwalk n hn
    refine ⟨met.foldl (setDirty · true) t, ?_⟩
    rw [markDirtyRecursively, run_bind, run_get, Run.bind_done_ok, hmet]
    rfl

end Descended

end Tree

namespace Household

/-- Children arrays form a forest. Whatever operations begin, in whatever order they get whatever
answers, and whatever is held, as long as a directory is given only children that were made for it:
no object is in two arrays, or twice in one; the root is in none; no directory is below itself; and
the walks from all objects have an end and meet no object twice.

**Proof sketch.** What was made for what is remembered beside the tree. Each operation leaves nodes
with what they were made for from one question to the next, whatever was made meanwhile, so steps
do. Since a node is younger than what it was made for, and was made for one object only, the arrays
form a forest. -/
theorem Reached.forest {policy : CasePolicy} {config : TreeConfig} {root : FileId} {name : String}
    {s : Household} (h : Reached policy config root name s) : s.tree.Forest := by
  obtain ⟨K, hK⟩ := h.reared
  exact hK.descended.isForest

/-! ### A child that is added again while it is looked up -/

namespace Return

/-- The root. -/
def root : Node :=
  ⟨0, ⟨1, FileId.raw_one_ne_zero⟩, "/", none, { directory := true }⟩

/-- A file, the first object that is made. -/
def file : Node :=
  ⟨1, ⟨2, FileId.raw_two_ne_zero⟩, "file", some root.id, {}⟩

/-- An operation on the root, or on the root and the file, has begun. -/
def begun (s : Household) (command : Command) : Household :=
  s.proceed (command.parent? ⟨root, root, file⟩) ((command.run [] ⟨root, root, file⟩).run s.tree)

/-- Nothing has happened. -/
def first : Household := start .sensitive default root.id "/"

/-- While the file is looked up, it is made. -/
def made : Household := begun (begun first (.lookup "file")) (.newChild 2 "file" {})

/-- Then it is added and removed. -/
def removed : Household := begun (begun made .addChild) .removeChild

/-- And it is added again. -/
def again : Household := begun removed .addChild

/-- All this may happen. -/
theorem reached_again : Reached .sensitive default root.id "/" again := by
  have hbegun : ∀ {s : Household} {command : Command},
      Reached .sensitive default root.id "/" s →
      (s.tree.cell? root).map Cell.node = some root →
      (command = .addChild → (root, file) ∈ s.kin) →
      Reached .sensitive default root.id "/" (begun s command) :=
    fun hs howns hadded => hs.tail (.begin _ [] ⟨root, root, file⟩ _ howns hadded)
  have hmade : Reached .sensitive default root.id "/" made :=
    hbegun (hbegun .refl (by decide +kernel) nofun) (by decide +kernel) nofun
  have hremoved : Reached .sensitive default root.id "/" removed :=
    hbegun (hbegun hmade (by decide +kernel) fun _ => by decide +kernel) (by decide +kernel) nofun
  exact hbegun hremoved (by decide +kernel) fun _ => by decide +kernel

/-- What is said of all sessions holds of this one, in which the file is in the array of the root,
and a lookup still waits. -/
theorem forest_again : Reached .sensitive default root.id "/" again ∧
    (again.tree.children? root).map Children.present = some [file] ∧ again.waiting.length = 1 ∧
    again.tree.Forest :=
  ⟨reached_again, by decide +kernel, by decide +kernel, Reached.forest reached_again⟩

end Return

end Household

end LazyTree
