import LazyTree.Backend.Table
import LazyTree.Proofs.Recording

set_option autoImplicit false

/-!
# Lookups during removals

A lookup asks the backend, and while it does the child that it is about to be told of may be
removed. The answer of the backend is then older than the removal. The lookup gives way to a removal
that left the name recorded as absent; but in a directory whose children are known to be all there
are, and in a tree that does not record the names of removed children, a removal leaves nothing to
give way to.

## Main definitions

* `LazyTree.Exchange.found?` — the name under which the backend reported a child.
* `LazyTree.Exchange.Records` — how a lookup ends with its last answer.

## Main results

* `LazyTree.Tree.lookup_took_of`, `LazyTree.Tree.lookup_took` — the exchanges of a lookup.
* `LazyTree.Tree.lookup_absent_iff` — when a removal during a lookup is not undone.
-/

namespace LazyTree

/-- The name under which the backend reported a child, if the question was for the attributes of
one. -/
def Exchange.found? : Exchange → Option String
  | ⟨.attributes _ name, _, .ok (some _), _⟩ => some name
  | _ => none

/-- A lookup ends with its last answer by recording that the child was found or is missing. -/
def Exchange.Records (x : Exchange) (dir : Node) (name : String)
    (result : Except TreeError Lookup) (last : Tree) : Prop :=
  match x.found? with
  | some query => ∃ id attributes,
    ((Tree.recordAnswer dir name query (some id) (some attributes)).run x.resumed).Took [] result
      last
  | none => ∃ query,
    ((Tree.recordAnswer dir name query none none).run x.resumed).Took [] result last

namespace Tree

open TreeM

variable {t last : Tree} {dir : Node} {name query : String} {exchanges : List Exchange}
  {result : Except TreeError Lookup}

/-- Recording an answer asks nothing. -/
theorem recordAnswer_took_nil (ht : t.Tidy) (hdir : (t.children? dir).isSome = true)
    {id : Option FileId} {attributes : Option Attributes}
    (h : ((recordAnswer dir name query id attributes).run t).Took exchanges result last) :
    exchanges = [] := by
  obtain ⟨c, hc⟩ := Option.isSome_iff_exists.mp hdir
  cases id with
  | none =>
    have hrun : (recordAnswer dir name query none attributes).run t = _ :=
      run_recordAnswer_none ht hc name query
    rw [hrun] at h
    exact (Run.took_done_iff.mp h).1
  | some id =>
    cases attributes with
    | none =>
      have hrun : (recordAnswer dir name query (some id) none).run t = _ :=
        run_recordAnswer_none ht hc name query
      rw [hrun] at h
      exact (Run.took_done_iff.mp h).1
    | some attributes =>
      obtain ⟨registry, hrun⟩ := run_recordAnswer_some ht hc name query id attributes
      rw [hrun] at h
      exact (Run.took_done_iff.mp h).1

/-- The exchanges of a lookup that has to ask: what is kept while it asks holds at each question and
at each answer, and the last answer is recorded. -/
theorem askFor_took {P : Tree → Prop} {policy : CasePolicy}
    (hready : ∀ u, P u → u.Tidy ∧ (u.children? dir).isSome = true) (ht : P t)
    (h : ((askFor dir name query policy).run t).Took exchanges result last)
    (hok : ∀ x ∈ exchanges, x.reply.isOk = true)
    (hworld : ∀ x ∈ exchanges, P x.asked → P x.resumed) :
    (∀ x ∈ exchanges, P x.asked ∧ P x.resumed) ∧
      ∃ front x, exchanges = front ++ [x] ∧ x.Records dir name result last := by
  obtain ⟨id, t', rest, rfl, hrest⟩ := took_ask_bind h hok
  obtain ⟨hfirst, hlater⟩ := List.forall_mem_cons.mp hworld
  have ht' : P t' := hfirst ht
  obtain ⟨htidy', hdir'⟩ := hready t' ht'
  cases id with
  | none =>
    obtain rfl := recordAnswer_took_nil htidy' hdir' hrest
    exact ⟨List.forall_mem_singleton.mpr ⟨ht, ht'⟩, [], _, rfl, query, hrest⟩
  | some id =>
    obtain ⟨attributes, t'', rest, rfl, hlast⟩ := took_ask_bind hrest
      (List.forall_mem_cons.mp hok).2
    obtain ⟨hsecond, -⟩ := List.forall_mem_cons.mp hlater
    have ht'' : P t'' := hsecond ht'
    obtain ⟨htidy'', hdir''⟩ := hready t'' ht''
    obtain rfl := recordAnswer_took_nil htidy'' hdir'' hlast
    refine ⟨List.forall_mem_cons.mpr ⟨⟨ht, ht'⟩, List.forall_mem_singleton.mpr ⟨ht', ht''⟩⟩, [_],
      _, rfl, ?_⟩
    cases attributes with
    | none => exact ⟨query, hlast⟩
    | some attributes => exact ⟨id, attributes, hlast⟩

/-- The exchanges of a lookup, if it took any: the name can be that of a file, what is kept while it
asks holds at each question and at each answer, and the last answer is recorded. -/
theorem lookup_took_of {P : Tree → Prop} (hready : ∀ u, P u → u.Tidy ∧ Later t u) (ht : P t)
    (h : ((lookup dir name).run t).Took exchanges result last)
    (hsome : exchanges ≠ []) (hok : ∀ x ∈ exchanges, x.reply.isOk = true)
    (hworld : ∀ x ∈ exchanges, P x.asked → P x.resumed) :
    (t.children? dir).isSome = true ∧ name.isEmpty = false ∧
      (∀ x ∈ exchanges, P x.asked ∧ P x.resumed) ∧
      ∃ front x, exchanges = front ++ [x] ∧ x.Records dir name result last := by
  have hrun : (lookup dir name).run t = (findChild dir name t.config.canonicalizeNames).run t := rfl
  rw [hrun, run_findChild] at h
  cases hc : t.children? dir with
  | none =>
    rw [hc] at h
    exact absurd (Run.took_done_iff.mp h).1 hsome
  | some c =>
    rw [hc] at h
    dsimp only at h
    have hready' : ∀ u, P u → u.Tidy ∧ (u.children? dir).isSome = true := by
      refine fun u hu => ⟨(hready u hu).1, (hready u hu).2.isSome dir ?_⟩
      rw [hc]
      rfl
    split at h
    · exact absurd (Run.took_done_iff.mp h).1 hsome
    · exact absurd (Run.took_done_iff.mp h).1 hsome
    · next hunknown =>
      have hname : name.isEmpty = false := by
        refine Bool.eq_false_iff.mpr fun hempty => ?_
        simp [isFileName, hempty] at hunknown
      split at h
      · obtain ⟨spelled, t', rest, rfl, hrest⟩ := took_ask_bind h hok
        obtain ⟨hfirst, hlater⟩ := List.forall_mem_cons.mp hworld
        obtain ⟨hchain, front, x, rfl, hrecords⟩ := askFor_took hready' (hfirst ht) hrest
          (List.forall_mem_cons.mp hok).2 hlater
        exact ⟨rfl, hname, List.forall_mem_cons.mpr ⟨⟨ht, hfirst ht⟩, hchain⟩, _ :: front, x, rfl,
          hrecords⟩
      · obtain ⟨hchain, hrecords⟩ := askFor_took hready' ht h hok hworld
        exact ⟨rfl, hname, hchain, hrecords⟩

/-- In particular, each question of a lookup is asked of a tree that may have come about by then. -/
theorem lookup_took (ht : t.Tidy) (h : ((lookup dir name).run t).Took exchanges result last)
    (hsome : exchanges ≠ []) (hok : ∀ x ∈ exchanges, x.reply.isOk = true)
    (hworld : ∀ x ∈ exchanges, Happens x.asked x.resumed) :
    (t.children? dir).isSome = true ∧ name.isEmpty = false ∧
      (∀ x ∈ exchanges, Happens t x.asked ∧ Happens t x.resumed) ∧
      ∃ front x, exchanges = front ++ [x] ∧ x.Records dir name result last :=
  lookup_took_of (fun _ hu => ⟨hu.tidy ht, hu.later ht⟩) (.refl t) h hsome hok
    fun x hx hasked => hasked.trans (hworld x hx)

/-- A lookup that ends with an answer answers that the name is missing, and leaves no child known to
have it, exactly if none was known to have it when the answer came, and the name under which the
backend reported a child, if it did, was known to be free then. -/
theorem records_absent_iff {x : Exchange} (hx : x.Records dir name result last)
    (ht : x.resumed.Tidy) (hdir : (x.resumed.children? dir).isSome = true)
    (hname : name.isEmpty = false) :
    (result = .ok .absent ∧ last.Free dir name) ↔
      x.resumed.Free dir name ∧
        ∀ spelled, x.found? = some spelled → x.resumed.fact? dir spelled = some .absent := by
  obtain ⟨c, hc⟩ := Option.isSome_iff_exists.mp hdir
  unfold Exchange.Records at hx
  cases hfound : x.found? with
  | none =>
    rw [hfound] at hx
    obtain ⟨query, hx⟩ := hx
    simpa using recordAnswer_none_iff ht hc hname hx
  | some query =>
    rw [hfound] at hx
    obtain ⟨id, attributes, hx⟩ := hx
    simpa using recordAnswer_some_iff ht hc hx

/-- When a removal during a lookup is not undone by it. Say that a lookup asked the backend, that a
child of the name was removed while it did, and that the last answer came later.

The lookup answers that the name is missing, and leaves no child known to have it, exactly if none
was known to have it when the last answer came, and the backend had reported no child, or one under
a name that was known to be free then.

If what was known of the name had not changed since the removal, and the backend's spelling of the
name is the same name, this comes down to the tree in which the child was removed: no child of
another identity had the name there, and the backend reported no child, or the name was recorded as
absent already, or the names of removed children are recorded and the children of the directory were
not known to be all there are. -/
theorem lookup_absent_iff {before after : Tree} {child : Node} {x : Exchange}
    {outcome : Except TreeError Bool} (ht : t.Tidy)
    (htook : ((lookup dir name).run t).Took exchanges result last)
    (hlast : exchanges.getLast? = some x) (hok : ∀ y ∈ exchanges, y.reply.isOk = true)
    (hworld : ∀ y ∈ exchanges, Happens y.asked y.resumed)
    (hmeanwhile : ∃ y ∈ exchanges, Happens y.asked before ∧ Happens after y.resumed)
    (hremoval : (removeChild dir child).run before = .done outcome after)
    (hname : t.policy.same child.name name = true) :
    ((result = .ok .absent ∧ last.Free dir name) ↔
      x.resumed.Free dir name ∧
        ∀ spelled, x.found? = some spelled → x.resumed.fact? dir spelled = some .absent) ∧
    (x.resumed.fact? dir name = after.fact? dir name →
      (∀ spelled, x.found? = some spelled → t.policy.same spelled name = true) →
      ((result = .ok .absent ∧ last.Free dir name) ↔
        (∀ n, before.fact? dir name = some (.present n) → n.id = child.id) ∧
          (x.found? = none ∨ before.fact? dir name = some .absent ∨
            before.config.cacheRemovedNames = true ∧ ¬ before.Complete dir))) := by
  have hsome : exchanges ≠ [] := by
    rintro rfl
    cases hlast
  obtain ⟨hdir, hempty, hchain, front, x', rfl, hrecords⟩ := lookup_took ht htook hsome hok hworld
  obtain rfl : x' = x := by simpa using hlast
  have hnow : Happens t x'.resumed := (hchain x' (by simp)).2
  have hnow_tidy := hnow.tidy ht
  have hgeneral := records_absent_iff hrecords hnow_tidy ((hnow.later ht).isSome dir hdir) hempty
  refine ⟨hgeneral, fun hsince hspelled => hgeneral.trans ?_⟩
  -- the tree in which the child was removed came about from the first one
  obtain ⟨y, hy, hasked, -⟩ := hmeanwhile
  have hbefore : Happens t before := (hchain y hy).1.trans hasked
  have hlater := hbefore.later ht
  have hkey : before.policy.key child.name = before.policy.key name := by
    rw [hlater.policy]
    exact CasePolicy.same_iff.mp hname
  obtain ⟨hfree, habsent⟩ := removeChild_fact? (hbefore.tidy ht) (hlater.isSome dir hdir) hkey
    hremoval
  have hfree_now : x'.resumed.Free dir name ↔ after.Free dir name := by
    unfold Free
    rw [hsince]
  rw [hfree_now, hfree]
  refine and_congr_right fun hother => ?_
  cases hfound : x'.found? with
  | none => simp
  | some spelled =>
    have hsame : x'.resumed.policy.key spelled = x'.resumed.policy.key name := by
      rw [(hnow.later ht).policy]
      exact CasePolicy.same_iff.mp (hspelled spelled hfound)
    have hfact : x'.resumed.fact? dir spelled = after.fact? dir name :=
      (fact?_congr hnow_tidy hsame).trans hsince
    simp only [Option.some.injEq, forall_eq', hfact, habsent, reduceCtorEq, false_or]
    exact and_iff_right hother

/-! ### Two races

A file is looked up, and while its attributes are asked for, another lookup finds and caches it and
it is then removed. -/

namespace Race

/-- The root of the tree. -/
def root : Node :=
  ⟨0, ⟨1, FileId.raw_one_ne_zero⟩, "root", none, { directory := true }⟩

/-- The file, as the second lookup makes a node for it. -/
def file : Node :=
  ⟨1, ⟨2, by decide⟩, "a", some root.id, {}⟩

/-- The backend, which lists the file. -/
def table : Table :=
  (Table.ofRoot .sensitive root.id).add root.id ⟨"a", some file.id, some {}⟩

/-- The tree before the lookup. -/
def start : Tree :=
  ofRoot .sensitive {} root.id "root"

/-- Answers from the table while nothing else happens. -/
def quiet (q : Query) (t : Tree) (s : Table) : Except BackendError q.Reply × Tree × Table :=
  (s.answer q, t, s)

/-- The tree after an operation on the root and the file. -/
def step (t : Tree) (command : Command) : Tree :=
  (((command.run [] ⟨root, root, file⟩).run t).serve quiet table).2.1

/-- Answers from the table, while some operations happen during the question for attributes. -/
def during (commands : List Command) (q : Query) (t : Tree) (s : Table) :
    Except BackendError q.Reply × Tree × Table :=
  (s.answer q, if q.kind = .attributes then commands.foldl step t else t, s)

/-- The lookup, at its beginning. -/
def lookupFile : Run Lookup :=
  (lookup root "a").run start

/-- Operations may happen. -/
theorem happens_step (t : Tree) (command : Command) : Happens t (step t command) := by
  refine .command [] ⟨root, root, file⟩ command (Run.took_serve quiet _ table) ?_ (.refl _)
  intro x hx
  obtain ⟨s, -, hresumed⟩ := Run.exists_of_mem_exchanges hx
  rw [hresumed]
  exact .refl _

/-- Operations may happen one after the other. -/
theorem happens_foldl (commands : List Command) (t : Tree) :
    Happens t (commands.foldl step t) := by
  induction commands generalizing t with
  | nil => exact .refl t
  | cons command commands ih => exact (happens_step t command).trans (ih _)

/-- What happens while the lookup asks may happen. -/
theorem happens_during {commands : List Command} {run : Run Lookup} {x : Exchange}
    (hx : x ∈ run.exchanges (during commands) table) : Happens x.asked x.resumed := by
  obtain ⟨s, -, hresumed⟩ := Run.exists_of_mem_exchanges hx
  rw [hresumed, during]
  split
  · exact happens_foldl commands x.asked
  · exact .refl _

/-- The removal of the file is an operation that asks nothing. -/
theorem run_removeChild_file {t : Tree} (ht : t.Tidy) (hroot : (t.children? root).isSome = true) :
    ∃ outcome, (removeChild root file).run t = .done outcome (step t .removeChild) := by
  obtain ⟨c, hc⟩ := Option.isSome_iff_exists.mp hroot
  obtain ⟨outcome, registry, hrun⟩ := run_removeChild ht hc file
  refine ⟨outcome, hrun.trans (congrArg _ ?_)⟩
  have hstep : step t .removeChild = (Run.serve quiet (((removeChild root file).run t).bind
    fun removed => (pure (.flag removed) : TreeM (StepReply Node)).run) table).2.1 := rfl
  rw [hstep, hrun]
  cases outcome <;> rfl

/-- The exchanges of the lookup, and how it ends, if some operations happen meanwhile. -/
structure Raced (commands : List Command) (x : Exchange) : Prop where
  /-- This exchange is the last one. -/
  last : (lookupFile.exchanges (during commands) table).getLast? = some x
  /-- The tree was the first one when it began. -/
  asked : x.asked = start
  /-- All the operations happened in it. -/
  resumed : x.resumed = commands.foldl step start
  /-- The backend reported the file. -/
  found : x.found? = some "a"
  /-- The backend did not fail. -/
  ok : ∀ y ∈ lookupFile.exchanges (during commands) table, y.reply.isOk = true

/-- What can be evaluated of the exchanges tells them. -/
theorem exists_raced (commands : List Command)
    (hlast : (lookupFile.exchanges (during commands) table).getLast?.map
      (fun x => (x.asked, x.resumed, x.found?)) = some (start, commands.foldl step start, some "a"))
    (hok : (lookupFile.exchanges (during commands) table).all (·.reply.isOk) = true) :
    ∃ x, Raced commands x := by
  obtain ⟨x, hx, hshape⟩ := Option.map_eq_some_iff.mp hlast
  simp only [Prod.mk.injEq] at hshape
  obtain ⟨hasked, hresumed, hfound⟩ := hshape
  exact ⟨x, hx, hasked, hresumed, hfound, List.all_eq_true.mp hok⟩

/-- The removal of a file that another lookup has cached is not undone: its name was recorded as
absent. -/
theorem lookupFile_absent :
    (lookupFile.serve (during [.lookup "a", .removeChild]) table).1 = .ok .absent ∧
      (lookupFile.serve (during [.lookup "a", .removeChild]) table).2.1.Free root "a" := by
  have hbefore : Happens start (step start (.lookup "a")) := happens_step _ _
  have htidy : start.Tidy := tidy_ofRoot _ _ _ _
  obtain ⟨outcome, hremoval⟩ := run_removeChild_file (hbefore.tidy htidy) (by decide +kernel)
  obtain ⟨x, hx⟩ := exists_raced [.lookup "a", .removeChild] (by decide +kernel)
    (by decide +kernel)
  have hmem := List.mem_of_getLast? hx.last
  have hend := lookup_absent_iff htidy (Run.took_serve _ lookupFile table) hx.last hx.ok
    (fun y hy => happens_during hy) ⟨x, hmem, by rw [hx.asked]; exact hbefore, by
      rw [hx.resumed]; exact .refl _⟩ hremoval (by decide)
  have hfact : (step start (.lookup "a")).fact? root "a" = some (.present file) := by
    decide +kernel
  have hcomplete : ((step start (.lookup "a")).children? root).map Children.allLoaded =
      some false := by
    decide +kernel
  refine (hend.2 (by rw [hx.resumed]; rfl) ?_).mpr ⟨?_, .inr (.inr ⟨?_, ?_⟩)⟩
  · intro spelled hspelled
    rw [hx.found] at hspelled
    cases hspelled
    decide
  · intro n hn
    rw [hfact] at hn
    cases hn
    rfl
  · rw [(hbefore.later htidy).config]
    rfl
  · rintro ⟨c, hc, hloaded⟩
    rw [hc] at hcomplete
    cases hloaded.symm.trans (Option.some.inj hcomplete)

/-- The removal of a file from a directory whose children were declared to be all there are is
undone: it is not so that a removal during a lookup, of a child that no other child of its name
stands beside, always leaves the name free if nothing more becomes known of it. -/
theorem not_lookup_absent_of_removed : ¬ ∀ {t last before after : Tree} {dir child : Node}
    {name : String} {exchanges : List Exchange} {x : Exchange} {result : Except TreeError Lookup}
    {outcome : Except TreeError Bool}, t.Tidy →
    ((lookup dir name).run t).Took exchanges result last → exchanges.getLast? = some x →
    (∀ y ∈ exchanges, y.reply.isOk = true) → (∀ y ∈ exchanges, Happens y.asked y.resumed) →
    (∃ y ∈ exchanges, Happens y.asked before ∧ Happens after y.resumed) →
    (removeChild dir child).run before = .done outcome after →
    t.policy.same child.name name = true →
    x.resumed.fact? dir name = after.fact? dir name →
    (∀ spelled, x.found? = some spelled → t.policy.same spelled name = true) →
    (∀ n, before.fact? dir name = some (.present n) → n.id = child.id) →
    result = .ok .absent ∧ last.Free dir name := by
  intro h
  have hbefore : Happens start (step (step start (.lookup "a")) .markAllLoaded) :=
    (happens_step _ _).trans (happens_step _ _)
  have htidy : start.Tidy := tidy_ofRoot _ _ _ _
  obtain ⟨outcome, hremoval⟩ := run_removeChild_file (hbefore.tidy htidy) (by decide +kernel)
  obtain ⟨x, hx⟩ := exists_raced [.lookup "a", .markAllLoaded, .removeChild]
    (by decide +kernel) (by decide +kernel)
  have hmem := List.mem_of_getLast? hx.last
  have hfact : (step (step start (.lookup "a")) .markAllLoaded).fact? root "a" =
      some (.present file) := by
    decide +kernel
  have hspelled : ∀ spelled, x.found? = some spelled → start.policy.same spelled "a" = true := by
    intro spelled hspelled
    rw [hx.found] at hspelled
    cases hspelled
    decide
  have hother : ∀ n, (step (step start (.lookup "a")) .markAllLoaded).fact? root "a" =
      some (.present n) → n.id = file.id := by
    intro n hn
    rw [hfact] at hn
    cases hn
    rfl
  have hend := h htidy (Run.took_serve _ lookupFile table) hx.last hx.ok
    (fun y hy => happens_during hy) ⟨x, hmem, by rw [hx.asked]; exact hbefore, by
      rw [hx.resumed]; exact .refl _⟩ hremoval (by decide) (by rw [hx.resumed]; rfl) hspelled hother
  have hanswer : (lookupFile.serve (during [.lookup "a", .markAllLoaded, .removeChild])
      table).1.toOption ≠ some .absent := by
    decide +kernel
  rw [hend.1] at hanswer
  exact hanswer rfl

end Race

end Tree

end LazyTree
