import Mathlib
import LazyTree.Proofs.BackendFailures
import LazyTree.Proofs.KeptLookups

set_option autoImplicit false

/-!
# Checks that the backend fails

A check looks a name up and asks the backend for the attributes of the child that it found. If the
child has changed between file and directory, it is dropped, and the backend is asked anew for the
name. When one of these later questions fails, the child has gone: its name is recorded as absent,
or is missing from a listing that is complete. So the cache denies a file that the backend has, until
something else becomes known of the name. A check that fails in any other way leaves all children
known that were known before.

## Main definitions

* `LazyTree.still` — nothing happens while the backend is asked.
* `LazyTree.Tree.Learned` — what holds after a name was looked up then.
* `LazyTree.Tree.Dropped` — a check dropped a child because its kind had changed.

## Main results

* `LazyTree.Run.Took.append_inj` — exchanges determine how a run begins.
* `LazyTree.Tree.learned_findChild` — a lookup forgets no child.
* `LazyTree.Tree.recheck_failed` — what the backend's failure leaves of a check of a child.
* `LazyTree.Tree.failed_check_absent_iff` — when a check that failed has left a cached child denied.
-/

namespace LazyTree

/-- Nothing happens to the tree while the backend is asked. The backend may answer anything, and may
fail. -/
def still : World :=
  fun _ t _ t' => t' = t

namespace Run

variable {α : Type}

/-- Exchanges determine how a run begins: two ends that it came to with exchanges of one list are
the same. -/
theorem Took.append_inj {run : Run α} {front front' back back' : List Exchange}
    {result result' : Except TreeError α} {t t' : Tree} (h : run.Took front result t)
    (h' : run.Took front' result' t') (hsame : front ++ back = front' ++ back') :
    result = result' ∧ t = t' ∧ back = back' := by
  induction h generalizing front' with
  | done result t =>
    obtain ⟨rfl, rfl, rfl⟩ := took_done_iff.mp h'
    exact ⟨rfl, rfl, hsame⟩
  | ask rest ih =>
    cases h' with
    | ask rest' =>
      injection hsame with hfirst hrest
      injection hfirst with _ _ hreply hresumed
      cases hreply
      cases hresumed
      exact ih rest' hrest

/-- Where nothing happens in the exchanges, the moves between them are made one after the other. -/
theorem Linked.of_still {move : Tree → Tree → Prop} [Trans move move move] {t last : Tree}
    {exchanges : List Exchange} (h : Linked move t exchanges last)
    (hstill : ∀ x ∈ exchanges, x.resumed = x.asked) : move t last := by
  induction exchanges generalizing t with
  | nil => exact h
  | cons x rest ih =>
    obtain ⟨hfirst, hrest⟩ := List.forall_mem_cons.mp hstill
    have hback := ih h.2 hrest
    rw [hfirst] at hback
    exact Trans.trans h.1 hback

end Run

/-- When nothing happens meanwhile, an operation that begins with a question goes on from the same
tree with any answer. -/
theorem TreeM.always_still_ask {α : Type} {q : Query} {f : q.Reply → TreeM α} {t : Tree}
    {post : Except TreeError α → Tree → Prop} (herror : ∀ e, post (.error e) t)
    (h : ∀ reply, ((f reply).run t).Always still post) :
    ((ask q >>= f).run t).Always still post := by
  refine always_ask_bind_iff.mpr ⟨?_, ?_⟩
  · rintro reply t' rfl
    exact h reply
  · rintro e t' rfl
    exact herror _

/-- A run that begins with a question and failed either took an exchange in which the backend failed
it, or went on with the answer. -/
theorem TreeM.took_ask_bind_error {α : Type} {q : Query} {f : q.Reply → TreeM α} {t last : Tree}
    {exchanges : List Exchange} {e : TreeError}
    (h : ((ask q >>= f).run t).Took exchanges (.error e) last) :
    (∃ failure t', e = .backend failure ∧ exchanges = [⟨q, t, .error failure, t'⟩] ∧ last = t') ∨
      ∃ reply t' rest, exchanges = ⟨q, t, .ok reply, t'⟩ :: rest ∧
        ((f reply).run t').Took rest (.error e) last := by
  cases h with
  | @ask _ _ _ reply t' rest _ _ h =>
    cases reply with
    | ok reply => exact .inr ⟨reply, t', rest, rfl, h⟩
    | error failure =>
      obtain ⟨rfl, hresult, rfl⟩ := Run.took_done_iff.mp h
      exact .inl ⟨failure, _, Except.error.inj hresult, rfl, rfl⟩

namespace Ledger

variable (l : Ledger)

/-- Recording that a name is free does not complete the listing, nor does it end that. -/
theorem complete_insertAbsent (name : String) :
    (l.insertAbsent name).2.complete = l.complete := by
  unfold insertAbsent
  split
  · rfl
  · split
    · rfl
    · rfl
    · dsimp only
      split <;> rfl

/-- Nor does recording a child. -/
theorem complete_insertIfUnknown (child : Node) :
    (l.insertIfUnknown child).2.complete = l.complete := by
  unfold insertIfUnknown
  split <;> rfl

end Ledger

namespace Tree

open TreeM

variable {t t' last : Tree} {dir n : Node} {c c' : Children} {name other : String}
  {exchanges : List Exchange} {e : BackendError}

/-- The array of a directory answers for the name of a file what its ledger does. -/
theorem run_findCached_of_tidy (hc : t.children? dir = some c) (hctidy : c.Tidy)
    (hname : isFileName name = true) :
    (findCached dir name).run t = .done (.ok (c.ledger.answer name)) t := by
  rw [run_findCached hc, if_pos hname, Children.find_of_isFileName hctidy hname]

/-- A lookup answers without a question that a file is missing exactly if the ledger does. -/
theorem run_lookup_absent_iff (hc : t.children? dir = some c) (hctidy : c.Tidy)
    (hname : isFileName name = true) :
    (lookup dir name).run t = .done (.ok .absent) t ↔ c.ledger.answer name = .absent := by
  have hrun : (lookup dir name).run t = (findChild dir name t.config.canonicalizeNames).run t := rfl
  rw [hrun, run_findChild, hc]
  dsimp only
  rw [if_pos hname, Children.find_of_isFileName hctidy hname]
  cases c.ledger.answer name with
  | present node => simp
  | absent => simp
  | unknown =>
    simp only [reduceCtorEq, iff_false]
    split <;> exact nofun

/-! ### Lookups forget no child -/

/-- What holds after a name of a directory was looked up while nothing else happened: all children
are still known, the listing is as complete as it was, and a child that was found is known. -/
structure Learned (t : Tree) (dir : Node) (c : Children) (result : Except TreeError Lookup)
    (t' : Tree) : Prop where
  /-- All arrays are tidy. -/
  tidy : t'.Tidy
  /-- The settings are the same. -/
  config : t'.config = t.config
  /-- The directory has an array with these children. -/
  known : ∃ c', t'.children? dir = some c' ∧ c'.allLoaded = c.allLoaded ∧
    (∀ n ∈ c.present, n ∈ c'.present) ∧ ∀ n, result = .ok (.present n) → n ∈ c'.present

section Directory

variable (ht : t.Tidy) (hc : t.children? dir = some c)
include ht hc

/-- A lookup that changed nothing forgets no child. -/
theorem learned_self {result : Except TreeError Lookup}
    (hresult : ∀ n, result = .ok (.present n) → n ∈ c.present) : t.Learned dir c result t :=
  ⟨ht, rfl, c, hc, rfl, fun _ hn => hn, hresult⟩

/-- A change of the array that adds at most the child that is answered forgets none. -/
theorem learned_change (op : Children.Op) (hop : op.Admissible c.policy) {answer : Lookup}
    (hgains : c.Gains (c.apply op).2 answer.node?)
    (hcomplete : (c.ledger.apply op).2.complete = c.ledger.complete) :
    t.Learned dir c (.ok answer) (t.setChildren dir (c.apply op).2) := by
  have hop' : op.Admissible t.policy := by rwa [← (ht dir c hc).1]
  obtain ⟨htidy, hlater⟩ := (stable_tidy t).update _ _ (.change t dir c op hc hop') ⟨ht, .refl t⟩
  have hloaded : (c.apply op).2.allLoaded = c.allLoaded := by
    refine Eq.trans ?_ hcomplete
    rw [← (Children.apply_follows (ht dir c hc).2 hop).ledger]
    rfl
  refine ⟨htidy, hlater.config, _, children?_setChildren_self hc _, hloaded, hgains.keeps, ?_⟩
  rintro n ⟨⟩
  exact hgains.answered n rfl

/-- Recording an answer of the backend forgets no child. -/
theorem learned_recordAnswer (name query : String) (id : Option FileId)
    (attributes : Option Attributes) :
    ((recordAnswer dir name query id attributes).run t).Always still (t.Learned dir c) := by
  have htidy := (ht dir c hc).2
  have hmissing : ((recordAnswer dir name query none none).run t).Always still
      (t.Learned dir c) := by
    have hlearned : t.Learned dir c (.ok .absent) _ :=
      learned_change ht hc (.insertAbsent name) trivial (Children.gains_insertAbsent htidy name)
        (c.ledger.complete_insertAbsent name)
    obtain ⟨htidy', hconfig, c', hc', hloaded, hkeeps, -⟩ := hlearned
    rw [run_recordAnswer_none ht hc]
    refine ⟨htidy', hconfig, c', hc', hloaded, hkeeps, fun n hn => hkeeps n ?_⟩
    have hanswer : (c.ledger.insertAbsent name).1 = .present n := by
      refine Lookup.node?_ofKnowledge.mp ?_
      rw [Except.ok.inj hn]
      rfl
    exact (mem_present_of_fact? htidy (Ledger.insertAbsent_answered hanswer)).1
  cases id with
  | none => exact hmissing
  | some id =>
    cases attributes with
    | none => exact hmissing
    | some attributes =>
      obtain ⟨registry, hrun⟩ := run_recordAnswer_some ht hc name query id attributes
      have hmade := children?_make_of_children? hc dir id query attributes
      obtain ⟨htidy', hconfig, hknown⟩ := learned_change (ht.make dir id query attributes) hmade
        (.insertIfUnknown (t.make dir id query attributes).1) trivial
        (Children.gains_insertIfUnknown htidy _) (c.ledger.complete_insertIfUnknown _)
      rw [hrun]
      exact ⟨htidy', hconfig, hknown⟩

/-- Asking for a name forgets no child. -/
theorem learned_askFor (name query : String) (policy : CasePolicy) :
    ((askFor dir name query policy).run t).Always still (t.Learned dir c) := by
  refine always_still_ask (fun _ => learned_self ht hc nofun) fun id => ?_
  cases id with
  | none => exact learned_recordAnswer ht hc name query none none
  | some id =>
    exact always_still_ask (fun _ => learned_self ht hc nofun) fun attributes =>
      learned_recordAnswer ht hc name query (some id) attributes

/-- A lookup forgets no child. -/
theorem learned_findChild (name : String) (canonicalize : Bool) :
    ((findChild dir name canonicalize).run t).Always still (t.Learned dir c) := by
  have htidy := (ht dir c hc).2
  rw [run_findChild, hc]
  dsimp only
  split
  · next found hfound =>
    refine learned_self ht hc ?_
    rintro n ⟨⟩
    split at hfound
    · next hname =>
      rw [Children.find_of_isFileName htidy hname, Ledger.answer_eq_present_iff] at hfound
      exact (mem_present_of_fact? htidy hfound).1
    · cases hfound
  · exact learned_self ht hc nofun
  · split
    · exact always_still_ask (fun _ => learned_self ht hc nofun) fun query =>
        learned_askFor ht hc name query t.policy
    · exact learned_askFor ht hc name name t.policy

end Directory

/-! ### Checks that fail -/

/-- A check of a name dropped a child: the lookup found the child, and the backend then reported that
its kind had changed. -/
def Dropped (t : Tree) (dir : Node) (name : String) (exchanges : List Exchange) (n : Node) : Prop :=
  ∃ front back t' asked attributes resumed,
    exchanges = front ++ ⟨.attributes dir.id n.name, asked, .ok (some attributes), resumed⟩ :: back ∧
      ((findChild dir name true).run t).Took front (.ok (.present n)) t' ∧
      attributes.directory ≠ n.isDirectory

/-- If the lookup of a check found nothing, or failed, then the check dropped nothing. -/
theorem not_dropped {front back : List Exchange} {result : Except TreeError Lookup}
    (hfront : ((findChild dir name true).run t).Took front result t')
    (hresult : ∀ n, result ≠ .ok (.present n)) :
    ¬ t.Dropped dir name (front ++ back) n := by
  rintro ⟨front', back', t'', asked, attributes, resumed, hsame, hfound, -⟩
  exact hresult n (hfront.append_inj hfound hsame).1

/-- If the lookup of a check found a child, then the check dropped no other, and it dropped this one
exactly if the backend reported another kind next. -/
theorem dropped_iff {front back : List Exchange} {m : Node}
    (hfront : ((findChild dir name true).run t).Took front (.ok (.present m)) t') :
    t.Dropped dir name (front ++ back) n ↔
      m = n ∧ ∃ rest asked attributes resumed,
        back = ⟨.attributes dir.id m.name, asked, .ok (some attributes), resumed⟩ :: rest ∧
          attributes.directory ≠ m.isDirectory := by
  constructor
  · rintro ⟨front', back', t'', asked, attributes, resumed, hsame, hfound, hkind⟩
    obtain ⟨hresult, -, rfl⟩ := hfront.append_inj hfound hsame
    obtain rfl : m = n := by
      cases hresult
      rfl
    exact ⟨rfl, back', asked, attributes, resumed, rfl, hkind⟩
  · rintro ⟨rfl, rest, asked, attributes, resumed, rfl, hkind⟩
    exact ⟨front, rest, t', asked, attributes, resumed, rfl, hfront, hkind⟩

/-- The backend cannot fail the addition of a child. -/
theorem unfailing_addChild (dir child : Node) : Unfailing (addChild dir child) :=
  .bind (unfailing_change dir _) fun _ => .bind (.modifyGet _) fun _ => .pure _

/-- Nor can it fail the removal of one. -/
theorem unfailing_removeChild (dir child : Node) : Unfailing (removeChild dir child) := by
  refine .bind .get fun t => .bind (unfailing_change dir _) fun removed => ?_
  dsimp only
  split
  · exact .bind (unfailing_unregisterSubtrees _) fun _ => .pure _
  · exact .pure _

/-- Before the backend failed it, adding a child that the backend has done nothing. -/
theorem failsBy_materializeCreated (dir : Node) (name : String) :
    FailsBy Made (materializeCreated dir name) := by
  unfold materializeCreated
  split
  · exact (Unfailing.pure _).failsBy
  · refine .bind (.ask _) fun attributes => ?_
    cases attributes with
    | none => exact (Unfailing.pure _).failsBy
    | some attributes =>
      refine .bind (.ask _) fun spelling => .bind (.of_done fun t => ⟨_, t, rfl, .refl t⟩) fun t =>
        .bind (.ask _) fun id => ?_
      cases id with
      | none => exact (Unfailing.pure _).failsBy
      | some id =>
        exact (Unfailing.bind (.modifyGet _) fun child => .bind (unfailing_addChild dir child)
          fun _ => .pure _).failsBy

/-- If the backend failed the check of a cached child, while nothing else happened, then either it
failed the first question, and nothing was done, or it reported another kind for the child, and the
child was removed. -/
theorem recheck_failed (ht : t.Tidy) (hc : t.children? dir = some c)
    (htook : ((recheck dir n).run t).Took exchanges (.error (.backend e)) last)
    (hstill : ∀ x ∈ exchanges, x.resumed = x.asked) :
    exchanges = [⟨.attributes dir.id n.name, t, .error e, t⟩] ∧ last = t ∨
      ∃ back attributes,
        exchanges = ⟨.attributes dir.id n.name, t, .ok (some attributes), t⟩ :: back ∧
          attributes.directory ≠ n.isDirectory ∧
          last.children? dir = some (c.remove n t.config.cacheRemovedNames).2 := by
  rcases took_ask_bind_error htook with ⟨failure, t', hfailure, rfl, rfl⟩ |
    ⟨attributes, t', back, rfl, hback⟩
  · obtain rfl : last = t := hstill _ List.mem_cons_self
    cases hfailure
    exact .inl ⟨rfl, rfl⟩
  · obtain ⟨hresumed, hlater⟩ := List.forall_mem_cons.mp hstill
    obtain rfl : t' = t := hresumed
    cases attributes with
    | none =>
      -- the child has vanished, and nothing is asked after its removal
      exact absurd hback (Unfailing.bind (unfailing_removeChild dir n) (fun _ => .pure none) _ _ _ _)
    | some attributes =>
      dsimp only at hback
      split at hback
      · exact absurd hback (Unfailing.pure _ _ _ _ _)
      · next hkind =>
        refine .inr ⟨back, attributes, rfl, hkind, ?_⟩
        obtain ⟨result, registry, hremove⟩ := run_removeChild ht hc n
        rcases Run.took_bind hback with ⟨removed, t'', front, rest, rfl, hremoved, hrest⟩ |
          ⟨_, ⟨⟩, hfailed⟩
        · replace hremoved : ((removeChild dir n).run t').Took _ _ _ := hremoved
          rw [hremove] at hremoved
          obtain ⟨rfl, -, rfl⟩ := Run.took_done_iff.mp hremoved
          have hmade := (failsBy_materializeCreated dir n.name _ _ _ _ hrest).of_still hlater
          exact hmade.children? (children?_setChildren_self hc _)
        · exact absurd hfailed (unfailing_removeChild dir n _ _ _ _)

/-- The array of a directory after the backend failed a check of one of its names: a child that was
in it is in it still, or the check dropped that child because its kind had changed. -/
theorem exists_children_of_failed (ht : t.Tidy) (hc : t.children? dir = some c)
    (htook : ((refreshAndFindChild dir name).run t).Took exchanges (.error (.backend e)) last)
    (hstill : ∀ x ∈ exchanges, x.resumed = x.asked) (hn : n ∈ c.present) :
    ∃ c', last.children? dir = some c' ∧ (c'.policy = t.policy ∧ c'.Tidy) ∧
      (n ∈ c'.present ∧ ¬ t.Dropped dir name exchanges n ∨
        t.Dropped dir name exchanges n ∧ c'.allLoaded = c.allLoaded ∧
          c'.ledger.fact? n.name =
            if t.config.cacheRemovedNames && !c.allLoaded then some .absent else none) := by
  have htidy : ∀ c', last.children? dir = some c' → c'.policy = t.policy ∧ c'.Tidy := by
    intro c' hc'
    have hlast : last.Tidy ∧ Later t last := by
      refine htook.always ((stable_tidy t).firm.refreshAndFindChild dir name t ⟨ht, .refl t⟩) ?_
      intro x hx hasked
      rwa [hstill x hx]
    rw [← hlast.2.policy]
    exact hlast.1 dir c' hc'
  rcases Run.took_bind htook with ⟨answer, t₁, front, back, rfl, hfront, hback⟩ | ⟨_, ⟨⟩, hfailed⟩
  · obtain ⟨hfronts, hbacks⟩ := List.forall_mem_append.mp hstill
    obtain ⟨ht₁, hconfig, c₁, hc₁, hloaded, hkeeps, hfound⟩ :=
      hfront.always (learned_findChild ht hc name true) hfronts
    cases answer with
    | absent =>
      have hmade := (failsBy_materializeCreated dir name _ _ _ _ hback).of_still hbacks
      have hc' := hmade.children? hc₁
      exact ⟨c₁, hc', htidy _ hc', .inl ⟨hkeeps n hn, not_dropped hfront nofun⟩⟩
    | present m =>
      obtain ⟨t₂, hinner, rfl⟩ := Run.took_settle hback
      rcases recheck_failed (t := t₁.hold [m]) ht₁ hc₁ hinner hbacks with
        ⟨rfl, rfl⟩ | ⟨rest, attributes, rfl, hkind, hremoved⟩
      · refine ⟨c₁, hc₁, htidy _ hc₁, .inl ⟨hkeeps n hn, fun hdropped => ?_⟩⟩
        obtain ⟨-, rest, asked, attributes, resumed, hsame, -⟩ := (dropped_iff hfront).mp hdropped
        cases hsame
      · have hremembered : (t₁.hold [m]).config.cacheRemovedNames = t.config.cacheRemovedNames :=
          congrArg _ hconfig
        rw [hremembered] at hremoved
        obtain ⟨hcomplete, hforgotten, hothers⟩ := Children.known_after_remove (ht₁ dir c₁ hc₁).2
          (hfound m rfl) t.config.cacheRemovedNames
        refine ⟨_, hremoved, htidy _ hremoved, ?_⟩
        by_cases hsame : m = n
        · subst hsame
          rw [hloaded] at hcomplete hforgotten
          exact .inr ⟨(dropped_iff hfront).mpr ⟨rfl, rest, _, attributes, _, rfl, hkind⟩,
            hcomplete, hforgotten⟩
        · exact .inl ⟨hothers n (hkeeps n hn) (Ne.symm hsame),
            fun hdropped => hsame ((dropped_iff hfront).mp hdropped).1⟩
  · have hmade := (failsBy_findChild dir name true _ _ _ _ hfailed).of_still hstill
    have hnot : ¬ t.Dropped dir name (exchanges ++ []) n := not_dropped hfailed nofun
    rw [List.append_nil] at hnot
    have hc' := hmade.children? hc
    exact ⟨c, hc', htidy _ hc', .inl ⟨hn, hnot⟩⟩

/-- A name that the array of a directory answers with a child can be that of a file, and the array has
a child of that name. -/
theorem exists_children_of_findCached (ht : t.Tidy)
    (h : (findCached dir name).run t = .done (.ok (.present n)) t) :
    ∃ c, t.children? dir = some c ∧ isFileName name = true ∧ n ∈ c.present ∧
      t.policy.key name = t.policy.key n.name := by
  cases hc : t.children? dir with
  | none =>
    have hrun : (findCached dir name).run t = .done (.error (.notADirectory dir.id)) t := by
      unfold findCached childrenOf
      simp only [run_bind, run_get, Run.bind_done_ok, hc, run_require_none, Run.bind_done_error]
    rw [hrun] at h
    cases h
  | some c =>
    rw [run_findCached hc] at h
    injection h with hresult
    injection hresult with hknown
    obtain ⟨hpolicy, htidy⟩ := ht dir c hc
    split at hknown
    · next hname =>
      rw [Children.find_of_isFileName htidy hname, Ledger.answer_eq_present_iff] at hknown
      obtain ⟨hn, hkey⟩ := mem_present_of_fact? htidy hknown
      rw [hpolicy] at hkey
      exact ⟨c, rfl, hname, hn, hkey.symm⟩
    · cases hknown

/-- When a check that the backend failed has left a cached child denied. Say that nothing else
happened while the backend was asked, and that the name of a file was answered with a child before.

The name is answered with the child still, exactly unless the check dropped the child because its
kind had changed. It is denied exactly if the check dropped the child, and either the names of
removed children are recorded as absent or the listing of the directory was complete. Then a lookup
denies the file as well, and asks nothing. -/
theorem failed_check_absent_iff (ht : t.Tidy)
    (htook : ((refreshAndFindChild dir name).run t).Took exchanges (.error (.backend e)) last)
    (hstill : ∀ x ∈ exchanges, x.resumed = x.asked)
    (hcached : (findCached dir other).run t = .done (.ok (.present n)) t) :
    ((findCached dir other).run last = .done (.ok (.present n)) last ↔
        ¬ t.Dropped dir name exchanges n) ∧
      ((findCached dir other).run last = .done (.ok .absent) last ↔
        t.Dropped dir name exchanges n ∧
          (t.config.cacheRemovedNames = true ∨ t.Complete dir)) ∧
      ((lookup dir other).run last = .done (.ok .absent) last ↔
        (findCached dir other).run last = .done (.ok .absent) last) := by
  obtain ⟨c, hc, hname, hn, hkey⟩ := exists_children_of_findCached ht hcached
  obtain ⟨c', hc', ⟨hpolicy, htidy⟩, hafter⟩ := exists_children_of_failed ht hc htook hstill hn
  have hsame : c'.ledger.answer other = c'.ledger.answer n.name := by
    refine c'.ledger.answer_congr ?_
    show c'.policy.key other = c'.policy.key n.name
    rw [hpolicy, hkey]
  rw [run_lookup_absent_iff hc' htidy hname, run_findCached_of_tidy hc' htidy hname, hsame,
    complete_iff hc]
  rcases hafter with ⟨hpresent, hnot⟩ | ⟨hdropped, hcomplete, hfact⟩
  · have hanswer := Ledger.answer_eq_present_iff.mpr ((mem_present_iff htidy).mp hpresent)
    simp [hanswer, hnot]
  · have hledger : c'.ledger.complete = c.allLoaded := hcomplete
    have hanswer : c'.ledger.answer n.name =
        if t.config.cacheRemovedNames || c.allLoaded then .absent else .unknown := by
      rw [Ledger.answer, hfact, hledger]
      cases t.config.cacheRemovedNames <;> cases c.allLoaded <;> rfl
    rw [hanswer]
    cases t.config.cacheRemovedNames <;> cases c.allLoaded <;> simp [hdropped]

/-! ### A file that became a directory

Two files are looked up. Then a directory takes the place of the first one, and the backend fails to
spell names. -/

namespace Replaced

/-- The root of the tree. -/
def root : Node :=
  ⟨0, ⟨1, FileId.raw_one_ne_zero⟩, "root", none, { directory := true }⟩

/-- The file that is replaced. -/
def file : Node :=
  ⟨1, ⟨2, FileId.raw_two_ne_zero⟩, "a", some root.id, {}⟩

/-- The file beside it. -/
def sibling : Node :=
  ⟨2, ⟨3, FileId.raw_three_ne_zero⟩, "b", some root.id, {}⟩

/-- The backend, in which the first file has some attributes. -/
def table (attributes : Attributes) : Table :=
  ⟨.sensitive, [(root.id, [⟨"a", some file.id, some attributes⟩, ⟨"b", some sibling.id, some {}⟩])],
    [], []⟩

/-- Answers from a table while nothing else happens. -/
def answering (b : Table) (q : Query) (t : Tree) (_ : Unit) :
    Except BackendError q.Reply × Tree × Unit :=
  (b.answer q, t, ())

/-- The tree after a file was looked up. -/
def looked (name : String) (t : Tree) : Tree :=
  (((lookup root name).run t).serve (answering (table {})) ()).2.1

/-- The tree after both files were looked up. -/
def known : Tree :=
  looked "b" (looked "a" (ofRoot .sensitive {} root.id "root"))

/-- The backend with a directory for the first file, and no spellings. -/
def broken : Table :=
  (table { directory := true }).setFailure .canonical (some (.io (.other "backend offline")))

/-- The check of the first file, at its beginning. -/
def check : Run (Option Node) :=
  (refreshAndFindChild root "a").run known

/-- The tree after the check. -/
def checked : Tree :=
  (check.serve (answering broken) ()).2.1

/-- The backend fails the check. -/
theorem check_failed : (check.serve (answering broken) ()).1 =
    .error (.backend (.io (.other "backend offline"))) := by
  cbv

/-- The check finds the file in the array. -/
theorem took_lookup : ((findChild root "a" true).run known).Took [] (.ok (.present file)) known := by
  have hfound : (findChild root "a" true).run known = .done (.ok (.present file)) known := by cbv
  rw [hfound]
  exact .done _ _

/-- The check dropped the file, as the backend reported a directory in its place, and nothing else. -/
theorem dropped_check_iff {n : Node} :
    known.Dropped root "a" (check.exchanges (answering broken) ()) n ↔ file = n := by
  have hdropped : known.Dropped root "a" ([] ++ check.exchanges (answering broken) ()) n ↔ _ :=
    dropped_iff took_lookup
  refine hdropped.trans (and_iff_left ?_)
  exact ⟨(check.exchanges (answering broken) ()).tail, known.hold [file], { directory := true },
    known.hold [file], by cbv, by decide⟩

/-- The check took its exchanges to the failure. -/
theorem took_check : check.Took (check.exchanges (answering broken) ())
    (.error (.backend (.io (.other "backend offline")))) checked := by
  have htook := Run.took_serve (answering broken) check ()
  rwa [check_failed] at htook

/-- Nothing else happened. -/
theorem still_check : ∀ x ∈ check.exchanges (answering broken) (), x.resumed = x.asked := by
  intro x hx
  obtain ⟨_, -, hresumed⟩ := Run.exists_of_mem_exchanges hx
  exact hresumed

/-- The tree was tidy before the check. -/
theorem tidy_known : known.Tidy := by
  have hlooked : ∀ {name t}, t.Tidy → (looked name t).Tidy := by
    intro name t ht
    have hkeeps := (stable_tidy t).firm.lookup root name t ⟨ht, .refl t⟩
    refine ((Run.took_serve (answering (table {})) _ ()).always hkeeps fun x hx hasked => ?_).1
    obtain ⟨_, -, hresumed⟩ := Run.exists_of_mem_exchanges hx
    rwa [hresumed]
  exact hlooked (hlooked (tidy_ofRoot _ _ _ _))

/-- After the check the first file is denied, from the array and by a lookup, and the second one is
answered still. -/
theorem failed_check_absent_replaced :
    (findCached root "a").run checked = .done (.ok .absent) checked ∧
      (lookup root "a").run checked = .done (.ok .absent) checked ∧
      (findCached root "b").run checked = .done (.ok (.present sibling)) checked := by
  have hfile : (findCached root "a").run known = .done (.ok (.present file)) known := by cbv
  have hsibling : (findCached root "b").run known = .done (.ok (.present sibling)) known := by cbv
  obtain ⟨-, hdenied, hagain⟩ := failed_check_absent_iff tidy_known took_check still_check hfile
  obtain ⟨hkept, -, -⟩ := failed_check_absent_iff tidy_known took_check still_check hsibling
  have habsent := hdenied.mpr ⟨dropped_check_iff.mpr rfl, .inl (by cbv)⟩
  exact ⟨habsent, hagain.mpr habsent, hkept.mpr fun h => absurd (dropped_check_iff.mp h) (by decide)⟩

/-- It is not so that a check which the backend fails leaves no name denied that was answered with a
child before. -/
theorem not_failed_check_keeps : ¬ ∀ {t last : Tree} {dir n : Node} {name other : String}
    {exchanges : List Exchange} {e : BackendError}, t.Tidy →
    ((refreshAndFindChild dir name).run t).Took exchanges (.error (.backend e)) last →
    (∀ x ∈ exchanges, x.resumed = x.asked) →
    (findCached dir other).run t = .done (.ok (.present n)) t →
    (findCached dir other).run last ≠ .done (.ok .absent) last := by
  intro h
  have hfile : (findCached root "a").run known = .done (.ok (.present file)) known := by cbv
  have hdenied : (findCached root "a").run checked = .done (.ok .absent) checked := by cbv
  exact h tidy_known took_check still_check hfile hdenied

end Replaced

end Tree

end LazyTree
