import LazyTree.Proofs.InFlight

set_option autoImplicit false

/-!
# Lookups that are repeated

When a lookup ends with an answer, the array of the directory gives that very answer for the name
from then on, and for every other spelling of it, whatever happened while the lookup was asking. So
a lookup that follows at once asks nothing. A child may have been recorded under the backend's
spelling and a missing name under the one that was looked up; where case does not distinguish names
both are the same name, as long as the backend's spelling is one of the name that it was asked for.

## Main definitions

* `LazyTree.Lookup.knowledge` — what is known of a name once it was looked up.
* `LazyTree.Exchange.spellsAlike` — a backend spells a name as one that is the same.
* `LazyTree.Tree.Settled` — an answer is what is known of a name.

## Main results

* `LazyTree.Ledger.answer_insertAbsent`, `LazyTree.Ledger.answer_insertIfUnknown` — what is answered
  when something is recorded is what is known afterwards.
* `LazyTree.Tree.always_settled` — a lookup leaves its answer known.
* `LazyTree.Tree.lookup_again` — a lookup that follows gives the same answer and asks nothing.
-/

namespace LazyTree

/-- What is known of a name once it was looked up. -/
def Lookup.knowledge : Lookup → Knowledge
  | present child => .present child
  | absent => .absent

/-- If the question was for the backend's spelling of a name, then the answer is a name that is the
same when case is folded. -/
def Exchange.spellsAlike : Exchange → Bool
  | ⟨.canonical _ name, _, .ok spelled, _⟩ => CasePolicy.insensitive.same spelled name
  | _ => true

namespace Ledger

/-- What is answered when a name is recorded as free is what is known of it afterwards. -/
theorem answer_insertAbsent (l : Ledger) {name : String} (hname : name.isEmpty = false) :
    (l.insertAbsent name).2.answer name =
      (Lookup.ofKnowledge (l.insertAbsent name).1).knowledge := by
  rw [insertAbsent, hname, answer]
  cases hfact : l.fact? name with
  | some fact => cases fact <;> simp [hfact, Lookup.ofKnowledge, Lookup.knowledge]
  | none =>
    cases hcomplete : l.complete with
    | true => simp [hfact, hcomplete, Lookup.ofKnowledge, Lookup.knowledge]
    | false => simp [fact?_record, Lookup.ofKnowledge, Lookup.knowledge]

/-- What is answered when a child is recorded is what is known of its name afterwards. -/
theorem answer_insertIfUnknown (l : Ledger) (child : Node) :
    (l.insertIfUnknown child).2.answer child.name =
      (Lookup.ofKnowledge (l.insertIfUnknown child).1).knowledge := by
  rw [insertIfUnknown, answer]
  cases hfact : l.fact? child.name with
  | some fact => cases fact <;> simp [hfact, Lookup.ofKnowledge, Lookup.knowledge]
  | none => simp [fact?_record, Lookup.ofKnowledge, Lookup.knowledge]

end Ledger

namespace Tree

open TreeM

variable {t last : Tree} {dir : Node} {c : Children} {name query : String}

/-- An answer is what is known of a name of a directory; no file has a text that is no name. -/
structure Settled (dir : Node) (name : String) (answer : Lookup) (t : Tree) : Prop where
  /-- All arrays are tidy. -/
  tidy : t.Tidy
  /-- The array of the directory gives the answer. -/
  known : ∃ c, t.children? dir = some c ∧
    if isFileName name then c.ledger.answer name = answer.knowledge else answer = .absent

/-- Anything may happen while a question is open, but a backend spells a name as one that is the
same when case is folded. -/
def spellingAlike : World :=
  fun q t reply t' => Happens t t' ∧ Exchange.spellsAlike ⟨q, t, reply, t'⟩ = true

/-- What the array of a directory answers is settled. -/
theorem settled_of_known (ht : t.Tidy) (hc : t.children? dir = some c) {answer : Lookup}
    (hanswer : (if isFileName name then c.ledger.answer name else .absent) = answer.knowledge) :
    Settled dir name answer t := by
  refine ⟨ht, c, hc, ?_⟩
  split at hanswer
  · next hname => rwa [if_pos hname]
  · next hname =>
    rw [if_neg hname]
    cases answer with
    | present n => cases hanswer
    | absent => rfl

/-! ### Recording answers -/

/-- An admissible change of an array leaves known what the ledger answers afterwards. -/
theorem settled_change (ht : t.Tidy) (hc : t.children? dir = some c) (hname : isFileName name = true)
    (op : Children.Op) (hop : op.Admissible c.policy) {answer : Lookup}
    (hanswer : (c.ledger.apply op).2.answer name = answer.knowledge) :
    Settled dir name answer (t.setChildren dir (c.apply op).2) := by
  have hfollows := Children.apply_follows (ht dir c hc).2 hop
  have hop' : op.Admissible t.policy := by rwa [← (ht dir c hc).1]
  have htidy := ((stable_tidy t).update _ _ (.change t dir c op hc hop') ⟨ht, .refl t⟩).1
  refine ⟨htidy, _, children?_setChildren_self hc _, ?_⟩
  rw [if_pos hname, hfollows.ledger]
  exact hanswer

/-- Recording an answer leaves known what the lookup ends with. -/
theorem settled_recordAnswer {w : World} (ht : t.Tidy) (hdir : (t.children? dir).isSome = true)
    (hname : isFileName name = true) (hquery : t.policy.key query = t.policy.key name)
    (id : Option FileId) (attributes : Option Attributes) :
    ((recordAnswer dir name query id attributes).run t).Always w fun result last =>
      ∀ answer, result = .ok answer → Settled dir name answer last := by
  obtain ⟨c, hc⟩ := Option.isSome_iff_exists.mp hdir
  have hpolicy : c.ledger.policy = t.policy := (ht dir c hc).1
  have hempty : name.isEmpty = false := by
    refine Bool.eq_false_iff.mpr fun h => ?_
    simp [isFileName, h] at hname
  have hmissing : ((recordAnswer dir name query none none).run t).Always w fun result last =>
      ∀ answer, result = .ok answer → Settled dir name answer last := by
    rw [run_recordAnswer_none ht hc]
    rintro answer ⟨⟩
    exact settled_change ht hc hname (.insertAbsent name) trivial
      (c.ledger.answer_insertAbsent hempty)
  cases id with
  | none => exact hmissing
  | some id =>
    cases attributes with
    | none => exact hmissing
    | some attributes =>
      obtain ⟨registry, hrun⟩ := run_recordAnswer_some ht hc name query id attributes
      rw [hrun]
      rintro answer ⟨⟩
      have hmade := children?_make_of_children? hc dir id query attributes
      have hanswer := c.ledger.answer_insertIfUnknown (t.make dir id query attributes).1
      have hkey : (c.ledger.apply (.insertIfUnknown (t.make dir id query attributes).1)).2.policy.key
          (t.make dir id query attributes).1.name =
          (c.ledger.apply (.insertIfUnknown (t.make dir id query attributes).1)).2.policy.key
            name := by
        rw [Ledger.apply_policy, hpolicy]
        exact hquery
      obtain ⟨htidy, known⟩ := settled_change (ht.make dir id query attributes) hmade hname
        (.insertIfUnknown _) trivial ((Ledger.answer_congr _ hkey).symm.trans hanswer)
      exact ⟨htidy, known⟩

/-! ### Lookups -/

/-- Asking for a name under a spelling of it leaves the answer known. -/
theorem settled_askFor (ht : t.Tidy) (hdir : (t.children? dir).isSome = true)
    (hname : isFileName name = true) (hquery : t.policy.key query = t.policy.key name)
    (policy : CasePolicy) :
    ((askFor dir name query policy).run t).Always spellingAlike fun result last =>
      ∀ answer, result = .ok answer → Settled dir name answer last := by
  refine always_ask_bind_iff.mpr ⟨fun id t₁ ⟨h₁, _⟩ => ?_, fun _ _ _ _ h => by cases h⟩
  have hdir₁ := (h₁.later ht).isSome dir hdir
  have hquery₁ : t₁.policy.key query = t₁.policy.key name := by rwa [(h₁.later ht).policy]
  cases id with
  | none => exact settled_recordAnswer (h₁.tidy ht) hdir₁ hname hquery₁ none none
  | some id =>
    refine always_ask_bind_iff.mpr ⟨fun attributes t₂ ⟨h₂, _⟩ => ?_, fun _ _ _ _ h => by cases h⟩
    have h := h₁.trans h₂
    refine settled_recordAnswer (h.tidy ht) ((h.later ht).isSome dir hdir) hname ?_ (some id)
      attributes
    rwa [(h.later ht).policy]

/-- A lookup that ends with an answer leaves that answer known, whatever happens meanwhile. -/
theorem always_settled (ht : t.Tidy) (dir : Node) (name : String) :
    ((lookup dir name).run t).Always spellingAlike fun result last =>
      ∀ answer, result = .ok answer → Settled dir name answer last := by
  have hrun : (lookup dir name).run t = (findChild dir name t.config.canonicalizeNames).run t := rfl
  rw [hrun, run_findChild]
  cases hc : t.children? dir with
  | none => exact fun answer h => by cases h
  | some c =>
    dsimp only
    have hfind : (if isFileName name then c.find name else .absent) =
        if isFileName name then c.ledger.answer name else .absent := by
      split
      · next hname => exact Children.find_of_isFileName (ht dir c hc).2 hname
      · rfl
    split
    · next n hknown =>
      rintro answer ⟨⟩
      exact settled_of_known ht hc (hfind.symm.trans hknown)
    · next hknown =>
      rintro answer ⟨⟩
      exact settled_of_known ht hc (hfind.symm.trans hknown)
    · next hunknown =>
      have hdir : (t.children? dir).isSome = true := by rw [hc]; rfl
      have hname : isFileName name = true := by
        refine Bool.of_not_eq_false fun h => ?_
        simp [h] at hunknown
      split
      · next hwanted =>
        -- names are the same when case is folded, and so is the backend's spelling
        have hinsensitive : t.policy = .insensitive := by
          cases hp : t.policy with
          | sensitive => simp [hp, CasePolicy.isSensitive] at hwanted
          | insensitive => rfl
        refine always_ask_bind_iff.mpr ⟨fun spelled t₁ ⟨h₁, hspelled⟩ => ?_,
          fun _ _ _ _ h => by cases h⟩
        refine settled_askFor (h₁.tidy ht) ((h₁.later ht).isSome dir hdir) hname ?_ t.policy
        rw [(h₁.later ht).policy, hinsensitive]
        exact CasePolicy.same_iff.mp hspelled
      · exact settled_askFor ht hdir hname rfl t.policy

/-- Where an answer is known of a name, each spelling of it is answered so from the array alone, and
a lookup of it asks nothing. -/
theorem Settled.again {answer : Lookup} (h : Settled dir name answer t) {name' : String}
    (hsame : t.policy.same name' name = true) (hvalid : isFileName name' = isFileName name) :
    (findCached dir name').run t = .done (.ok answer.knowledge) t ∧
      (lookup dir name').run t = .done (.ok answer) t := by
  obtain ⟨htidy, c, hc, hanswer⟩ := h
  have hkey : c.ledger.policy.key name' = c.ledger.policy.key name := by
    have hpolicy : c.ledger.policy = t.policy := (htidy dir c hc).1
    rw [hpolicy]
    exact CasePolicy.same_iff.mp hsame
  have hfind : (if isFileName name' then c.find name' else .absent) = answer.knowledge := by
    rw [hvalid]
    split at hanswer
    · next hname =>
      rw [if_pos hname, Children.find_of_isFileName (htidy dir c hc).2 (hvalid.trans hname),
        c.ledger.answer_congr hkey, hanswer]
    · next hname =>
      rw [if_neg hname, hanswer]
      rfl
  constructor
  · rw [run_findCached hc, hfind]
  · have hrun : (lookup dir name').run t =
        (findChild dir name' t.config.canonicalizeNames).run t := rfl
    rw [hrun, run_findChild, hc]
    dsimp only
    rw [hfind]
    cases answer <;> rfl

/-- A lookup's answer is what the array says from then on. Whatever happened while the lookup was
asking, for each spelling of the name that is a name of a file exactly if the name is, the array
gives the answer of the lookup, and another lookup asks nothing and gives that answer. -/
theorem lookup_again {exchanges : List Exchange} {answer : Lookup} (ht : t.Tidy)
    (htook : ((lookup dir name).run t).Took exchanges (.ok answer) last)
    (hworld : ∀ x ∈ exchanges, Happens x.asked x.resumed)
    (hspelling : ∀ x ∈ exchanges, x.spellsAlike = true) {name' : String}
    (hsame : t.policy.same name' name = true) (hvalid : isFileName name' = isFileName name) :
    (findCached dir name').run last = .done (.ok answer.knowledge) last ∧
      (lookup dir name').run last = .done (.ok answer) last := by
  have hsettled : Settled dir name answer last :=
    htook.always (always_settled ht dir name) (fun x hx => ⟨hworld x hx, hspelling x hx⟩) _ rfl
  have hlater : last.Tidy ∧ Later t last :=
    htook.always ((stable_tidy t).firm.lookup dir name t ⟨ht, .refl t⟩)
      fun x hx => (stable_tidy t).happens (hworld x hx)
  exact hsettled.again (by rwa [hlater.2.policy]) hvalid

/-! ### Three spellings

A file is looked up under two spellings at once, and then under a third one. -/

namespace Respelled

/-- The root of the tree. -/
def root : Node :=
  ⟨0, ⟨1, FileId.raw_one_ne_zero⟩, "root", none, { directory := true }⟩

/-- The file, as the lookup that was faster makes a node for it. -/
def file : Node :=
  ⟨1, ⟨2, FileId.raw_two_ne_zero⟩, "Foo", some root.id, {}⟩

/-- The backend, which lists the file. -/
def table : Table :=
  (Table.ofRoot .insensitive root.id).add root.id ⟨"Foo", some file.id, some {}⟩

/-- The tree before the lookups. -/
def start : Tree :=
  ofRoot .insensitive {} root.id "root"

/-- Answers from the table while nothing else happens. -/
def quiet (q : Query) (t : Tree) (_ : Unit) : Except BackendError q.Reply × Tree × Unit :=
  (table.answer q, t, ())

/-- The tree after the lookup that is faster. -/
def overtaken (t : Tree) : Tree :=
  ((((Command.lookup "FOO").run [] ⟨root, root, root⟩).run t).serve quiet ()).2.1

/-- Answers from the table, while another lookup overtakes the one that asks for attributes. -/
def racing (q : Query) (t : Tree) (_ : Unit) : Except BackendError q.Reply × Tree × Unit :=
  (table.answer q, if q.kind = .attributes then overtaken t else t, ())

/-- The lookup that is overtaken, at its beginning. -/
def lookupFile : Run Lookup :=
  (lookup root "foo").run start

/-- Being overtaken may happen. -/
theorem happens_racing {x : Exchange} (hx : x ∈ lookupFile.exchanges racing ()) :
    Happens x.asked x.resumed := by
  obtain ⟨_, -, hresumed⟩ := Run.exists_of_mem_exchanges hx
  rw [hresumed, racing]
  dsimp only
  split
  · refine .command [] ⟨root, root, root⟩ (.lookup "FOO") (Run.took_serve quiet _ ()) ?_ (.refl _)
    intro y hy
    obtain ⟨_, -, hresumed⟩ := Run.exists_of_mem_exchanges hy
    rw [hresumed]
    exact .refl _
  · exact .refl _

/-- The lookup that is overtaken answers the node of the other one, and so does a third lookup,
under yet another spelling, without a question. -/
theorem lookup_again_overtaken :
    (lookupFile.serve racing ()).1 = .ok (.present file) ∧
      (findCached root "fOO").run (lookupFile.serve racing ()).2.1 =
        .done (.ok (.present file)) (lookupFile.serve racing ()).2.1 ∧
      (lookup root "fOO").run (lookupFile.serve racing ()).2.1 =
        .done (.ok (.present file)) (lookupFile.serve racing ()).2.1 := by
  have hresult : (lookupFile.serve racing ()).1.toOption = some (.present file) := by
    decide +kernel
  have hanswer : (lookupFile.serve racing ()).1 = .ok (.present file) := by
    cases h : (lookupFile.serve racing ()).1 with
    | ok answer =>
      rw [h] at hresult
      exact congrArg Except.ok (Option.some.inj hresult)
    | error e =>
      rw [h] at hresult
      cases hresult
  have htook := Run.took_serve racing lookupFile ()
  rw [hanswer] at htook
  exact ⟨hanswer, lookup_again (tidy_ofRoot _ _ _ _) htook (fun x hx => happens_racing hx)
    (List.all_eq_true.mp (by decide +kernel)) (by decide +kernel) (by decide +kernel)⟩

end Respelled

end Tree

end LazyTree
