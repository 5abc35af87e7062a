import Mathlib
import LazyTree.Proofs.KeptLookups
import LazyTree.Proofs.RepeatedLookups

set_option autoImplicit false

/-!
# Names where case distinguishes them

Where case distinguishes names, a lookup finds a node of exactly the name that was asked for: it
asks the backend under that name alone. A check does so, too, as long as it does not add a child. If
it adds one, it asks for the backend's spelling, and looks for case variants then; so it takes the
attributes of the child that has the name, and may go on with the spelling and the identity of
another one, whose name differs by case.

## Main definitions

* `LazyTree.Exchange.spelling?` — the spelling that the backend gave.
* `LazyTree.Exchange.Reports` — the backend reported the attributes of a child.
* `LazyTree.Exchange.Accounts`, `LazyTree.Tree.Traced` — where a node comes from that was found.

## Main results

* `LazyTree.Tree.traced_findChild` — a lookup finds a node of the name.
* `LazyTree.Tree.traced_materializeCreated` — a child that is added has the backend's spelling.
* `LazyTree.Tree.found_name_iff` — when a check finds a node of the name.
-/

namespace LazyTree

/-- The spelling that the backend gave, if the question was for one. -/
def Exchange.spelling? : Exchange → Option String
  | ⟨.canonical _ _, _, .ok spelling, _⟩ => some spelling
  | _ => none

/-- The backend reported the attributes of the child of a directory that has a name. -/
def Exchange.Reports (x : Exchange) (d : FileId) (name : String) (attributes : Attributes) : Prop :=
  ∃ asked resumed, x = ⟨.attributes d name, asked, .ok (some attributes), resumed⟩

/-- An exchange accounts for a node that an operation found under a name of a directory: the node
was known when the answer came, or the answer told the attributes of the name with which it was
made. -/
def Exchange.Accounts (x : Exchange) (dir : Node) (name : String) (n : Node) : Prop :=
  x.resumed.fact? dir n.name = some (.present n) ∨ x.Reports dir.id name n.attributes

namespace Tree

open TreeM

variable {t last : Tree} {dir n : Node} {c : Children} {name : String}
  {exchanges : List Exchange}

/-- Where a node comes from that an operation found under a name of a directory: it was known at the
beginning, or some exchange accounts for it. -/
def Traced (t : Tree) (dir : Node) (name : String) (exchanges : List Exchange) (n : Node) : Prop :=
  t.fact? dir n.name = some (.present n) ∨ ∃ x ∈ exchanges, x.Accounts dir name n

/-- Where case distinguishes names, a child that is known to have a name has exactly that name. -/
theorem name_of_fact? (ht : t.Tidy) (hpolicy : t.policy = .sensitive)
    (h : t.fact? dir name = some (.present n)) : n.name = name := by
  obtain ⟨c, hc, hfact⟩ := Option.bind_eq_some_iff.mp h
  obtain ⟨hcpolicy, hctidy⟩ := ht dir c hc
  have hkey := (mem_present_of_fact? hctidy hfact).2
  rw [hcpolicy, hpolicy] at hkey
  exact String.toList_inj.mp hkey

/-! ### Lookups -/

/-- Recording what the backend said of a name answers a child of that name, which was known, or is
made with the attributes that were reported. -/
theorem named_recordAnswer (ht : t.Tidy) (hpolicy : t.policy = .sensitive)
    (hdir : (t.children? dir).isSome = true) {id : Option FileId} {attributes : Option Attributes}
    (h : ((recordAnswer dir name name id attributes).run t).Took exchanges
      (.ok (.present n)) last) :
    n.name = name ∧
      (t.fact? dir n.name = some (.present n) ∨ attributes = some n.attributes) := by
  obtain ⟨c, hc⟩ := Option.isSome_iff_exists.mp hdir
  have hold : c.ledger.fact? name = some (.present n) →
      n.name = name ∧ t.fact? dir n.name = some (.present n) := by
    intro hfact
    rw [← fact?_of_children? hc] at hfact
    obtain rfl := name_of_fact? ht hpolicy hfact
    exact ⟨rfl, hfact⟩
  have hmissing : ((recordAnswer dir name name none none).run t).Took exchanges
      (.ok (.present n)) last → n.name = name ∧ t.fact? dir n.name = some (.present n) := by
    intro h
    rw [run_recordAnswer_none ht hc] at h
    obtain ⟨-, hanswer, -⟩ := Run.took_done_iff.mp h
    refine hold (Ledger.insertAbsent_answered (Lookup.node?_ofKnowledge.mp ?_))
    rw [← Except.ok.inj hanswer]
    rfl
  cases id with
  | none => exact (hmissing h).imp_right .inl
  | some id =>
    cases attributes with
    | none => exact (hmissing h).imp_right .inl
    | some attributes =>
      rw [run_recordAnswer_found ht hc] at h
      obtain ⟨-, hanswer, -⟩ := Run.took_done_iff.mp h
      have hknown := Ledger.insertIfUnknown_answered (Lookup.node?_ofKnowledge.mp
        (show (Lookup.ofKnowledge _).node? = some n by rw [← Except.ok.inj hanswer]; rfl))
      rcases Ledger.present_insertIfUnknown hknown with hfact | ⟨rfl, -⟩
      · exact (hold hfact).imp_right .inl
      · exact ⟨rfl, .inr rfl⟩

/-- Asking for a name under itself asks for no spelling, and finds a node of the name. -/
theorem traced_askFor (ht : t.Tidy) (hpolicy : t.policy = .sensitive)
    (hdir : (t.children? dir).isSome = true) {asked : CasePolicy} {answer : Lookup}
    (htook : ((askFor dir name name asked).run t).Took exchanges (.ok answer) last)
    (hworld : ∀ x ∈ exchanges, Happens x.asked x.resumed) :
    (∀ x ∈ exchanges, x.spelling? = none) ∧
      ∀ n, answer = .present n → n.name = name ∧ Traced t dir name exchanges n := by
  obtain ⟨id, t₁, rest, rfl, htook₁⟩ := took_ask_bind_ok htook
  obtain ⟨h₁, hrest⟩ := List.forall_mem_cons.mp hworld
  have hdir₁ := (h₁.later ht).isSome dir hdir
  have hpolicy₁ := (h₁.later ht).policy.trans hpolicy
  cases id with
  | none =>
    obtain rfl := recordAnswer_took_nil (h₁.tidy ht) hdir₁ htook₁
    refine ⟨List.forall_mem_singleton.mpr rfl, ?_⟩
    rintro n rfl
    obtain ⟨hn, hknown | hmade⟩ := named_recordAnswer (h₁.tidy ht) hpolicy₁ hdir₁ htook₁
    · exact ⟨hn, .inr ⟨_, List.mem_cons_self, .inl hknown⟩⟩
    · cases hmade
  | some id =>
    obtain ⟨attributes, t₂, rest, rfl, htook₂⟩ := took_ask_bind_ok htook₁
    have h₂ := Happens.trans h₁ (hrest _ List.mem_cons_self)
    have hdir₂ := (h₂.later ht).isSome dir hdir
    have hpolicy₂ := (h₂.later ht).policy.trans hpolicy
    obtain rfl := recordAnswer_took_nil (h₂.tidy ht) hdir₂ htook₂
    refine ⟨List.forall_mem_cons.mpr ⟨rfl, List.forall_mem_singleton.mpr rfl⟩, ?_⟩
    rintro n rfl
    obtain ⟨hn, hknown | rfl⟩ := named_recordAnswer (h₂.tidy ht) hpolicy₂ hdir₂ htook₂
    · exact ⟨hn, .inr ⟨_, List.mem_cons_of_mem _ List.mem_cons_self, .inl hknown⟩⟩
    · exact ⟨hn, .inr ⟨_, List.mem_cons_of_mem _ List.mem_cons_self, .inr ⟨t₁, t₂, rfl⟩⟩⟩

/-- A lookup asks for no spelling where case distinguishes names. A node that it finds has exactly
the name, and was known, or is made with the attributes that the backend reported of it. -/
theorem traced_findChild (ht : t.Tidy) (hpolicy : t.policy = .sensitive) {canonicalize : Bool}
    {answer : Lookup}
    (htook : ((findChild dir name canonicalize).run t).Took exchanges (.ok answer) last)
    (hworld : ∀ x ∈ exchanges, Happens x.asked x.resumed) :
    (∀ x ∈ exchanges, x.spelling? = none) ∧
      ∀ n, answer = .present n → n.name = name ∧ Traced t dir name exchanges n := by
  rw [run_findChild] at htook
  cases hc : t.children? dir with
  | none =>
    rw [hc] at htook
    cases (Run.took_done_iff.mp htook).2.1
  | some c =>
    have hdir : (t.children? dir).isSome = true := by rw [hc]; rfl
    have hplain : (canonicalize && !t.policy.isSensitive) = false := by
      rw [hpolicy]
      exact Bool.and_false canonicalize
    rw [hc, hplain] at htook
    dsimp only at htook
    cases hknown : (if isFileName name then c.find name else .absent : Knowledge) with
    | present m =>
      rw [hknown] at htook
      obtain ⟨hnone, hanswer, -⟩ := Run.took_done_iff.mp htook
      subst hnone
      refine ⟨fun _ hx => absurd hx List.not_mem_nil, fun n hn => ?_⟩
      obtain rfl : m = n := by
        rw [hn] at hanswer
        cases hanswer
        rfl
      split at hknown
      · next hname =>
        rw [Children.find_of_isFileName (ht dir c hc).2 hname, Ledger.answer_eq_present_iff,
          ← fact?_of_children? hc] at hknown
        obtain rfl := name_of_fact? ht hpolicy hknown
        exact ⟨rfl, .inl hknown⟩
      · cases hknown
    | absent =>
      rw [hknown] at htook
      obtain ⟨hnone, hanswer, -⟩ := Run.took_done_iff.mp htook
      subst hnone
      refine ⟨fun _ hx => absurd hx List.not_mem_nil, fun n hn => ?_⟩
      rw [hn] at hanswer
      cases hanswer
    | unknown =>
      rw [hknown] at htook
      exact traced_askFor ht hpolicy hdir htook hworld

/-! ### Checks -/

/-- Making a child and adding it answers a child of its name, which was known, or is the new one. -/
theorem named_addNew (ht : t.Tidy) (hpolicy : t.policy = .sensitive)
    (hdir : (t.children? dir).isSome = true) {id : FileId} {spelling : String}
    {attributes : Attributes}
    (h : ((newChild dir id spelling attributes >>= fun child =>
      some <$> addChild dir child).run t).Took exchanges (.ok (some n)) last) :
    exchanges = [] ∧ n.name = spelling ∧
      (t.fact? dir n.name = some (.present n) ∨ n.attributes = attributes) := by
  obtain ⟨c, hc⟩ := Option.isSome_iff_exists.mp hdir
  have hrun := run_addChild (ht.make dir id spelling attributes)
    (children?_make_of_children? hc dir id spelling attributes)
    (t.make dir id spelling attributes).1
  have hadded : (newChild dir id spelling attributes >>= fun child =>
      some <$> addChild dir child).run t = _ :=
    congrArg (Run.bind · fun a => (pure (some a) : TreeM (Option Node)).run) hrun
  rw [hadded] at h
  obtain ⟨hnone, hn, -⟩ := Run.took_done_iff.mp h
  obtain rfl : n = (c.ledger.insert (t.make dir id spelling attributes).1).1 := by
    injection hn with hn
    injection hn
  refine ⟨hnone, ?_⟩
  rcases Ledger.present_insert (l := c.ledger) Ledger.insert_answered with hold | ⟨hnew, -⟩
  · rw [← fact?_of_children? hc] at hold
    have hname := name_of_fact? ht hpolicy hold
    rw [hname]
    exact ⟨rfl, .inl hold⟩
  · rw [hnew]
    exact ⟨rfl, .inr rfl⟩

/-- A child that is added is one that was known, or is made with the attributes that the backend
reported of the name. It has the spelling that the backend gave, whatever that is. -/
theorem traced_materializeCreated (ht : t.Tidy) (hpolicy : t.policy = .sensitive)
    (hdir : (t.children? dir).isSome = true)
    (htook : ((materializeCreated dir name).run t).Took exchanges (.ok (some n)) last)
    (hworld : ∀ x ∈ exchanges, Happens x.asked x.resumed) :
    (n.name = name ↔ ∀ x ∈ exchanges, ∀ spelling, x.spelling? = some spelling → spelling = name) ∧
      ∃ x ∈ exchanges, x.Accounts dir name n := by
  unfold materializeCreated at htook
  split at htook
  · cases (Run.took_done_iff.mp htook).2.1
  obtain ⟨attributes, t₁, rest, rfl, htook₁⟩ := took_ask_bind_ok htook
  obtain ⟨h₁, hrest⟩ := List.forall_mem_cons.mp hworld
  cases attributes with
  | none => cases (Run.took_done_iff.mp htook₁).2.1
  | some attributes =>
    obtain ⟨spelling, t₂, rest, rfl, htook₂⟩ := took_ask_bind_ok htook₁
    obtain ⟨h₂, hrest⟩ := List.forall_mem_cons.mp hrest
    rw [run_bind, run_get, Run.bind_done_ok] at htook₂
    obtain ⟨id, t₃, rest, rfl, htook₃⟩ := took_ask_bind_ok htook₂
    have h₃ := Happens.trans (Happens.trans h₁ h₂) (hrest _ List.mem_cons_self)
    cases id with
    | none => cases (Run.took_done_iff.mp htook₃).2.1
    | some id =>
      have hdir₃ := (h₃.later ht).isSome dir hdir
      have hpolicy₃ := (h₃.later ht).policy.trans hpolicy
      obtain ⟨rfl, rfl, hknown | rfl⟩ := named_addNew (h₃.tidy ht) hpolicy₃ hdir₃ htook₃
      · exact ⟨by simp [Exchange.spelling?], _, List.mem_cons_of_mem _
          (List.mem_cons_of_mem _ List.mem_cons_self), .inl hknown⟩
      · exact ⟨by simp [Exchange.spelling?], _, List.mem_cons_self, .inr ⟨t, t₁, rfl⟩⟩

/-- A check of a child of the name answers that child, or a new one as above. -/
theorem traced_recheck (ht : t.Tidy) (hpolicy : t.policy = .sensitive)
    (hdir : (t.children? dir).isSome = true) {m : Node} (hm : m.name = name)
    (htook : ((recheck dir m).run t).Took exchanges (.ok (some n)) last)
    (hworld : ∀ x ∈ exchanges, Happens x.asked x.resumed) :
    (n.name = name ↔ ∀ x ∈ exchanges, ∀ spelling, x.spelling? = some spelling → spelling = name) ∧
      (n = m ∨ ∃ x ∈ exchanges, x.Accounts dir name n) := by
  subst hm
  obtain ⟨attributes, t₁, rest, rfl, htook₁⟩ := took_ask_bind_ok htook
  obtain ⟨h₁, hrest⟩ := List.forall_mem_cons.mp hworld
  have ht₁ := Happens.tidy h₁ ht
  obtain ⟨c, hc⟩ := Option.isSome_iff_exists.mp ((Happens.later h₁ ht).isSome dir hdir)
  have hremoved := run_removeChild ht₁ hc m
  have hkept := (stable_tidy t₁).firm.removeChild dir m t₁ ⟨ht₁, .refl t₁⟩
  obtain ⟨removed, registry, hrun⟩ := hremoved
  rw [hrun] at hkept
  cases attributes with
  | none =>
    rcases Run.took_bind htook₁ with ⟨_, _, _, _, -, -, hend⟩ | ⟨_, ⟨⟩, -⟩
    cases (Run.took_done_iff.mp hend).2.1
  | some attributes =>
    dsimp only at htook₁
    split at htook₁
    · obtain ⟨rfl, hn, -⟩ := Run.took_done_iff.mp htook₁
      injection hn with hn
      injection hn with hn
      subst hn
      refine ⟨iff_of_true rfl ?_, .inl rfl⟩
      simp [Exchange.spelling?]
    · rw [run_bind, hrun] at htook₁
      cases removed with
      | error e => cases (Run.took_done_iff.mp htook₁).2.1
      | ok removed =>
        -- a child is added under the name of the one that was removed
        rw [Run.bind_done_ok] at htook₁
        obtain ⟨ht₂, hlater⟩ := hkept
        have hdir₂ := hlater.isSome dir (by rw [hc]; rfl)
        have hpolicy₂ := (hlater.policy.trans (Happens.later h₁ ht).policy).trans hpolicy
        obtain ⟨hname, x, hx, haccounts⟩ :=
          traced_materializeCreated ht₂ hpolicy₂ hdir₂ htook₁ hrest
        refine ⟨?_, .inr ⟨x, List.mem_cons_of_mem _ hx, haccounts⟩⟩
        rw [hname, List.forall_mem_cons]
        exact (and_iff_right fun _ h => by cases h).symm

/-- What a lookup and a check find where case distinguishes names, whatever happens while they ask
and whatever the backend answers.

A node that a lookup finds has exactly the name that was asked for. A node that a check finds has
that name exactly if no other spelling was given by the backend while the check asked for one. In
both cases the node was known, at the beginning or when an answer came, or it was made with the
attributes that the backend reported of exactly the name. -/
theorem found_name_iff (ht : t.Tidy) (hpolicy : t.policy = .sensitive) (dir : Node)
    (name : String) :
    (∀ exchanges n last, ((lookup dir name).run t).Took exchanges (.ok (.present n)) last →
      (∀ x ∈ exchanges, Happens x.asked x.resumed) →
      n.name = name ∧ Traced t dir name exchanges n) ∧
    ∀ exchanges n last, ((refreshAndFindChild dir name).run t).Took exchanges (.ok (some n)) last →
      (∀ x ∈ exchanges, Happens x.asked x.resumed) →
      (n.name = name ↔
        ∀ x ∈ exchanges, ∀ spelling, x.spelling? = some spelling → spelling = name) ∧
      Traced t dir name exchanges n := by
  constructor
  · intro exchanges n last htook hworld
    exact (traced_findChild ht hpolicy htook hworld).2 n rfl
  · intro exchanges n last htook hworld
    rcases Run.took_bind htook with ⟨answer, t₁, front, back, rfl, hfront, hback⟩ | ⟨_, ⟨⟩, -⟩
    obtain ⟨hfronts, hbacks⟩ := List.forall_mem_append.mp hworld
    obtain ⟨hplain, hfound⟩ := traced_findChild ht hpolicy hfront hfronts
    obtain ⟨ht₁, hlater⟩ := hfront.always ((stable_tidy t).firm.findChild dir name true t
      ⟨ht, .refl t⟩) fun x hx => (stable_tidy t).happens (hfronts x hx)
    have hpolicy₁ := hlater.policy.trans hpolicy
    have hdir : (t.children? dir).isSome = true := by
      cases hc : t.children? dir with
      | some c => rfl
      | none =>
        replace hfront : ((findChild dir name true).run t).Took front (.ok answer) t₁ := hfront
        rw [run_findChild, hc] at hfront
        cases (Run.took_done_iff.mp hfront).2.1
    have hdir₁ := hlater.isSome dir hdir
    have hspelling : (∀ x ∈ front ++ back, ∀ spelling, x.spelling? = some spelling →
        spelling = name) ↔
          ∀ x ∈ back, ∀ spelling, x.spelling? = some spelling → spelling = name := by
      rw [List.forall_mem_append]
      refine and_iff_right fun x hx spelling hspelling => ?_
      rw [hplain x hx] at hspelling
      cases hspelling
    rw [hspelling]
    cases answer with
    | absent =>
      obtain ⟨hname, x, hx, haccounts⟩ :=
        traced_materializeCreated ht₁ hpolicy₁ hdir₁ hback hbacks
      exact ⟨hname, .inr ⟨x, List.mem_append_right _ hx, haccounts⟩⟩
    | present m =>
      obtain ⟨hm, hmorigin⟩ := hfound m rfl
      obtain ⟨t₂, hinner, -⟩ := Run.took_settle hback
      obtain ⟨hname, horigin⟩ := traced_recheck (t := t₁.hold [m]) ht₁ hpolicy₁ hdir₁ hm hinner
        hbacks
      refine ⟨hname, ?_⟩
      rcases horigin with rfl | ⟨x, hx, haccounts⟩
      · exact hmorigin.imp_right fun ⟨x, hx, haccounts⟩ =>
          ⟨x, List.mem_append_left _ hx, haccounts⟩
      · exact .inr ⟨x, List.mem_append_right _ hx, haccounts⟩

/-! ### A case variant

A name is looked up that no file has. Then two files come whose names differ by case, the second one
of which has that name, and the name is checked. -/

namespace Variants

/-- The root of the tree. -/
def root : Node :=
  ⟨0, ⟨1, FileId.raw_one_ne_zero⟩, "root", none, { directory := true }⟩

/-- The backend at first, without files. -/
def bare : Table :=
  Table.ofRoot .sensitive root.id

/-- The identity of the directory that has the first name. -/
def variant : FileId := ⟨7, by decide⟩

/-- The identity of the file that has the second name. -/
def wanted : FileId := ⟨6, by decide⟩

/-- The backend with both. -/
def table : Table :=
  (bare.add root.id ⟨"FOO", some variant, some { directory := true }⟩).add root.id
    ⟨"foo", some wanted, some {}⟩

/-- The table is in order. -/
theorem orderly_table : table.Orderly root.id := by
  have hbare : bare.Orderly root.id := Table.orderly_of_single nofun .nil nofun nofun nofun
  have hvariant : bare.Admits root.id root.id "FOO" variant :=
    Table.admits_of_new (by decide +kernel) (by decide +kernel) (by decide)
  exact (hbare.add rfl hvariant { directory := true }).add rfl
    (Table.admits_of_new (by decide +kernel) (by decide +kernel) (by decide)) {}

/-- The tree before anything happened. -/
def start : Tree :=
  ofRoot .sensitive {} root.id "root"

/-- Answers from a table while nothing else happens. -/
def quiet (b : Table) (q : Query) (t : Tree) (_ : Unit) :
    Except BackendError q.Reply × Tree × Unit :=
  (b.answer q, t, ())

/-- The tree after the lookup of the missing name. -/
def known : Tree :=
  ((((Command.lookup "foo").run [] ⟨root, root, root⟩).run start).serve (quiet bare) ()).2.1

/-- The check, at its beginning. -/
def check : Run (Option Node) :=
  (refreshAndFindChild root "foo").run known

/-- Nothing else happens while a table answers. -/
theorem happens_quiet {α : Type} {b : Table} {run : Run α} {x : Exchange}
    (hx : x ∈ run.exchanges (quiet b) ()) : Happens x.asked x.resumed := by
  obtain ⟨_, -, hresumed⟩ := Run.exists_of_mem_exchanges hx
  rw [hresumed]
  exact .refl _

/-- The lookup of the missing name may happen. -/
theorem happens_known : Happens start known :=
  .command [] ⟨root, root, root⟩ (.lookup "foo") (Run.took_serve (quiet bare) _ ())
    (fun _ hx => happens_quiet hx) (.refl _)

/-- The node that the check finds: it has the name and the identity of the directory, and the
attributes of the file. -/
def mixed : Node :=
  ⟨1, variant, "FOO", some root.id, {}⟩

/-- The check finds that node. -/
theorem check_found : (check.serve (quiet table) ()).1 = .ok (some mixed) := by
  have hresult : (check.serve (quiet table) ()).1.toOption = some (some mixed) := by
    decide +kernel
  cases h : (check.serve (quiet table) ()).1 with
  | ok found =>
    rw [h] at hresult
    exact congrArg Except.ok (Option.some.inj hresult)
  | error e =>
    rw [h] at hresult
    cases hresult

/-- The check took its exchanges to that end. -/
theorem took_check : check.Took (check.exchanges (quiet table) ()) (.ok (some mixed))
    (check.serve (quiet table) ()).2.1 := by
  have htook := Run.took_serve (quiet table) check ()
  rwa [check_found] at htook

/-- A check finds a node of the other name, so the backend has given another spelling. It was not
known, so it was made with attributes that the backend reported of the name. -/
theorem found_name_iff_variants :
    check.Took (check.exchanges (quiet table) ()) (.ok (some mixed))
        (check.serve (quiet table) ()).2.1 ∧
      (¬ ∀ x ∈ check.exchanges (quiet table) (), ∀ spelling, x.spelling? = some spelling →
        spelling = "foo") ∧
      known.Traced root "foo" (check.exchanges (quiet table) ()) mixed := by
  have htidy : known.Tidy := happens_known.tidy (tidy_ofRoot _ _ _ _)
  have hpolicy : known.policy = .sensitive := (happens_known.later (tidy_ofRoot _ _ _ _)).policy
  obtain ⟨-, hchecked⟩ := found_name_iff htidy hpolicy root "foo"
  obtain ⟨hname, horigin⟩ := hchecked _ _ _ took_check fun _ hx => happens_quiet hx
  exact ⟨took_check, fun hsame => absurd (hname.mpr hsame) (by decide), horigin⟩

/-- It is not so that where case distinguishes names a check finds no node but of the name that was
asked for, not even if a table in order answers all questions. -/
theorem not_found_name : ¬ ∀ {config : TreeConfig} {root : FileId} {rootName : String} {t : Tree}
    {b : Table} {dir n : Node} {name : String},
    Happens (ofRoot .sensitive config root rootName) t → b.policy = .sensitive → b.Orderly root →
    t.AttachedDirectory dir → isFileName name = true →
    (((refreshAndFindChild dir name).run t).serve (quiet b) ()).1 = .ok (some n) →
    n.name = name := by
  intro h
  have hroot : known.root = root := by decide +kernel
  have hattached : known.AttachedDirectory root := ⟨hroot ▸ .root, rfl⟩
  have hname : mixed.name = "foo" :=
    h happens_known (by decide) orderly_table hattached (by decide +kernel) check_found
  exact absurd hname (by decide)

end Variants

end Tree

end LazyTree
