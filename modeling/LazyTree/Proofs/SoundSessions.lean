import LazyTree.Proofs.InFlight
import LazyTree.Proofs.SoundOperations

set_option autoImplicit false

/-!
# Sessions without leaks

In a session operations on attached directories follow each other. While one of them waits for the
backend, there are whole sessions of others, and so on. An entry of the registry has leaked if its
identity is that of no attached node. No entry leaks in a session in which others respect what an
operation waits for: they leave its directory attached. If they do not, the operation registers what
it found under a directory that nothing leads to any more, and nobody is there to drop the entry.

## Main definitions

* `LazyTree.Tree.Begins` — an operation may begin.
* `LazyTree.Tree.Session` — a session.
* `LazyTree.Tree.Covered` — no entry of the registry has leaked.

## Main results

* `LazyTree.Tree.Sound.command` — each operation leaves the registry sound.
* `LazyTree.Tree.Session.sound` — so does each session in which operations are respected.
* `LazyTree.Tree.records_covered_iff` — when an entry leaks at the end of a lookup.
* `LazyTree.Tree.session_covered` — no entry leaks in such a session, and when one leaks in a lookup
  that others need not respect.
-/

namespace LazyTree

/-- The answer to a question of an operation on a directory came after things that respect the
operation. -/
def Exchange.Respected (dir : Node) (x : Exchange) : Prop :=
  Tree.Respects dir x.query x.asked x.resumed

/-- If nothing else happens, then operations are respected. -/
theorem Exchange.respected_of_eq {x : Exchange} {dir : Node} (h : x.resumed = x.asked) :
    x.Respected dir := by
  refine ⟨fun d hd _ => h ▸ hd, fun d n _ _ hfact m hm _ => ?_⟩
  rw [h, hfact] at hm
  exact (Fact.present.inj (Option.some.inj hm)).symm

namespace Tree

open TreeM

variable {t t' last : Tree} {dir top n : Node} {c : Children} {name : String}
  {exchanges : List Exchange} {result : Except TreeError Lookup}

/-! ### Operations -/

/-- The registry is sound, unless an operation came upon an endless path. -/
def Unharmed {α : Type} (result : Except TreeError α) (t : Tree) : Prop :=
  (∀ id, result ≠ .error (.endless id)) → t.Sound

/-- An operation does no harm if it keeps the registry sound. -/
theorem Sound.unharmed {α : Type} {act : TreeM α} (h : t.Sound) (hkeeps : Keeps Sound act) :
    (act.run t).Always (respectful top) Unharmed :=
  ((hkeeps t h).of_world fun _ _ _ _ hw => hw.2.1).mono fun _ _ h' _ => h'

/-- Showing the answer of an operation in another way does no harm. -/
theorem unharmed_map {α β : Type} {w : World} {act : TreeM α} (f : α → β)
    (h : (act.run t).Always w Unharmed) : ((f <$> act).run t).Always w Unharmed := by
  rw [run_map, Run.always_bind_iff]
  refine h.mono fun result t' h' => ?_
  cases result with
  | ok a => exact fun _ => h' nofun
  | error e =>
    exact fun hended => h' fun id hid => hended id (congrArg Except.error (Except.error.inj hid))

/-- An operation may begin: its directory is attached, a child that it adds is an object of the
tree, and no other object has taken the place of a child that it removes. -/
structure Begins (t : Tree) (on : Operands) (command : Command) : Prop where
  /-- The directory is attached. -/
  attached : t.Attached on.dir
  /-- A child that is added is an object. -/
  owns : command = .addChild → t.Owns on.child
  /-- A child that is removed has not been replaced. -/
  unreplaced : command = .removeChild → t.Unreplaced on.dir on.child

/-- Saying that some objects need a refresh leaves the registry sound. -/
theorem Sound.foldl_setDirty (h : t.Sound) (serials : List Nat) :
    (serials.foldl (Tree.setDirty · true) t).Sound := by
  induction serials generalizing t with
  | nil => exact h
  | cons serial rest ih => exact ih (h.setDirty true serial)

/-- Every operation that may begin leaves the registry sound, whatever answers the backend gives, if
others respect it while it asks. -/
theorem Sound.command (h : t.Sound) (handles : Handles) {on : Operands} {command : Command}
    (hbegins : t.Begins on command) :
    ((command.run handles on).run t).Always (respectful on.dir) Unharmed := by
  have hdir : t.SoundAt on.dir := ⟨h, hbegins.attached⟩
  cases command with
  | lookup name =>
    exact unharmed_map _ ((hdir.findChild name t.config.canonicalizeNames).mono
      fun _ _ h' _ => h'.sound)
  | lookupPath path =>
    exact unharmed_map _ ((h.lookupNames hdir.attached _).mono fun _ _ h' _ => h')
  | cached name => exact h.unharmed (.map _ (keeps_findCached on.dir name))
  | children => exact h.unharmed (.map _ (.bind (keeps_childrenOf on.dir) fun _ => .pure _))
  | refreshChildren =>
    exact unharmed_map _ (hdir.refreshChildren.mono fun _ _ h' hended => (h' hended).sound)
  | newChild raw name attributes =>
    simp only [Command.run]
    split
    · exact fun _ => h
    · exact unharmed_map _ fun _ => h.made (.make _ _ _ _ (.refl _))
  | addChild =>
    exact unharmed_map _ ((hdir.addChild (hbegins.owns rfl)).mono fun _ _ h' _ => h'.sound)
  | removeChild =>
    exact unharmed_map _ ((hdir.removeChild (hbegins.unreplaced rfl)).mono
      fun _ _ h' hended => (h' hended).sound)
  | clearChildren =>
    exact unharmed_map _ (hdir.clearChildren.mono fun _ _ h' hended => (h' hended).sound)
  | markAllLoaded => exact unharmed_map _ (hdir.markAllLoaded.mono fun _ _ h' _ => h'.sound)
  | absentNames => exact h.unharmed (.map _ (.bind (keeps_childrenOf on.dir) fun _ => .pure _))
  | findChildById source cachedOnly =>
    simp only [Command.run]
    split
    · exact fun _ => h
    · exact unharmed_map _ ((hdir.findChildById _ cachedOnly).mono fun _ _ h' _ => h'.sound)
  | refreshAndFindChild name =>
    exact unharmed_map _ ((hdir.refreshAndFindChild name).mono
      fun _ _ h' hended => (h' hended).sound)
  | pathOf =>
    refine h.unharmed (.map _ (.bind .get fun t => ?_))
    split
    · exact .pure _
    · exact .fail _
  | node raw =>
    simp only [Command.run]
    split
    · exact fun _ => h
    · exact h.unharmed (.bind .get fun _ => .pure _)
  | mark dirty => exact h.unharmed (.map _ (.modify fun _ h' => h'.setDirty dirty _))
  | markRecursively =>
    exact h.unharmed (.map _ (.bind .get fun _ => .bind (.require _ _) fun serials =>
      .modify fun _ h' => h'.foldl_setDirty serials))
  | info => exact fun _ => h
  | treeInfo => exact h.unharmed (.bind .get fun _ => .pure _)
  | drop handle => exact fun _ => h

/-! ### Sessions -/

/-- A session: operations that may begin where they do, and end, one after the other, with more
sessions while each of them waits for the backend. What is allowed in the exchanges of an operation
depends on its directory. -/
inductive Session (allowed : Node → Exchange → Prop) : Tree → Tree → Prop where
  /-- Nothing. -/
  | refl (t : Tree) : Session allowed t t
  /-- An operation, with other sessions while it asks the backend, and then more. -/
  | command {t t' t'' : Tree} (handles : Handles) (on : Operands) (command : Command)
      {exchanges : List Exchange} {result : Except TreeError (StepReply Node)}
      (begins : t.Begins on command)
      (took : ((command.run handles on).run t).Took exchanges result t')
      (ended : ∀ id, result ≠ .error (.endless id))
      (meanwhile : ∀ x ∈ exchanges, Session allowed x.asked x.resumed)
      (answered : ∀ x ∈ exchanges, allowed on.dir x)
      (rest : Session allowed t' t'') : Session allowed t t''
  /-- Other objects are held, and then more. -/
  | held {t t' : Tree} (held : List Nat) (rest : Session allowed { t with held := held } t') :
      Session allowed t t'

variable {allowed : Node → Exchange → Prop}

/-- Sessions may happen. -/
theorem Session.happens (h : Session allowed t t') : Happens t t' := by
  induction h with
  | refl t => exact .refl t
  | command handles on command _ took _ _ _ _ hmeanwhile ih =>
    exact .command handles on command took hmeanwhile ih
  | held held _ ih => exact .held held ih

/-- Sessions may follow each other. -/
theorem Session.trans {t'' : Tree} (h : Session allowed t t') (h' : Session allowed t' t'') :
    Session allowed t t'' := by
  induction h with
  | refl t => exact h'
  | command handles on command begins took ended meanwhile answered _ _ ih =>
    exact .command handles on command begins took ended meanwhile answered (ih h')
  | held held _ ih => exact .held held (ih h')

/-- Less may be asked of the exchanges. -/
theorem Session.mono {allowed' : Node → Exchange → Prop} (h : Session allowed t t')
    (hallowed : ∀ dir x, allowed dir x → allowed' dir x) : Session allowed' t t' := by
  induction h with
  | refl t => exact .refl t
  | command handles on command begins took ended _ answered _ hmeanwhile ih =>
    exact .command handles on command begins took ended hmeanwhile
      (fun x hx => hallowed on.dir x (answered x hx)) ih
  | held held _ ih => exact .held held ih

/-- A session in which operations are respected leaves the registry sound. -/
theorem Session.sound (h : Session Exchange.Respected t t') (ht : t.Sound) : t'.Sound := by
  induction h with
  | refl t => exact ht
  | command handles on command begins took ended meanwhile answered _ hmeanwhile ih =>
    exact ih (took.always (ht.command handles begins)
      (fun x hx => ⟨(meanwhile x hx).happens, hmeanwhile x hx, answered x hx⟩) ended)
  | held held _ ih => exact ih (ht.frame held)

/-- A tree with nothing but its root has a sound registry. -/
theorem sound_ofRoot (policy : CasePolicy) (config : TreeConfig) (root : FileId) (name : String) :
    (ofRoot policy config root name).Sound := by
  have hrooted := rooted_ofRoot policy config root name
  refine ⟨hrooted.tidy, hrooted.owns _ .root, fun dir c n hc hn => ?_, List.nodup_singleton _,
    fun n hn => ?_⟩
  · obtain ⟨cell, hcell, hsome⟩ := Option.bind_eq_some_iff.mp hc
    have hmem : cell ∈ [freshCell policy (ofRoot policy config root name).root false] :=
      Array.mem_toList_iff.mpr (Array.mem_of_getElem? hcell)
    rw [List.mem_singleton.mp hmem] at hsome
    obtain rfl : Children.empty policy = c := Option.some.inj hsome
    rw [Children.present_empty] at hn
    cases hn
  · rw [List.mem_singleton.mp hn]
    exact .root

/-! ### Leaks -/

/-- No entry of the registry has leaked: each is for the identity of an attached node. -/
def Covered (t : Tree) : Prop :=
  ∀ n ∈ t.registry.nodes, ∃ m, t.Attached m ∧ m.id = n.id

/-- No entry of a sound registry has leaked. -/
theorem Sound.covered (h : t.Sound) : t.Covered :=
  fun n hn => ⟨n, h.attached n hn, rfl⟩

/-- Making a node stand for its identity leaks an entry, unless an attached node has the identity. -/
theorem covered_register_iff (h : t.Covered) :
    (t.register n).Covered ↔ ∃ m, t.Attached m ∧ m.id = n.id := by
  have hattached : ∀ m, (t.register n).Attached m ↔ t.Attached m :=
    fun m => attached_congr (fun _ _ => rfl) rfl
  have hmem : ∀ k, k ∈ (t.register n).registry.nodes ↔ k = n ∨ k ∈ t.registry.nodes ∧ k.id ≠ n.id :=
    fun k => Registry.mem_put
  simp only [Covered, hattached, hmem]
  refine ⟨fun hcovered => hcovered n (.inl rfl), fun hn k hk => ?_⟩
  rcases hk with rfl | ⟨hold, -⟩
  · exact hn
  · exact h k hold

/-- The same nodes are attached before and after objects are made and the array of an object that is
not attached is changed. -/
theorem Sound.attached_apart_iff (h : t.Sound) (hmade : Made t t') (hdir : t.Owns dir)
    (hapart : ¬ t.Attached dir) (c' : Children) :
    (t'.setChildren dir c').Attached n ↔ t.Attached n := by
  refine attached_congr (fun d hd => ?_) hmade.unchanged.1
  have hserial : dir.serial ≠ d.serial :=
    fun hserial => hapart ((hdir.eq_of_serial (h.owns hd) hserial) ▸ hd)
  rw [children?_setChildren, if_neg hserial, hmade.children?_of_lt (h.owns hd).serial_lt]

/-- When an answer is recorded in an attached directory, no entry leaks. -/
theorem SoundAt.covered_recordAnswer {query : String} {id : Option FileId}
    {attributes : Option Attributes} (h : t.SoundAt dir)
    (hdir : (t.children? dir).isSome = true)
    (htook : ((Tree.recordAnswer dir name query id attributes).run t).Took [] result last) :
    last.Covered := by
  have hsought : Sought dir result last := htook.always
    (h.recordAnswer (w := respectful dir) hdir name query id attributes)
    fun x hx => absurd hx List.not_mem_nil
  exact hsought.sound.covered

/-- When it is recorded in a directory that is not attached that a child is missing, no entry leaks. -/
theorem Sound.covered_missing {query : String} (h : t.Sound) (howns : t.Owns dir)
    (hapart : ¬ t.Attached dir) (hc : t.children? dir = some c)
    (htook : ((recordAnswer dir name query none none).run t).Took [] result last) :
    last.Covered := by
  rw [run_recordAnswer_none h.tidy hc, Run.took_done_iff] at htook
  obtain ⟨-, -, rfl⟩ := htook
  intro n hn
  exact ⟨n, (h.attached_apart_iff (.refl t) howns hapart _).mpr (h.attached n hn), rfl⟩

/-- When it is recorded in a directory that is not attached that a child was found, an entry leaks
exactly if a child is answered whose identity is that of no attached node. -/
theorem Sound.covered_found_iff {query : String} {id : FileId} {attributes : Attributes}
    (h : t.Sound) (howns : t.Owns dir) (hapart : ¬ t.Attached dir) (hc : t.children? dir = some c)
    (htook : ((recordAnswer dir name query (some id) (some attributes)).run t).Took [] result last) :
    last.Covered ↔
      ∀ n, result = .ok (.present n) → ∃ m, t.Attached m ∧ m.id = n.id := by
  have hmade : Made t (t.make dir id query attributes).2 := .make _ _ _ _ (.refl _)
  rw [run_recordAnswer_found h.tidy hc, Run.took_done_iff] at htook
  generalize t.make dir id query attributes = made at *
  obtain ⟨child, t₁⟩ := made
  dsimp only at *
  obtain ⟨-, rfl, rfl⟩ := htook
  have hattached := fun n =>
    h.attached_apart_iff (n := n) hmade howns hapart (c.insertIfUnknown child).2
  have hcovered : (t₁.setChildren dir (c.insertIfUnknown child).2).Covered := by
    intro n hn
    replace hn : n ∈ t₁.registry.nodes := hn
    rw [hmade.unchanged.2] at hn
    exact ⟨n, (hattached n).mpr (h.attached n hn), rfl⟩
  cases Lookup.ofKnowledge (c.ledger.insertIfUnknown child).1 with
  | absent => exact iff_of_true hcovered nofun
  | present n =>
    refine (covered_register_iff hcovered).trans ?_
    simp [hattached]

/-- An entry leaks when a lookup records its last answer exactly if the directory is not attached by
then, the backend has told of a child, and the lookup answers one whose identity is that of no
attached node. -/
theorem records_covered_iff {x : Exchange} (hx : x.Records dir name result last)
    (hsound : x.resumed.Sound) (howns : x.resumed.Owns dir)
    (hdir : (x.resumed.children? dir).isSome = true) :
    last.Covered ↔ x.resumed.Attached dir ∨ (x.found?.isSome = true →
      ∀ n, result = .ok (.present n) → ∃ m, x.resumed.Attached m ∧ m.id = n.id) := by
  obtain ⟨c, hc⟩ := Option.isSome_iff_exists.mp hdir
  unfold Exchange.Records at hx
  by_cases hattached : x.resumed.Attached dir
  · have hat : x.resumed.SoundAt dir := ⟨hsound, hattached⟩
    have hlast : last.Covered := by
      split at hx
      · obtain ⟨id, attributes, hx⟩ := hx
        exact hat.covered_recordAnswer hdir hx
      · obtain ⟨query, hx⟩ := hx
        exact hat.covered_recordAnswer hdir hx
    exact iff_of_true hlast (.inl hattached)
  · split at hx
    · next query hfound =>
      obtain ⟨id, attributes, hx⟩ := hx
      simpa [hfound, hattached] using hsound.covered_found_iff howns hattached hc hx
    · next hfound =>
      obtain ⟨query, hx⟩ := hx
      exact iff_of_true (hsound.covered_missing howns hattached hc hx) (.inr (by simp [hfound]))

/-- No entry leaks in a session from the beginning in which others respect every operation that waits
for the backend: all registered nodes are attached.

Say that such a session is followed by a lookup in an attached directory that others need not
respect, and that the backend does not fail. Then an entry leaks exactly if, when the last answer
comes, the directory is not attached any more, the backend has told of a child, and the lookup
answers one whose identity is that of no attached node. -/
theorem session_covered {policy : CasePolicy} {config : TreeConfig} {root : FileId}
    {rootName : String} (hs : Session Exchange.Respected (ofRoot policy config root rootName) t) :
    (∀ n ∈ t.registry.nodes, t.Attached n) ∧
      ∀ {dir : Node} {name : String} {exchanges : List Exchange} {result : Except TreeError Lookup}
        {last : Tree} {x : Exchange}, t.Attached dir →
        ((lookup dir name).run t).Took exchanges result last → exchanges.getLast? = some x →
        (∀ y ∈ exchanges, y.reply.isOk = true) →
        (∀ y ∈ exchanges, Session Exchange.Respected y.asked y.resumed) →
        (last.Covered ↔ x.resumed.Attached dir ∨ (x.found?.isSome = true →
          ∀ n, result = .ok (.present n) → ∃ m, x.resumed.Attached m ∧ m.id = n.id)) := by
  have hsound : t.Sound := hs.sound (sound_ofRoot policy config root rootName)
  refine ⟨hsound.attached, ?_⟩
  intro dir name exchanges result last x hdir htook hlast hok hworld
  have hsome : exchanges ≠ [] := by
    rintro rfl
    cases hlast
  obtain ⟨hisSome, -, hchain, front, x', rfl, hrecords⟩ := lookup_took_of
    (P := fun u => Happens t u ∧ u.Sound) (fun _ hu => ⟨hu.2.tidy, hu.1.later hsound.tidy⟩)
    ⟨.refl t, hsound⟩ htook hsome hok
    fun y hy hasked => ⟨hasked.1.trans (hworld y hy).happens, (hworld y hy).sound hasked.2⟩
  obtain rfl : x' = x := by simpa using hlast
  obtain ⟨hnow, hsound'⟩ := (hchain x' (by simp)).2
  exact records_covered_iff hrecords hsound' (hnow.owns (hsound.owns hdir))
    ((hnow.later hsound.tidy).isSome dir hisSome)

/-! ### A directory that is removed during a lookup

A directory is looked up in the root, and while its attributes are asked for another lookup finds it
as well. Then a file is looked up in the directory, and while its name is resolved the directory is
removed. -/

namespace Uprooted

/-- The root of the tree. -/
def root : Node :=
  ⟨0, ⟨1, FileId.raw_one_ne_zero⟩, "root", none, { directory := true }⟩

/-- The directory, as it is cached. -/
def folder : Node :=
  ⟨1, ⟨2, FileId.raw_two_ne_zero⟩, "d", some root.id, { directory := true }⟩

/-- The identity of the file in the directory. -/
def file : FileId := ⟨3, FileId.raw_three_ne_zero⟩

/-- The backend, which lists the directory and the file. -/
def table : Table :=
  ((Table.ofRoot .sensitive root.id).add root.id ⟨"d", some folder.id, some folder.attributes⟩).add
    folder.id ⟨"a", some file, some {}⟩

/-- The tree at the beginning. -/
def start : Tree :=
  ofRoot .sensitive {} root.id "root"

/-- Answers from the table while nothing else happens. -/
def quiet (q : Query) (t : Tree) (_ : Unit) : Except BackendError q.Reply × Tree × Unit :=
  (table.answer q, t, ())

/-- The tree after an operation on the root while nothing else happens. -/
def after (command : Command) (t : Tree) : Tree :=
  (((command.run [] ⟨root, root, folder⟩).run t).serve quiet ()).2.1

/-- Answers from the table, while an operation on the root happens during questions of one kind. -/
def during (kind : Query.Kind) (command : Command) (q : Query) (t : Tree) (_ : Unit) :
    Except BackendError q.Reply × Tree × Unit :=
  (table.answer q, if q.kind = kind then after command t else t, ())

/-- The lookup of the directory, at its beginning. -/
def first : Run (StepReply Node) :=
  ((Command.lookup "d").run [] ⟨root, root, folder⟩).run start

/-- The tree after the lookup of the directory. -/
def found : Tree :=
  (first.serve (during .attributes (.lookup "d")) ()).2.1

/-- The lookup of the file, at its beginning. -/
def second : Run Lookup :=
  (lookup folder "a").run found

/-- The same lookup as an operation of a session. -/
def search : Run (StepReply Node) :=
  ((Command.lookup "a").run [] ⟨folder, root, folder⟩).run found

/-- The tree after the removal of the directory. -/
def uprooted : Tree :=
  after .removeChild found

/-- The tree after the lookup of the file. -/
def leaked : Tree :=
  (search.serve (during .resolve .removeChild) ()).2.1

/-- The table is in order. -/
theorem orderly_table : table.Orderly root.id := by
  have hbare : (Table.ofRoot .sensitive root.id).Orderly root.id :=
    Table.orderly_of_single nofun .nil nofun nofun nofun
  have hfolder : (Table.ofRoot .sensitive root.id).Admits root.id root.id "d" folder.id :=
    Table.admits_of_new (by decide +kernel) (by decide +kernel) (by decide)
  have hlisted := hbare.add rfl hfolder folder.attributes
  exact hlisted.add (d := folder.id) rfl
    (Table.admits_of_new (by decide +kernel) (by decide +kernel) (by decide)) {}

/-- An operation that succeeds has come upon no endless path. -/
theorem not_endless_of_isOk {α : Type} {result : Except TreeError α} (h : result.isOk = true)
    (id : FileId) : result ≠ .error (.endless id) := by
  rintro rfl
  cases h

/-- The trees of two exchanges. -/
theorem trees_of_pairs {exchanges : List Exchange} {t t' u u' : Tree} {x : Exchange}
    (hpairs : exchanges.map (fun x => (x.asked, x.resumed)) = [(t, t'), (u, u')])
    (hx : x ∈ exchanges) : x.asked = t ∧ x.resumed = t' ∨ x.asked = u ∧ x.resumed = u' := by
  have hmem := List.mem_map_of_mem (f := fun x : Exchange => (x.asked, x.resumed)) hx
  simpa only [hpairs, List.mem_cons, List.not_mem_nil, or_false, Prod.mk.injEq] using hmem

/-- An operation on the root that begins where it may is a session, if nothing else happens. -/
theorem session_after {allowed : Node → Exchange → Prop} {command : Command} {t : Tree}
    (hbegins : t.Begins ⟨root, root, folder⟩ command)
    (hok : (((command.run [] ⟨root, root, folder⟩).run t).serve quiet ()).1.isOk = true)
    (hallowed : ∀ x : Exchange, x.resumed = x.asked → x.reply = table.answer x.query →
      allowed root x) : Session allowed t (after command t) := by
  refine .command [] ⟨root, root, folder⟩ command hbegins (Run.took_serve quiet _ ())
    (not_endless_of_isOk hok) (fun x hx => ?_) (fun x hx => ?_) (.refl _)
  · obtain ⟨_, -, hresumed⟩ := Run.exists_of_mem_exchanges hx
    rw [hresumed]
    exact .refl _
  · obtain ⟨_, hreply, hresumed⟩ := Run.exists_of_mem_exchanges hx
    exact hallowed x hresumed hreply

/-- Nothing but the root is attached at the beginning, and nothing is cached; so all is respected
that leaves the root. -/
theorem respected_of_start {x : Exchange} (hasked : x.asked = start) (hroot : x.resumed.root = root)
    (dir : Node) : x.Respected dir := by
  refine ⟨fun d hd _ => ?_, fun d n _ hd hfact => ?_⟩
  · rw [hasked] at hd
    obtain rfl : d = root := attached_ofRoot hd
    exact hroot ▸ .root
  · rw [hasked] at hd hfact
    obtain rfl : d = root := attached_ofRoot hd
    have hc : start.children? root = some (Children.empty .sensitive) := rfl
    rw [fact?_of_children? hc] at hfact
    cases hfact

/-- The lookup of the directory is a session in which operations are respected, with all answers from
the table. -/
theorem session_found :
    Session (fun dir x => x.Respected dir ∧ x.reply = table.answer x.query) start found := by
  have hinner : Session (fun dir x => x.Respected dir ∧ x.reply = table.answer x.query) start
      (after (.lookup "d") start) :=
    session_after ⟨.root, nofun, nofun⟩ (by decide +kernel)
      fun x hresumed hreply => ⟨Exchange.respected_of_eq hresumed, hreply⟩
  have hpairs : (first.exchanges (during .attributes (.lookup "d")) ()).map
      (fun x => (x.asked, x.resumed)) = [(start, start), (start, after (.lookup "d") start)] := by
    decide +kernel
  have hok : (first.serve (during .attributes (.lookup "d")) ()).1.isOk = true := by
    decide +kernel
  refine .command [] ⟨root, root, folder⟩ (.lookup "d") ⟨.root, nofun, nofun⟩
    (Run.took_serve (during .attributes (.lookup "d")) first ()) (not_endless_of_isOk hok)
    (fun x hx => ?_) (fun x hx => ?_) (.refl _)
  · rcases trees_of_pairs hpairs hx with ⟨hasked, hresumed⟩ | ⟨hasked, hresumed⟩
    · rw [hasked, hresumed]
      exact .refl _
    · rw [hasked, hresumed]
      exact hinner
  · obtain ⟨_, hreply, -⟩ := Run.exists_of_mem_exchanges hx
    rcases trees_of_pairs hpairs hx with ⟨hasked, hresumed⟩ | ⟨hasked, hresumed⟩
    · exact ⟨respected_of_start hasked (by rw [hresumed]; rfl) root, hreply⟩
    · exact ⟨respected_of_start hasked (by rw [hresumed]; decide +kernel) root, hreply⟩

/-- The directory is attached before it is removed. -/
theorem attached_folder : found.Attached folder := by
  have hpresent : (found.children? root).map Children.present = some [folder] := by
    decide +kernel
  obtain ⟨c, hc, hpresent⟩ := Option.map_eq_some_iff.mp hpresent
  have hroot : found.root = root := by decide +kernel
  exact .child (hroot ▸ .root) hc (hpresent ▸ List.mem_singleton_self _)

/-- The removal of the directory is a session. -/
theorem session_uprooted {allowed : Node → Exchange → Prop}
    (hallowed : ∀ x : Exchange, x.resumed = x.asked → x.reply = table.answer x.query →
      allowed root x) : Session allowed found uprooted := by
  have hroot : found.root = root := by decide +kernel
  have hcached : found.fact? root "d" = some (.present folder) := by decide +kernel
  refine session_after ⟨hroot ▸ .root, nofun, fun _ n hn _ => ?_⟩ (by decide +kernel) hallowed
  have hn : found.fact? root "d" = some (.present n) := hn
  exact Fact.present.inj (Option.some.inj (hn.symm.trans hcached))

/-- All that happens during the lookup of the file is the removal, while its name is resolved. -/
theorem session_during {allowed : Node → Exchange → Prop}
    (hallowed : ∀ x : Exchange, x.resumed = x.asked → x.reply = table.answer x.query →
      allowed root x) {exchanges : List Exchange}
    (hpairs : exchanges.map (fun x => (x.asked, x.resumed)) =
      [(found, uprooted), (uprooted, uprooted)]) :
    ∀ x ∈ exchanges, Session allowed x.asked x.resumed := by
  intro x hx
  rcases trees_of_pairs hpairs hx with ⟨hasked, hresumed⟩ | ⟨hasked, hresumed⟩
  · rw [hasked, hresumed]
    exact session_uprooted hallowed
  · rw [hasked, hresumed]
    exact .refl _

/-- Nothing but the root is attached after the removal. -/
theorem attached_uprooted {n : Node} (hn : uprooted.Attached n) : n = root :=
  List.mem_singleton.mp (hn.mem_of_closed (by decide +kernel) (by decide +kernel))

/-- The directory was looked up without a leak. But then the lookup of the file answers it, and its
entry has leaked. -/
theorem session_covered_uprooted : (∀ n ∈ found.registry.nodes, found.Attached n) ∧
    ¬ (second.serve (during .resolve .removeChild) ()).2.1.Covered := by
  have hsession : Session Exchange.Respected start found := session_found.mono fun _ _ h => h.1
  obtain ⟨hattached, hlookup⟩ := session_covered hsession
  refine ⟨hattached, fun hcovered => ?_⟩
  have hlast : (second.exchanges (during .resolve .removeChild) ()).getLast?.map
      (fun x => (x.resumed, x.found?)) = some (uprooted, some "a") := by
    decide +kernel
  obtain ⟨x, hx, hshape⟩ := Option.map_eq_some_iff.mp hlast
  obtain ⟨hresumed, hfound⟩ := Prod.mk.inj hshape
  have hok : (second.exchanges (during .resolve .removeChild) ()).all (·.reply.isOk) = true := by
    decide +kernel
  have hmeanwhile : ∀ y ∈ second.exchanges (during .resolve .removeChild) (),
      Session Exchange.Respected y.asked y.resumed :=
    session_during (fun _ hstill _ => Exchange.respected_of_eq hstill) (by decide +kernel)
  have hiff := hlookup attached_folder (Run.took_serve _ second ()) hx (List.all_eq_true.mp hok)
    hmeanwhile
  rw [hresumed] at hiff
  rcases hiff.mp hcovered with hstill | hsame
  · exact absurd (attached_uprooted hstill) (by decide)
  · have hanswer : (second.serve (during .resolve .removeChild) ()).1.toOption =
        some (.present ⟨3, file, "a", some folder.id, {}⟩) := by
      decide +kernel
    cases hresult : (second.serve (during .resolve .removeChild) ()).1 with
    | error e =>
      rw [hresult] at hanswer
      cases hanswer
    | ok answer =>
      rw [hresult] at hanswer hsame
      obtain ⟨m, hm, hid⟩ := hsame (by rw [hfound]; rfl) _
        (congrArg Except.ok (Option.some.inj hanswer))
      rw [attached_uprooted hm] at hid
      exact absurd hid (by decide)

/-- It is not so that no entry leaks in a session in which a table in order gives all answers: the
directory may be removed while the file is looked up. -/
theorem not_session_covered : ¬ ∀ {b : Table} {policy : CasePolicy} {config : TreeConfig}
    {root : FileId} {rootName : String} {t : Tree}, b.Orderly root → b.policy = policy →
    Session (fun _ x => x.reply = b.answer x.query) (ofRoot policy config root rootName) t →
    t.Covered := by
  intro h
  have hfound : Session (fun _ x => x.reply = table.answer x.query) start found :=
    session_found.mono fun _ _ h => h.2
  have hok : (search.serve (during .resolve .removeChild) ()).1.isOk = true := by decide +kernel
  have hleaked : Session (fun _ x => x.reply = table.answer x.query) found leaked := by
    refine .command [] ⟨folder, root, folder⟩ (.lookup "a") ⟨attached_folder, nofun, nofun⟩
      (Run.took_serve (during .resolve .removeChild) search ()) (not_endless_of_isOk hok)
      (session_during (fun _ _ hreply => hreply) (by decide +kernel)) (fun x hx => ?_) (.refl _)
    obtain ⟨_, hreply, -⟩ := Run.exists_of_mem_exchanges hx
    exact hreply
  have hentries : leaked.registry.nodes.map Node.id = [file, root.id] := by decide +kernel
  obtain ⟨n, hn, hid⟩ : ∃ n ∈ leaked.registry.nodes, n.id = file :=
    List.mem_map.mp (hentries ▸ List.mem_cons_self)
  obtain ⟨m, hm, hsame⟩ := h orderly_table rfl (hfound.trans hleaked) n hn
  have hm : m = root :=
    List.mem_singleton.mp (hm.mem_of_closed (by decide +kernel) (by decide +kernel))
  rw [hm, hid] at hsame
  exact absurd hsame (by decide)

end Uprooted

end Tree

end LazyTree
