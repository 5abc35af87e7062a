import Mathlib
import LazyTree.Proofs.KeptLookups
import LazyTree.Proofs.ServedRuns

set_option autoImplicit false

/-!
# Where children really are

A backend remembers each directory by the names that led to it, and compares these names with the
directories that it may show. The host follows links on the way. So a child that a lookup finds is
where its names say as long as no link lies on the way to its directory, and then it may be shown
there. But a host may change: where a link has taken the place of a directory that a tree still knows,
a lookup in it finds what lies behind the link, and the names alone are checked.

## Main definitions

* `LazyTree.Host.Direct` — no link lies on the way to a location.
* `LazyTree.Disk.Shelters` — a location may be shown by a backend.
* `LazyTree.DiskSession.after` — a session after some steps.
* `LazyTree.DiskSession.Materializes` — a lookup makes a new child.

## Main results

* `LazyTree.Host.eq_iff_direct` — names lead where they say exactly if no link lies on the way.
* `LazyTree.DiskSession.new_child_sheltered` — where new children are.
* `LazyTree.DiskSession.Detour.not_all_sheltered` — a new child may be elsewhere.
-/

namespace LazyTree

/-! ### Ways without links -/

namespace Host

variable {h : Host} {location goal place front back : Location} {n : FileName} {links : Nat}
  {path : HostPath}

/-- No link lies on the way to a location, nor at its end. -/
def Direct (h : Host) (location : Location) : Prop :=
  ∀ front n back, location = front ++ n :: back → ∀ target, h.at? (front ++ [n]) ≠ some (.link target)

/-- What is at the end of a way is at the end of its second part, from the end of the first one. -/
theorem at?_append (h : Host) (front back : Location) :
    h.at? (front ++ back) = (h.at? front).bind (·.at? back) := by
  induction back using List.reverseRecOn with
  | nil => cases hat : h.at? front <;> simp [hat, Entry.at?]
  | append_singleton back n ih =>
    rw [← List.append_assoc, at?_concat, ih]
    cases hat : h.at? front with
    | none => rfl
    | some entry => exact (at?_concat { h with top := entry } back n).symm

/-- Nothing is behind a link, unless it is followed. -/
theorem at?_of_link {target : HostPath} (hlink : h.at? front = some (.link target)) :
    h.at? (front ++ n :: back) = none := by
  rw [at?_append, hlink]
  rfl

/-- A walk along names, all links followed, ends where the names say if no link lies on the way. -/
theorem eq_of_walkFrom_names {names : List FileName}
    (hdirect : ∀ front n back, names = front ++ n :: back →
      ∀ target, h.at? (place ++ front ++ [n]) ≠ some (.link target))
    (hwalk : h.walkFrom true links place (names.map .name) = .ok (.taken goal)) :
    goal = place ++ names := by
  induction names generalizing place with
  | nil =>
    rw [List.map_nil, walkFrom] at hwalk
    cases hwalk
    exact (List.append_nil _).symm
  | cons n rest ih =>
    have hfirst := hdirect [] n rest rfl
    rw [List.append_nil] at hfirst
    have hrest : h.walkFrom true links (place ++ [n]) (rest.map .name) = .ok (.taken goal) := by
      rw [List.map_cons, walkFrom] at hwalk
      · cases hat : h.at? place with
        | none => simp [hat] at hwalk
        | some entry =>
          rw [hat] at hwalk
          dsimp only at hwalk
          split at hwalk
          · cases hwalk
          · split at hwalk
            · cases hwalk
            · cases hchild : entry.child? n with
              | none =>
                rw [hchild] at hwalk
                dsimp only at hwalk
                split at hwalk <;> cases hwalk
              | some child =>
                have hnot : ∀ target, child ≠ .link target := by
                  rintro target rfl
                  refine hfirst target ?_
                  rw [at?_concat, hat, Option.bind_some, hchild]
                rw [hchild] at hwalk
                cases child with
                | link target => exact absurd rfl (hnot target)
                | _ => exact hwalk
      · rintro ⟨⟩
    have hbehind : ∀ front m back, rest = front ++ m :: back →
        ∀ target, h.at? (place ++ [n] ++ front ++ [m]) ≠ some (.link target) := by
      intro front m back heq target
      have hnext := hdirect (n :: front) m back (by rw [heq]; rfl) target
      simpa using hnext
    rw [ih hbehind hrest, List.append_assoc, List.singleton_append]

/-- Something that lies in a directory does not lie behind a link. -/
theorem not_link_of_at?_concat {entry : Entry} (hat : h.at? (place ++ [n]) = some entry) :
    ∀ target, h.at? place ≠ some (.link target) := by
  intro target hlink
  rw [at?_of_link hlink] at hat
  cases hat

/-- A walk, all links followed, does not end at a link. -/
theorem not_link_of_walkFrom (hwalk : h.walkFrom true links place path = .ok (.taken goal))
    (hplace : place ≠ [] → ∀ target, h.at? place ≠ some (.link target)) :
    goal ≠ [] → ∀ target, h.at? goal ≠ some (.link target) := by
  fun_induction walkFrom h true links place path with
  | case1 links =>
    cases hwalk
    exact hplace
  | case2 links place rest ih => exact ih hwalk fun hne => absurd rfl hne
  | case6 links place rest entry hat hdir _ ih => exact ih hwalk hplace
  | case7 links place rest entry hat hdir _ ih =>
    refine ih hwalk fun hne => ?_
    have hsome : place ≠ [] := fun hnil => hne (by rw [hnil]; rfl)
    rw [← List.dropLast_append_getLast hsome] at hat
    exact not_link_of_at?_concat hat
  | case13 place rest entry hat hdir m hsize target hchild _ links _ ih => exact ih hwalk hplace
  | case14 links place rest entry hat hdir m hsize child hlink hchild _ ih =>
    refine ih hwalk fun _ target htarget => ?_
    rw [at?_concat, hat, Option.bind_some, hchild] at htarget
    exact hlink target (Option.some.inj htarget)
  | _ => simp_all

/-- Where a path leads, all links followed, there is something. -/
theorem exists_of_locate (hlocate : h.locate path = .ok goal) :
    h.walk true path = .ok (.taken goal) ∧ ∃ entry, h.at? goal = some entry := by
  unfold locate reach at hlocate
  cases hwalk : h.walk true path with
  | error e => simp [hwalk, Except.map] at hlocate
  | ok reached =>
    rw [hwalk] at hlocate
    cases reached with
    | free dir n => cases hlocate
    | taken place =>
      dsimp only at hlocate
      cases hat : h.at? place with
      | none =>
        rw [hat] at hlocate
        cases hlocate
      | some entry =>
        rw [hat] at hlocate
        cases hlocate
        exact ⟨rfl, entry, hat⟩

/-- Names lead where they say exactly if no link lies on the way. -/
theorem eq_iff_direct (hlocate : h.locate (.ofNames location) = .ok goal) :
    goal = location ↔ h.Direct location := by
  obtain ⟨hwalk, entry, hat⟩ := exists_of_locate hlocate
  have hnames : h.walkFrom true linkLimit [] (location.map .name) = .ok (.taken goal) := by
    obtain ⟨-, start, hstart, hfrom⟩ := of_walk hwalk
    cases hstart
    rwa [HostPath.ofNames, walkFrom] at hfrom
  constructor
  · rintro rfl front n back rfl target hlink
    cases back with
    | nil =>
      refine not_link_of_walkFrom hnames (fun hne => absurd rfl hne) (by simp) target ?_
      exact hlink
    | cons m back =>
      rw [List.append_cons, at?_of_link hlink] at hat
      cases hat
  · intro hdirect
    have hgoal := eq_of_walkFrom_names (fun front n back heq target => ?_) hnames
    · rwa [List.nil_append] at hgoal
    · rw [List.nil_append]
      exact hdirect front n back heq target

end Host

/-! ### What a lookup finds -/

namespace Disk

variable {d : Disk} {h : Host} {p : Places} {dir n : Node} {real : Location}

/-- A location may be shown by a backend: it lies below the root, and on one way with one of the
directories that may be shown. -/
def Shelters (d : Disk) (location : Location) : Prop :=
  d.root <+: location ∧ ∃ a ∈ d.allowed, a.Aligned (.ofNames location)

/-- The location that the names of a place say may be shown if the place may. -/
theorem shelters_location {place : Below} (hallowed : d.allowed ≠ [])
    (hallows : d.allows place = true) : d.Shelters (d.location place) :=
  ⟨List.prefix_append _ _, (allows_iff.mp hallows).resolve_left hallowed⟩

/-- A backend has found a node in a directory: the identity of the node is that of a name in the
directory, where something is and may be shown. -/
def Finds (d : Disk) (h : Host) (p : Places) (dir n : Node) : Prop :=
  ∃ place m entry, p.pathOf? dir.id = some place ∧ p.pathOf? n.id = some (place ++ [m]) ∧
    h.lookAt (d.path (place ++ [m])) = .ok entry ∧ d.allows (place ++ [m]) = true

end Disk

namespace Tree

open TreeM

variable {t : Tree} {d : Disk} {h : Host} {p : Places} {dir : Node} {c : Children}

/-- A lookup that records an answer of a backend answers a child that was known, or one that the
backend has found. -/
theorem recordAnswer_finds (ht : t.Tidy) (hc : t.children? dir = some c) (name query : String)
    {id : Option FileId} {attributes : Option Attributes}
    (hfound : ∀ n : Node, id = some n.id → d.Finds h p dir n) :
    ((recordAnswer dir name query id attributes).run t).Always (d.told h p) fun result _ =>
      ∀ n, result = .ok (.present n) → n ∈ c.present ∨ d.Finds h p dir n := by
  have htidy := (ht dir c hc).2
  have hmissing : ((recordAnswer dir name query none none).run t).Always (d.told h p)
      fun result _ => ∀ n, result = .ok (.present n) → n ∈ c.present ∨ d.Finds h p dir n := by
    rw [run_recordAnswer_none ht hc]
    intro n hn
    have hanswer : (c.ledger.insertAbsent name).1 = .present n := by
      refine Lookup.node?_ofKnowledge.mp ?_
      rw [Except.ok.inj hn]
      rfl
    exact .inl (mem_present_of_fact? htidy (Ledger.insertAbsent_answered hanswer)).1
  cases id with
  | none => exact hmissing
  | some id =>
    cases attributes with
    | none => exact hmissing
    | some attributes =>
      rw [run_recordAnswer_found ht hc]
      intro n hn
      have hanswer : (c.ledger.insertIfUnknown (t.make dir id query attributes).1).1 =
          .present n := by
        refine Lookup.node?_ofKnowledge.mp ?_
        rw [Except.ok.inj hn]
        rfl
      rcases Ledger.present_insertIfUnknown (Ledger.insertIfUnknown_answered hanswer) with
        hold | ⟨rfl, -⟩
      · exact .inl (mem_present_of_fact? htidy hold).1
      · exact .inr (hfound _ rfl)

/-- A lookup answers a child that was known, or one that the backend has found. -/
theorem lookup_finds (ht : t.Tidy) (hc : t.children? dir = some c) (hp : p.Numbered)
    (name : String) :
    ((lookup dir name).run t).Always (d.told h p) fun result _ =>
      ∀ n, result = .ok (.present n) → n ∈ c.present ∨ d.Finds h p dir n := by
  have haskFor (query : String) (policy : CasePolicy) :
      ((askFor dir name query policy).run t).Always (d.told h p) fun result _ =>
        ∀ n, result = .ok (.present n) → n ∈ c.present ∨ d.Finds h p dir n := by
    refine always_ask_bind_iff.mpr ⟨fun id t' htold => ?_, fun _ _ _ _ => nofun⟩
    have hfound : ∀ n : Node, id = some n.id → d.Finds h p dir n := by
      rintro n rfl
      obtain ⟨-, place, m, entry, hplace, -, -, hlook, hallows, hid⟩ := Disk.told_resolve hp htold
      exact ⟨place, m, entry, hplace, hid, hlook, hallows⟩
    obtain ⟨rfl, -⟩ := htold
    cases id with
    | none => exact recordAnswer_finds ht hc name query hfound
    | some id =>
      refine always_ask_bind_iff.mpr ⟨fun attributes t' htold => ?_, fun _ _ _ _ => nofun⟩
      obtain ⟨rfl, -⟩ := htold
      exact recordAnswer_finds ht hc name query hfound
  have hrun : (lookup dir name).run t = (findChild dir name t.config.canonicalizeNames).run t := rfl
  rw [hrun, run_findChild, hc]
  dsimp only
  split
  · next node hknown =>
    rintro n ⟨⟩
    split at hknown
    · next hname =>
      rw [Children.find_of_isFileName (ht dir c hc).2 hname] at hknown
      exact .inl (mem_present_of_fact? (ht dir c hc).2
        (Ledger.answer_eq_present_iff.mp hknown)).1
    · cases hknown
  · exact nofun
  · split
    · refine always_ask_bind_iff.mpr ⟨fun query t' htold => ?_, fun _ _ _ _ => nofun⟩
      obtain ⟨rfl, -⟩ := htold
      exact haskFor query _
    · exact haskFor name _

end Tree

/-! ### Sessions -/

namespace DiskSession

/-- The session after some steps. -/
def after (s : DiskSession) (steps : List DiskStep) : DiskSession :=
  steps.foldl (fun s step => (s.step step).2) s

/-- What comes of steps: the backend has handed out identities, and operations have worked on the
tree. -/
structure Passes (s s' : DiskSession) : Prop where
  /-- The backend has handed out identities. -/
  grows : s.disk.Grows s'.disk
  /-- Operations have worked on the tree. -/
  happens : Tree.Happens s.base.tree s'.base.tree

namespace Passes

variable {s s' s'' : DiskSession}

/-- Nothing may come of steps. -/
theorem refl (hs : s.disk.places.Numbered) : s.Passes s :=
  ⟨.refl hs, .refl _⟩

/-- Steps may follow steps. -/
theorem trans (hfirst : s.Passes s') (hlater : s'.Passes s'') : s.Passes s'' :=
  ⟨hfirst.grows.trans hlater.grows, hfirst.happens.trans hlater.happens⟩

/-- The end of an operation holds and releases objects. -/
theorem happens_finish (base : TreeSession) (targets : Targets) (command : Command)
    (result : Except TreeError (StepReply Node)) :
    Tree.Happens base.tree (base.finish targets command result).2.tree := by
  have hdrop (base : TreeSession) (handle : String) :
      Tree.Happens base.tree (base.drop handle).tree := by
    unfold TreeSession.drop
    split
    · exact .held _ (.refl _)
    · exact .refl _
  unfold TreeSession.finish
  dsimp only
  split
  · exact (hdrop base _).trans (.held _ (.refl _))
  · exact hdrop base _
  · exact .refl _

/-- An operation works on the tree, and its questions make the backend hand out identities. -/
theorem operate (hs : s.disk.places.Numbered) (targets : Targets) (command : Command) :
    s.Passes (s.operate targets command).2 := by
  unfold DiskSession.operate
  split
  · exact .refl hs
  · next on _ =>
    let nodes := [on.dir, on.node, on.child]
    let run := (command.run s.base.handles on).run (s.base.tree.hold nodes)
    have hgrows := Disk.Grows.serve hs s.host run
    have hrun : Tree.Happens s.base.tree (run.serve (serve s.host) s.disk).2.1 := by
      refine .held _ (.command s.base.handles on command
        (Run.took_serve (serve s.host) run s.disk) ?_ (.refl _))
      intro x hx
      obtain ⟨_, -, hresumed⟩ := Run.exists_of_mem_exchanges hx
      rw [hresumed]
      exact .refl _
    have hfinish := happens_finish
      ⟨(run.serve (serve s.host) s.disk).2.1.release nodes, s.base.handles⟩ targets command
      (run.serve (serve s.host) s.disk).1
    exact ⟨hgrows, hrun.trans (.held _ hfinish)⟩

/-- A question to the backend makes it hand out identities. -/
theorem ask (hs : s.disk.places.Numbered) (q : Query) (reply : q.Reply → DiskReply) :
    s.Passes (s.ask q reply).2 := by
  have hanswer := Disk.Grows.answer hs s.host q
  unfold DiskSession.ask
  dsimp only
  split <;> exact ⟨hanswer, .refl _⟩

/-- So does each kind of question. -/
theorem question (hs : s.disk.places.Numbered) (q : Question) : s.Passes (s.question q).2 := by
  have hwithId (id : Noted) {next : FileId → DiskReply × DiskSession}
      (hnext : ∀ id, s.Passes (next id).2) : s.Passes (s.withId id next).2 := by
    unfold DiskSession.withId
    split
    · split
      · exact hnext _
      · exact .refl hs
    · split
      · exact hnext _
      · exact .refl hs
  have hkeep (note : Option String) {next : DiskReply × DiskSession}
      (hnext : s.Passes next.2) : s.Passes (keep note next).2 := by
    unfold keep
    split
    · split
      · exact ⟨hnext.grows, hnext.happens⟩
      · exact hnext
    · exact hnext
  cases q with
  | root =>
    have hroot := Disk.Grows.call hs s.host .root
    have hrequire : (s.disk.call s.host .root).2 = (s.disk.require []).2 := rfl
    rw [hrequire] at hroot
    unfold DiskSession.question
    dsimp only
    split <;> next heq => rw [heq] at hroot; exact ⟨hroot, .refl _⟩
  | resolve parent name policy note =>
    exact hwithId parent fun dir => hkeep note (ask hs _ _)
  | attributes parent name => exact hwithId parent fun dir => ask hs _ _
  | canonical parent name => exact hwithId parent fun dir => ask hs _ _
  | list parent => exact hwithId parent fun dir => ask hs _ _
  | nameOf id => exact hwithId id fun id => ask hs _ _
  | placeOf id => exact hwithId id fun id => .refl hs

/-- A change of the host changes neither the backend nor the tree. -/
theorem edit (hs : s.disk.places.Numbered) (change : HostEdit) : s.Passes (s.edit change).2 := by
  unfold DiskSession.edit
  dsimp only
  split
  · exact ⟨.refl hs, .refl _⟩
  · exact .refl hs

/-- Each step is one of these. -/
theorem step (hs : s.disk.places.Numbered) (step : DiskStep) : s.Passes (s.step step).2 := by
  cases step with
  | tree targets command => exact operate hs targets command
  | edit change => exact edit hs change
  | ask question => exact Passes.question hs question

/-- So are all of them, one after the other. -/
theorem after (hs : s.disk.places.Numbered) (steps : List DiskStep) :
    s.Passes (s.after steps) := by
  induction steps generalizing s with
  | nil => exact .refl hs
  | cons first steps ih =>
    have hfirst := step hs first
    exact hfirst.trans (ih hfirst.grows.numbered)

end Passes

/-! ### New children -/

/-- A lookup makes a new child of an attached directory, and leaves a backend. -/
structure Materializes (s : DiskSession) (dir : Node) (name : String) (n : Node) (d : Disk) : Prop
    where
  /-- The directory is attached. -/
  attached : s.base.tree.Attached dir
  /-- The lookup answers the child. -/
  answer : ∃ t, ((Tree.lookup dir name).run s.base.tree).serve (serve s.host) s.disk =
    (.ok (.present n), t, d)
  /-- The child was not in the directory. -/
  new : ∀ c, s.base.tree.children? dir = some c → n ∉ c.present

/-- A child of a directory really is at a location that may be shown. -/
def Sheltered (s : DiskSession) (dir n : Node) (d : Disk) : Prop :=
  ∃ place m real, d.places.pathOf? dir.id = some place ∧
    d.places.pathOf? n.id = some (place ++ [m]) ∧ s.host.locate (d.path place) = .ok real ∧
    d.Shelters (real ++ [.text m])

/-- Where new children are. A session was opened with directories that may be shown, and took any
steps, changes of the host among them. If a lookup makes a new child of an attached directory, then the
directory has a place, the child has a name in it, and the names that lead there pass the check; the
host follows them to some directory, which holds the child. That is where the names say exactly if no
link lies on the way to the directory, and if none does, the child really is at a location that may be
shown: below the root, and on one way with one of the directories, which are where their paths led when
the session was opened.

**Proof sketch.** A child is new only if the backend told its identity. Before it did so it found
something under the names of the place, and checked them. A walk along names leaves them only at a
link. -/
theorem new_child_sheltered {host : Host} {ground path : HostPath} {policy : CasePolicy}
    {config : TreeConfig} {allowed : List HostPath} {s₀ : DiskSession}
    (hopen : openAt host ground path policy config allowed = .ok s₀) (hallowed : allowed ≠ [])
    (steps : List DiskStep) :
    let s := s₀.after steps
    host.locate path = .ok s.disk.root ∧
      s.disk.allowed = allowed.map (Disk.resolveAllowed host) ∧
      ∀ dir name n d, s.Materializes dir name n d →
        s.disk.Grows d ∧ ∃ place m real entry,
          d.places.pathOf? dir.id = some place ∧ d.places.pathOf? n.id = some (place ++ [m]) ∧
          d.Shelters (d.location (place ++ [m])) ∧
          s.host.locate (d.path place) = .ok real ∧ s.host.at? (real ++ [.text m]) = some entry ∧
          (real = d.location place ↔ s.host.Direct (d.location place)) ∧
          (s.host.Direct (d.location place) → s.Sheltered dir n d) := by
  intro s
  obtain ⟨hroot, hnew, htree⟩ : host.locate path = .ok s₀.disk.root ∧
      s₀.disk = .ofRoot s₀.disk.root policy (allowed.map (Disk.resolveAllowed host)) ∧
      s₀.base.tree.Tidy := by
    unfold openAt at hopen
    cases hdisk : Disk.openAt host path policy allowed with
    | error e =>
      rw [hdisk] at hopen
      cases hopen
    | ok disk =>
      rw [hdisk] at hopen
      cases hopen
      obtain ⟨hlocate, heq⟩ := Disk.eq_ofRoot_of_openAt hdisk
      exact ⟨hlocate, heq, Tree.tidy_ofRoot policy config Disk.rootId disk.rootName⟩
  have hnumbered : s₀.disk.places.Numbered := by
    rw [hnew]
    exact Disk.numbered_ofRoot _ _ _
  have hpasses := Passes.after hnumbered steps
  have htidy : s.base.tree.Tidy := hpasses.happens.tidy htree
  have hdirs : s.disk.allowed = allowed.map (Disk.resolveAllowed host) := by
    rw [hpasses.grows.same, hnew]
    rfl
  refine ⟨?_, hdirs, fun dir name n d hmakes => ?_⟩
  · rw [hpasses.grows.same]
    exact hroot
  obtain ⟨t, hrun⟩ := hmakes.answer
  have hgrows : s.disk.Grows d := by
    have hserve := Disk.Grows.serve hpasses.grows.numbered s.host
      ((Tree.lookup dir name).run s.base.tree)
    rwa [hrun] at hserve
  -- the directory has an array, or else nothing is answered
  obtain ⟨c, hc⟩ : ∃ c, s.base.tree.children? dir = some c := by
    cases hc : s.base.tree.children? dir with
    | some c => exact ⟨c, rfl⟩
    | none =>
      have hfailed : (Tree.lookup dir name).run s.base.tree = _ := Tree.run_findChild dir name _ _
      rw [hfailed, hc] at hrun
      cases hrun
  have hfinds : n ∈ c.present ∨ s.disk.Finds s.host d.places dir n := by
    have hend := Disk.of_always_told hpasses.grows.numbered
      fun d' hgrows' => Tree.lookup_finds (d := s.disk) (h := s.host) htidy hc hgrows'.numbered name
    rw [hrun] at hend
    exact hend n rfl
  obtain ⟨place, m, entry, hplace, hid, hlook, hallows⟩ := hfinds.resolve_left (hmakes.new c hc)
  rw [Disk.path_concat] at hlook
  obtain ⟨-, -, real, folder, hwalk, hat, -, hchild⟩ :=
    (Host.lookAt_concat_eq_ok_iff (s.disk.path_ne_nil place)).mp hlook
  have hlocate : s.host.locate (s.disk.path place) = .ok real := by
    rw [Host.locate, Host.reach, hwalk]
    dsimp only
    rw [hat]
    rfl
  have hreal : s.host.at? (real ++ [.text m]) = some entry := by
    rw [Host.at?_concat, hat, Option.bind_some, hchild]
  have hdirect := Host.eq_iff_direct hlocate
  have hshelters := Disk.shelters_location (by simpa [hdirs] using hallowed) hallows
  have hplaces := hgrows.same
  generalize d.places = p at hplaces hplace hid
  subst hplaces
  refine ⟨hgrows, place, m, real, entry, hplace, hid, hshelters, hlocate, hreal, hdirect,
    fun hno => ⟨place, m, real, hplace, hid, hlocate, ?_⟩⟩
  rw [hdirect.mpr hno]
  have hname : s.disk.location (place ++ [m]) = s.disk.location place ++ [.text m] :=
    s.disk.location_append place [m]
  rwa [← hname]

/-! ### A link in the place of a directory

A directory that may be shown is moved away while a tree knows it, and a link takes its place, to
another directory that may not be shown. -/

namespace Detour

/-- A file. -/
def file : Entry :=
  .file false .empty

/-- The host. -/
def host : Host where
  top := .directory false [(.text "r", .directory false [
    (.text "a", .directory false [(.text "f", file)]),
    (.text "o", .directory false [(.text "s", file)])])]

/-- The path of the directory that is opened. -/
def path : HostPath :=
  [.top, .name (.text "r")]

/-- The session, as it is opened. -/
def start : DiskSession where
  base := .start (.ofRoot .sensitive {} Disk.rootId "r")
  disk := .ofRoot [.text "r"] .sensitive [path ++ [.name (.text "a")]]
  host := host
  ground := path
  notes := [("root", Disk.rootId)]

/-- The directory is looked up. -/
def first : List DiskStep :=
  [.tree {} (.lookup "a")]

/-- The directory is looked up and moved away, and a link takes its place. -/
def steps : List DiskStep :=
  first ++ [.edit (.rename [.name (.text "a")] [.name (.text "b")]),
    .edit (.make ⟨[.name (.text "a")], .link [.name (.text "o")], false⟩)]

/-- The directory. -/
def directory : Node :=
  ⟨1, ⟨2, FileId.raw_two_ne_zero⟩, "a", some Disk.rootId, { directory := true }⟩

/-- A new file in it. -/
def made (name : String) : Node :=
  ⟨2, ⟨3, FileId.raw_three_ne_zero⟩, name, some directory.id, {}⟩

/-- The session begins so. -/
theorem openAt_host :
    openAt host path path .sensitive {} [path ++ [.name (.text "a")]] = .ok start := by
  cbv

/-- A lookup in the directory, after some steps. -/
def search (steps : List DiskStep) (name : String) : Except TreeError Lookup × Tree × Disk :=
  ((Tree.lookup directory name).run (start.after steps).base.tree).serve
    (serve (start.after steps).host) (start.after steps).disk

/-- The lookup makes a new child, if the directory is known and nothing in it is. -/
theorem materializes (steps : List DiskStep) (name : String)
    (hroot : ((start.after steps).base.tree.children? (start.after steps).base.tree.root).map
      Children.present = some [directory])
    (hdirectory : ((start.after steps).base.tree.children? directory).map Children.present = some [])
    (hanswer : (search steps name).1 = .ok (.present (made name))) :
    (start.after steps).Materializes directory name (made name) (search steps name).2.2 where
  attached := by
    obtain ⟨c, hc, heq⟩ := Option.map_eq_some_iff.mp hroot
    exact .child .root hc (heq ▸ List.mem_singleton.mpr rfl)
  answer := ⟨_, Prod.ext hanswer rfl⟩
  new c hc hmem := by
    rw [hc] at hdirectory
    rw [Option.some.inj hdirectory] at hmem
    cases hmem

/-- As long as the directory is in its place, its child is where its names say. -/
theorem new_child_sheltered_first :
    (start.after first).Materializes directory "f" (made "f") (search first "f").2.2 ∧
      (start.after first).Sheltered directory (made "f") (search first "f").2.2 := by
  have hmakes := materializes first "f" (by cbv) (by cbv) (by cbv)
  obtain ⟨-, -, hall⟩ := new_child_sheltered openAt_host (List.cons_ne_nil _ _) first
  obtain ⟨-, place, m, real, entry, hplace, -, -, hlocate, -, hdirect, hsheltered⟩ :=
    hall _ _ _ _ hmakes
  refine ⟨hmakes, hsheltered (hdirect.mp ?_)⟩
  have hknown : (search first "f").2.2.places.pathOf? directory.id = some ["a"] := by cbv
  obtain rfl := Option.some.inj (hknown.symm.trans hplace)
  have hthere : (start.after first).host.locate ((search first "f").2.2.path ["a"]) =
      .ok ((search first "f").2.2.location ["a"]) := by cbv
  exact (Except.ok.inj (hthere.symm.trans hlocate)).symm

/-- The names of the directory lead elsewhere now, and what is there is shown. -/
theorem not_all_sheltered :
    ¬ ∀ (host : Host) (ground path : HostPath) (policy : CasePolicy) (config : TreeConfig)
      (allowed : List HostPath) (s₀ : DiskSession),
      openAt host ground path policy config allowed = .ok s₀ → allowed ≠ [] →
      ∀ (steps : List DiskStep) (dir : Node) (name : String) (n : Node) (d : Disk),
        (s₀.after steps).Materializes dir name n d → (s₀.after steps).Sheltered dir n d := by
  intro hall
  have hmakes := materializes steps "s" (by cbv) (by cbv) (by cbv)
  obtain ⟨place, m, real, hplace, hid, hlocate, -, a, ha, haligned⟩ :=
    hall host path path .sensitive {} _ start openAt_host (List.cons_ne_nil _ _) steps _ _ _ _ hmakes
  have hknown : (search steps "s").2.2.places.pathOf? directory.id = some ["a"] := by cbv
  obtain rfl := Option.some.inj (hknown.symm.trans hplace)
  have hthere : (start.after steps).host.locate ((search steps "s").2.2.path ["a"]) =
      .ok [.text "r", .text "o"] := by cbv
  obtain rfl := Except.ok.inj (hthere.symm.trans hlocate)
  have hdirs : (search steps "s").2.2.allowed = [path ++ [.name (.text "a")]] := by cbv
  rw [hdirs] at ha
  obtain rfl := List.mem_singleton.mp ha
  simp [path, HostPath.Aligned, HostPath.components, HostPath.ofNames, List.cons_prefix_cons]
    at haligned

end Detour

end DiskSession

end LazyTree
