import Mathlib
import LazyTree.Proofs.CachelessLookups
import LazyTree.Proofs.DiskPaths

set_option autoImplicit false

/-!
# A cache that changes no answer

The program looks all paths of a request up in one tree, so what earlier paths left in the arrays
answers later ones: children under other spellings, names that are missing, files on the way. As
long as the host stays as it is, no answer changes by that. All that the arrays say of a name is
what the backend finds under it, and names that are the same for a tree stand for the same on the
host. So a lookup comes to exactly what comes of asking the backend alone, and even leaves it with
the same identities. What is found then differs from what is found in a fresh tree only in its
number.

## Main definitions

* `LazyTree.Mount.perform` — what an operation over a host gives, and what it leaves.
* `LazyTree.Disk.Informs` — what is known of the names in a directory is what they stand for.
* `LazyTree.Mount.Faithful` — all that a tree knows is as it is on the host.
* `LazyTree.Mount.Follows` — a lookup comes to what comes of asking the backend alone.

## Main results

* `LazyTree.Mount.Faithful.lookup`, `LazyTree.Mount.Faithful.lookupNames` — lookups do, and what the
  tree knows stays as it is on the host.
* `LazyTree.Mount.Faithful.perform_lookUps` — the lines for some paths are those of somebody who
  remembers nothing.
* `LazyTree.Request.lookups_in_turn` — they are the lines for each of the paths alone.
-/

namespace LazyTree

/-! ### What operations come to -/

namespace Mount

open TreeM

variable {α β : Type} {h : Host} {s : Mount}

/-- What an operation over a host gives, and what comes of the tree and the backend. -/
def perform (s : Mount) (h : Host) (act : TreeM α) : Except TreeError α × Mount :=
  (((act.run s.tree).serve (DiskSession.serve h) s.disk).1, s.after h act)

/-- Operations that run alike come to the same. -/
theorem perform_congr {act act' : TreeM α} (hrun : act.run s.tree = act'.run s.tree) :
    s.perform h act = s.perform h act' := by
  unfold perform after
  rw [hrun]

/-- An operation that asks nothing. -/
theorem perform_of_run {act : TreeM α} {result : Except TreeError α} {t : Tree}
    (hrun : act.run s.tree = .done result t) : s.perform h act = (result, ⟨t, s.disk⟩) := by
  unfold perform after
  rw [hrun]
  rfl

/-- Two operations, one after the other. -/
theorem perform_bind (x : TreeM α) (f : α → TreeM β) :
    s.perform h (x >>= f) = match s.perform h x with
      | (.ok a, s) => s.perform h (f a)
      | (.error e, s) => (.error e, s) := by
  unfold perform after
  rw [run_bind, Run.serve_bind]
  generalize (x.run s.tree).serve (DiskSession.serve h) s.disk = outcome
  obtain ⟨result, t, d⟩ := outcome
  cases result <;> rfl

/-- An operation that begins with a question. -/
theorem perform_ask_bind {q : Query} (f : q.Reply → TreeM β) :
    s.perform h (ask q >>= f) = match s.disk.answer h q with
      | (.ok reply, d) => (⟨s.tree, d⟩ : Mount).perform h (f reply)
      | (.error e, d) => (.error (.backend e), ⟨s.tree, d⟩) := by
  have hask : s.perform h (ask q) = match s.disk.answer h q with
      | (.ok reply, d) => (.ok reply, ⟨s.tree, d⟩)
      | (.error e, d) => (.error (.backend e), ⟨s.tree, d⟩) := by
    simp only [perform, after, TreeM.run, TreeM.ask, Run.serve, DiskSession.serve]
    generalize s.disk.answer h q = told
    obtain ⟨reply, d⟩ := told
    cases reply <;> rfl
  rw [perform_bind, hask]
  generalize s.disk.answer h q = told
  obtain ⟨reply, d⟩ := told
  cases reply <;> rfl

/-- An operation during which some objects are held. -/
theorem perform_holding (nodes : List Node) (act : TreeM α) :
    s.perform h (holding nodes act) =
      (((⟨s.tree.hold nodes, s.disk⟩ : Mount).perform h act).1,
        ⟨((⟨s.tree.hold nodes, s.disk⟩ : Mount).perform h act).2.tree.release nodes,
          ((⟨s.tree.hold nodes, s.disk⟩ : Mount).perform h act).2.disk⟩) := by
  unfold perform after
  rw [run_holding, Run.serve_settle]

end Mount

/-! ### What arrays know -/

namespace Disk

variable {d d' : Disk} {h : Host} {place : Below} {l : Ledger} {name m : String} {child : Node}

/-- The spelling of a name is the name of a file, and the same name. -/
theorem isFileName_of_spelling? (hnames : h.WellNamed)
    (hspelling : d.spelling? h place name = .ok (some m)) :
    isFileName m = true ∧ CasePolicy.insensitive.key m = CasePolicy.insensitive.key name := by
  rw [spelling?_eq_map, Disk.names] at hspelling
  cases hlist : h.list (d.path place) with
  | error e =>
    rw [hlist] at hspelling
    cases hspelling
  | ok names =>
    rw [hlist] at hspelling
    obtain ⟨hm, hsame⟩ := pick_eq_some (Except.ok.inj hspelling)
    exact ⟨hnames.isFileName hlist (mem_texts_iff.mp hm), CasePolicy.same_iff.mp hsame⟩

/-- What is known of the names in a directory is what they stand for, and it is not said to be all.
-/
structure Informs (d : Disk) (h : Host) (place : Below) (l : Ledger) : Prop where
  /-- Names are the same for both. -/
  policy : l.policy = d.policy
  /-- It is not said to be all. -/
  incomplete : l.complete = false
  /-- Names that are known to be free stand for nothing. -/
  absent : ∀ name, l.fact? name = some .absent → d.seek h place name = .ok none
  /-- Names that are known to be those of children stand for these. -/
  present : ∀ name n, l.fact? name = some (.present n) → ∃ entry,
    d.seek h place name = .ok (some (place ++ [n.name], entry)) ∧ n.isDirectory = entry.isDirectory

namespace Informs

/-- Nothing is known yet. -/
theorem empty (d : Disk) (h : Host) (place : Below) : d.Informs h place (.empty d.policy) :=
  ⟨rfl, rfl, fun _ hfact => (nomatch hfact), fun _ _ hfact => (nomatch hfact)⟩

/-- What is known stays right when identities are handed out. -/
theorem grows (hl : d.Informs h place l) (hgrows : d.Grows d') : d'.Informs h place l where
  policy := by
    rw [hl.policy, hgrows.same]
  incomplete := hl.incomplete
  absent name hfact := hgrows.seek.trans (hl.absent name hfact)
  present name n hfact := by
    rw [hgrows.seek]
    exact hl.present name n hfact

/-- A fact is recorded of a name, and of all names that are the same, which stand for the same. -/
theorem record (hl : d.Informs h place l) (hdistinct : d.policy = .sensitive ∨ h.FoldDistinct)
    {fact : Fact} (habsent : fact = .absent → d.seek h place name = .ok none)
    (hpresent : ∀ n, fact = .present n → ∃ entry,
      d.seek h place name = .ok (some (place ++ [n.name], entry)) ∧
        n.isDirectory = entry.isDirectory) :
    d.Informs h place (l.record name (some fact)) := by
  have hsame : ∀ other, l.policy.key other = l.policy.key name →
      d.seek h place other = d.seek h place name := by
    intro other hkey
    rw [hl.policy] at hkey
    exact seek_congr hdistinct hkey
  refine ⟨hl.policy, hl.incomplete, fun other hfact => ?_, fun other n hfact => ?_⟩
  · rw [Ledger.fact?_record] at hfact
    split at hfact
    · next hkey =>
      rw [hsame other hkey]
      exact habsent (Option.some.inj hfact)
    · exact hl.absent other hfact
  · rw [Ledger.fact?_record] at hfact
    split at hfact
    · next hkey =>
      rw [hsame other hkey]
      exact hpresent n (Option.some.inj hfact)
    · exact hl.present other n hfact

/-- It is recorded that a name stands for nothing. -/
theorem insertAbsent (hl : d.Informs h place l)
    (hdistinct : d.policy = .sensitive ∨ h.FoldDistinct)
    (hseek : d.seek h place name = .ok none) : d.Informs h place (l.insertAbsent name).2 := by
  rw [Ledger.insertAbsent]
  split
  · exact hl
  · split
    · exact hl
    · exact hl
    · rw [hl.incomplete]
      exact hl.record hdistinct (fun _ => hseek) (by rintro n ⟨⟩)

/-- A child is recorded for which its name stands. -/
theorem insertIfUnknown (hl : d.Informs h place l)
    (hdistinct : d.policy = .sensitive ∨ h.FoldDistinct) {entry : Entry}
    (hseek : d.seek h place child.name = .ok (some (place ++ [child.name], entry)))
    (hkind : child.isDirectory = entry.isDirectory) :
    d.Informs h place (l.insertIfUnknown child).2 := by
  rw [Ledger.insertIfUnknown]
  split
  · exact hl
  · exact hl
  · refine hl.record hdistinct (by rintro ⟨⟩) ?_
    rintro n ⟨⟩
    exact ⟨entry, hseek, hkind⟩

end Informs

/-- What an array knows of the names in a directory is what they stand for. -/
def Covers (d : Disk) (h : Host) (dir : Node) (c : Children) : Prop :=
  ∃ place, d.places.pathOf? dir.id = some place ∧ d.Informs h place c.ledger

/-- What arrays know stays right when identities are handed out. -/
theorem Covers.grows {dir : Node} {c : Children} (hc : d.Covers h dir c)
    (hd : d.places.Numbered) (hgrows : d.Grows d') : d'.Covers h dir c := by
  obtain ⟨place, hplace, hinforms⟩ := hc
  exact ⟨place, hgrows.pathOf? hd hplace, hinforms.grows hgrows⟩

/-- What a lookup answers is what is found. -/
inductive Answers (p : Places) :
    Except TreeError Lookup → Except BackendError (Option Found) → Prop where
  /-- It cannot be looked at. -/
  | failed (e : BackendError) : Answers p (.error (.backend e)) (.error e)
  /-- Nothing is there. -/
  | absent : Answers p (.ok .absent) (.ok none)
  /-- The node is there. -/
  | present (n : Node) (place : Below) (known : p.pathOf? n.id = some place) :
    Answers p (.ok (.present n)) (.ok (some ⟨n.id, place, n.isDirectory⟩))

end Disk

/-! ### Trees that know what is there -/

namespace Mount

open TreeM

variable {h : Host} {s : Mount} {dir : Node} {c : Children} {place : Below} {name query : String}

/-- All that a tree knows is as it is on the host of its backend. -/
structure Faithful (h : Host) (s : Mount) : Prop where
  /-- Identities are numbered. -/
  numbered : s.disk.places.Numbered
  /-- The tree is in order. -/
  kept : s.tree.Kept
  /-- The tree agrees with the backend. -/
  charted : s.tree.Charted s.disk.places
  /-- Names are the same for both. -/
  policy : s.tree.policy = s.disk.policy
  /-- The root of the tree is that of the backend. -/
  root : (⟨s.tree.root.id, [], s.tree.root.isDirectory⟩ : Disk.Found) = Disk.top
  /-- Case distinguishes names, or no two names in a directory differ by case alone. -/
  distinct : s.disk.policy = .sensitive ∨ h.FoldDistinct
  /-- What arrays know of names is what these stand for. -/
  covers : s.tree.Everywhere (s.disk.Covers h)

/-- What comes of a lookup is what comes of asking the backend alone: the answer is what is found,
and the backend is the same then; all that the tree knows is as it is on the host; and what was
found is attached to it. -/
structure Follows (h : Host) (t : Tree) (told : Except BackendError (Option Disk.Found) × Disk)
    (outcome : Except TreeError Lookup × Mount) : Prop where
  /-- The backend is the same. -/
  disk : outcome.2.disk = told.2
  /-- The answer is what is found. -/
  answer : Disk.Answers outcome.2.disk.places outcome.1 told.1
  /-- What the tree knows is as it is. -/
  faithful : outcome.2.Faithful h
  /-- The tree is in order as before. -/
  tended : t.Tended outcome.2.tree []
  /-- What was found is attached. -/
  attached : ∀ n, outcome.1 = .ok (.present n) → outcome.2.tree.Attached n

/-- After a lookup the tree is in order and agrees with the backend. -/
theorem Faithful.looked (hs : s.Faithful h) (hnames : h.WellNamed)
    (hdir : s.tree.AttachedDirectory dir) (name : String) :
    s.disk.Grows (s.perform h (Tree.lookup dir name)).2.disk ∧
      (s.perform h (Tree.lookup dir name)).2.tree.Charted
        (s.perform h (Tree.lookup dir name)).2.disk.places ∧
      s.tree.Looked dir (s.perform h (Tree.lookup dir name)).1
        (s.perform h (Tree.lookup dir name)).2.tree := by
  have hend := Disk.of_always_told hs.numbered fun d' hgrows =>
    ((hs.charted.grows hs.numbered hgrows).findChild_looked hgrows.numbered hnames hs.kept hdir name
      hs.charted.spelled).always
  exact ⟨.serve hs.numbered h _, hend⟩

/-- Nothing that a tree knows becomes wrong when identities are handed out. -/
theorem Faithful.grows (hs : s.Faithful h) {d : Disk} (hgrows : s.disk.Grows d) :
    (⟨s.tree, d⟩ : Mount).Faithful h where
  numbered := hgrows.numbered
  kept := hs.kept
  charted := hs.charted.grows hs.numbered hgrows
  policy := by
    rw [hs.policy, hgrows.same]
  root := hs.root
  distinct := by
    rw [hgrows.same]
    exact hs.distinct
  covers dir c hdir hc := (hs.covers dir c hdir hc).grows hs.numbered hgrows

/-- What a lookup does to a tree: the answer is what is found by asking the backend alone, and what
arrays know of names stays what these stand for. -/
structure Records (h : Host) (t : Tree) (told : Except BackendError (Option Disk.Found) × Disk)
    (outcome : Except TreeError Lookup × Mount) : Prop where
  /-- The backend is the same. -/
  disk : outcome.2.disk = told.2
  /-- The answer is what is found. -/
  answer : Disk.Answers outcome.2.disk.places outcome.1 told.1
  /-- Names are the same as before. -/
  policy : outcome.2.tree.policy = t.policy
  /-- The root is the same as before. -/
  root : outcome.2.tree.root = t.root
  /-- What arrays know of names is what these stand for. -/
  covers : outcome.2.tree.Everywhere (outcome.2.disk.Covers h)

/-- A lookup that does this leaves the tree such that all it knows is as it is on the host. -/
theorem Faithful.follows (hs : s.Faithful h) (hnames : h.WellNamed)
    (hdir : s.tree.AttachedDirectory dir)
    {told : Except BackendError (Option Disk.Found) × Disk}
    (hrecords : Records h s.tree told (s.perform h (Tree.lookup dir name))) :
    Follows h s.tree told (s.perform h (Tree.lookup dir name)) := by
  obtain ⟨hgrows, hcharted, hlooked⟩ := hs.looked hnames hdir name
  refine ⟨hrecords.disk, hrecords.answer, ⟨hgrows.numbered, hlooked.tended.kept, hcharted, ?_, ?_,
    ?_, hrecords.covers⟩, hlooked.tended, fun n hn => ?_⟩
  · rw [hrecords.policy, hs.policy, hgrows.same]
  · rw [hrecords.root]
    exact hs.root
  · rw [hgrows.same]
    exact hs.distinct
  · obtain ⟨c, hc, hmem⟩ := hlooked.present n hn
    exact .child hlooked.attached hc hmem

/-- What changes nothing but the backend keeps all this. -/
theorem Faithful.records_self (hs : s.Faithful h) {result : Except TreeError Lookup}
    {told : Except BackendError (Option Disk.Found)}
    (hanswer : Disk.Answers s.disk.places result told) :
    Records h s.tree (told, s.disk) (result, s) :=
  ⟨rfl, hanswer, rfl, rfl, hs.covers⟩

section Directory

variable (hs : s.Faithful h) (hdir : s.tree.Attached dir) (hc : s.tree.children? dir = some c)
  (hplace : s.disk.places.pathOf? dir.id = some place)
include hs hdir hc hplace

/-- What the array of a directory knows of names is what these stand for. -/
theorem Faithful.informs : s.disk.Informs h place c.ledger := by
  obtain ⟨place', hplace', hinforms⟩ := hs.covers dir c hdir hc
  obtain rfl : place' = place := Option.some.inj (hplace'.symm.trans hplace)
  exact hinforms

/-- It is recorded that nothing is there. -/
theorem Faithful.records_missing (hseek : s.disk.seek h place name = .ok none)
    (hfact : c.ledger.fact? name = none) (query : String) :
    Records h s.tree (.ok none, s.disk)
      (s.perform h (Tree.recordAnswer dir name query none none)) := by
  have ht := hs.kept.toRooted
  have htidy := (ht.tidy dir c hc).2
  have hanswer : Lookup.ofKnowledge (c.ledger.insertAbsent name).1 = .absent := by
    rw [Ledger.insertAbsent, hfact]
    split <;> rfl
  have hop : Children.Op.Admissible c.policy (.insertAbsent name) := trivial
  have hold : ∀ n ∈ (c.insertAbsent name).2.present, n ∈ c.present := fun n hn =>
    (Children.mem_present_or_offered htidy hop hn).resolve_right List.not_mem_nil
  rw [perform_of_run (Tree.run_recordAnswer_none ht.tidy hc name query), hanswer]
  refine ⟨rfl, .absent, rfl, rfl, hs.covers.setChildren ht hdir hc (fun n hn => .inl (hold n hn))
    ⟨place, hplace, ?_⟩ fun n hn hloose => ?_⟩
  · have hledger := (Children.apply_follows htidy hop).ledger
    exact hledger ▸ (hs.informs hdir hc hplace).insertAbsent hs.distinct hseek
  · exact absurd rfl (hloose.apart n (.child hdir hc (hold n hn)))

/-- It is recorded what is there. -/
theorem Faithful.records_found {id : FileId} {entry : Entry} {attributes : Attributes}
    (hseek : s.disk.seek h place query = .ok (some (place ++ [query], entry)))
    (hkind : attributes.directory = entry.isDirectory)
    (hid : s.disk.places.pathOf? id = some (place ++ [query]))
    (hfact : c.ledger.fact? query = none) (name : String) :
    Records h s.tree (.ok (some ⟨id, place ++ [query], entry.isDirectory⟩), s.disk)
      (s.perform h (Tree.recordAnswer dir name query (some id) (some attributes))) := by
  have ht := hs.kept.toRooted
  have htidy := (ht.tidy dir c hc).2
  have hmade : Tree.Made s.tree (s.tree.make dir id query attributes).2 := .make _ _ _ _ (.refl _)
  have hloose := Tree.loose_make ht dir id query attributes
  have hchild : (s.tree.make dir id query attributes).1.id = id ∧
      (s.tree.make dir id query attributes).1.name = query ∧
      (s.tree.make dir id query attributes).1.isDirectory = entry.isDirectory :=
    ⟨rfl, rfl, hkind⟩
  rw [perform_of_run (Tree.run_recordAnswer_found ht.tidy hc name query id attributes)]
  have hpolicy := hmade.chosen.1
  have hroot := hmade.unchanged.1
  have hcovers := hs.covers.made ht hmade
  have hrooted := hmade.rooted ht
  have hc' := hmade.children? hc
  have hdir' := hmade.attached hdir
  -- from here on only this is known of the new object and of the tree that has it
  generalize s.tree.make dir id query attributes = made at *
  obtain ⟨child, t⟩ := made
  obtain ⟨rfl, rfl, hkind'⟩ := hchild
  dsimp only at *
  have hop : Children.Op.Admissible c.policy (.insertIfUnknown child) := trivial
  have hanswer : Lookup.ofKnowledge (c.ledger.insertIfUnknown child).1 = .present child := by
    rw [Ledger.insertIfUnknown, hfact]
    rfl
  have horigin : ∀ n ∈ (c.insertIfUnknown child).2.present, n ∈ c.present ∨ n = child := fun n hn =>
    (Children.mem_present_or_offered htidy hop hn).imp_right List.mem_singleton.mp
  rw [hanswer, ← hkind', Tree.foldl_register_eq]
  refine ⟨rfl, .present child _ hid, hpolicy, hroot, Tree.Everywhere.frame ?_ _ _⟩
  refine hcovers.setChildren hrooted hdir' hc' (fun n hn => (horigin n hn).imp_right ?_)
    ⟨place, hplace, ?_⟩ fun n hn hnew => ?_
  · rintro rfl
    exact hloose
  · have hledger := (Children.apply_follows htidy hop).ledger
    exact hledger ▸ (hs.informs hdir hc hplace).insertIfUnknown hs.distinct hseek hkind'
  · -- nothing is known yet of what is in the new child
    rcases horigin n hn with hold | rfl
    · exact absurd rfl (hnew.apart n (.child hdir' hc' hold))
    · refine ⟨_, hid, ?_⟩
      rw [Children.ledger_empty, hpolicy, hs.policy]
      exact .empty _ _ _

/-- Asking for a name under its spelling answers what is found under the name. -/
theorem Faithful.records_askFor (hname : isFileName name = true) (hquery : isFileName query = true)
    (hseek : s.disk.seek h place query = s.disk.seek h place name)
    (hspelled : ∀ found, s.disk.seek h place name = .ok (some found) → found.1 = place ++ [query])
    (hfact : c.ledger.fact? name = none) (hfact' : c.ledger.fact? query = none) :
    Records h s.tree (s.disk.enter h place name)
      (s.perform h (Tree.askFor dir name query s.tree.policy)) := by
  have hlocate : ∀ d, s.disk.Grows d →
      d.locate h dir.id query d.policy = s.disk.seek h place name := by
    intro d hgrows
    have hparent : d.parent dir.id = .ok place := by
      rw [Disk.parent, hgrows.pathOf? hs.numbered hplace]
    rw [Disk.locate_eq_seek (Disk.isComponent_of_isFileName hquery) hparent, hgrows.seek, hseek]
  have hresolve := hlocate s.disk (.refl hs.numbered)
  rw [Tree.askFor, perform_ask_bind, Disk.enter, if_pos hname, Disk.answer, hs.policy, hresolve]
  cases hfound : s.disk.seek h place name with
  | error e => exact hs.records_self (.failed e)
  | ok found =>
    cases found with
    | none => exact hs.records_missing hdir hc hplace hfound hfact query
    | some found =>
      obtain ⟨place', entry⟩ := found
      obtain rfl : place' = place ++ [query] := hspelled _ hfound
      have hgrows := Disk.Grows.require hs.numbered (place ++ [query])
      dsimp only
      cases hrequire : s.disk.require (place ++ [query]) with
      | mk result d =>
        rw [hrequire] at hgrows
        have hs' := hs.grows hgrows
        cases result with
        | error e => exact hs'.records_self (.failed e)
        | ok id =>
          -- the attributes are those of the entry that was found first
          have hid := Disk.pathOf?_of_require hs.numbered hrequire
          dsimp only [Except.map] at hgrows ⊢
          rw [perform_ask_bind, Disk.answer, hlocate d hgrows, hfound]
          refine hs'.records_found hdir hc (hgrows.pathOf? hs.numbered hplace) ?_ rfl hid hfact'
            name
          rw [hgrows.seek, hseek]
          exact hfound

/-- A lookup of a name of which nothing is known answers what is found under it. Where case does not
distinguish names, the spelling is asked for first, and it stands for the same as the name. -/
theorem Faithful.records_unknown (hnames : h.WellNamed) (hname : isFileName name = true)
    (hfact : c.ledger.fact? name = none)
    (hrun : (Tree.lookup dir name).run s.tree =
      if s.tree.config.canonicalizeNames && !s.tree.policy.isSensitive then
        (ask (.canonical dir.id name) >>= fun query =>
          Tree.askFor dir name query s.tree.policy).run s.tree
      else (Tree.askFor dir name name s.tree.policy).run s.tree) :
    Records h s.tree (s.disk.enter h place name) (s.perform h (Tree.lookup dir name)) := by
  have hinforms := hs.informs hdir hc hplace
  cases hpolicy : s.tree.policy with
  | sensitive =>
    have hplain : (Tree.lookup dir name).run s.tree =
        (Tree.askFor dir name name s.tree.policy).run s.tree := by
      rw [hrun, hpolicy, CasePolicy.isSensitive, Bool.not_true, Bool.and_false]
      rfl
    rw [perform_congr hplain]
    refine hs.records_askFor hdir hc hplace hname hname rfl (fun found hfound => ?_) hfact
      hfact
    obtain ⟨m, hplace', hsensitive, -⟩ := Disk.seek_eq_some hfound
    rw [hplace', hsensitive (hs.policy.symm.trans hpolicy)]
  | insensitive =>
    have hpolicy' : s.disk.policy = .insensitive := hs.policy.symm.trans hpolicy
    have hspelled := hs.charted.spelled.resolve_left (by rw [hpolicy]; rintro ⟨⟩)
    have hspelling : (Tree.lookup dir name).run s.tree =
        (ask (.canonical dir.id name) >>= fun query =>
          Tree.askFor dir name query s.tree.policy).run s.tree := by
      rw [hrun, hpolicy, hspelled]
      rfl
    have hparent : s.disk.parent dir.id = .ok place := by
      rw [Disk.parent, hplace]
    have hanswer : s.disk.answer h (.canonical dir.id name) =
        ((s.disk.spelling? h place name).map (·.getD name), s.disk) := by
      simp [Disk.answer, Disk.isComponent_of_isFileName hname, hparent]
    rw [perform_congr hspelling, perform_ask_bind, hanswer]
    cases hfound : s.disk.spelling? h place name with
    | error e =>
      have hseek : s.disk.seek h place name = .error e := by
        simp [Disk.seek, hpolicy', hfound]
      rw [Disk.enter, if_pos hname, hseek]
      exact hs.records_self (.failed e)
    | ok spelled =>
      cases spelled with
      | none =>
        have hseek : s.disk.seek h place name = .ok none := by
          simp [Disk.seek, hpolicy', hfound]
        refine hs.records_askFor hdir hc hplace hname hname rfl (fun found hthere => ?_)
          hfact hfact
        cases hseek.symm.trans hthere
      | some m =>
        obtain ⟨hm, hkey⟩ := Disk.isFileName_of_spelling? hnames hfound
        rw [← hpolicy'] at hkey
        refine hs.records_askFor hdir hc hplace hname hm (Disk.seek_congr hs.distinct hkey)
          (fun found hthere => ?_) hfact ?_
        · obtain ⟨m', hplace', -, hinsensitive⟩ := Disk.seek_eq_some hthere
          cases hfound.symm.trans (hinsensitive hpolicy')
          exact hplace'
        · rw [← hinforms.policy] at hkey
          exact (c.ledger.fact?_congr hkey).trans hfact

end Directory

/-- Looking a name up in an attached directory comes to what comes of asking the backend alone.

**Proof sketch.** If a child is known under the name, then the backend finds the entry of the child
under it, and has handed out the identity of the child already. If the name is known to be free,
then the backend finds nothing. If nothing is known, then the backend is asked. -/
theorem Faithful.lookup (hs : s.Faithful h) (hnames : h.WellNamed)
    (hdir : s.tree.AttachedDirectory dir) (hplace : s.disk.places.pathOf? dir.id = some place)
    (name : String) :
    Follows h s.tree (s.disk.enter h place name) (s.perform h (Tree.lookup dir name)) := by
  obtain ⟨c, hc⟩ := hs.kept.toRooted.exists_children hdir
  have hinforms := hs.informs hdir.attached hc hplace
  have hrun : (Tree.lookup dir name).run s.tree = _ := Tree.run_findChild dir name _ _
  rw [hc] at hrun
  dsimp only at hrun
  refine hs.follows hnames hdir ?_
  by_cases hname : isFileName name = true
  · have htidy := (hs.kept.tidy dir c hc).2
    rw [if_pos hname, Children.find_of_isFileName htidy hname, Ledger.answer] at hrun
    cases hfact : c.ledger.fact? name with
    | none =>
      rw [hfact, hinforms.incomplete] at hrun
      exact hs.records_unknown hdir.attached hc hplace hnames hname hfact hrun
    | some fact =>
      rw [hfact] at hrun
      cases fact with
      | absent =>
        rw [perform_of_run hrun, Disk.enter, if_pos hname, hinforms.absent name hfact]
        exact hs.records_self .absent
      | present n =>
        -- the backend has the identity of the child already
        obtain ⟨entry, hseek, hkind⟩ := hinforms.present name n hfact
        have hmem := (Tree.mem_present_of_fact? htidy hfact).1
        obtain ⟨-, place', hplace', hid⟩ := hs.charted.joins dir c hdir.attached hc n hmem
        obtain rfl : place' = place := Option.some.inj (hplace'.symm.trans hplace)
        have hrequire : s.disk.require (place' ++ [n.name]) = (.ok n.id, s.disk) := by
          rw [Disk.require, Places.require_of_known (hs.numbered.inverse.mpr hid)]
        rw [perform_of_run hrun, Disk.enter, if_pos hname, hseek]
        dsimp only
        rw [hrequire, ← hkind]
        exact hs.records_self (.present n _ hid)
  · rw [if_neg hname] at hrun
    rw [perform_of_run hrun, Disk.enter, if_neg hname]
    exact hs.records_self .absent

/-- That does not depend on who holds objects, as long as somebody holds the root. -/
theorem Faithful.frame (hs : s.Faithful h) {held : List Nat} (hroot : s.tree.root.serial ∈ held) :
    (⟨{ s.tree with held := held }, s.disk⟩ : Mount).Faithful h where
  numbered := hs.numbered
  kept := hs.kept.frame hroot
  charted := hs.charted.frame _ _
  policy := hs.policy
  root := hs.root
  distinct := hs.distinct
  covers := hs.covers.frame _ _

/-- Holding the directory meanwhile makes no difference. -/
theorem Faithful.lookup_holding (hs : s.Faithful h) (hnames : h.WellNamed)
    (hdir : s.tree.AttachedDirectory dir) (hplace : s.disk.places.pathOf? dir.id = some place)
    (name : String) :
    Follows h s.tree (s.disk.enter h place name)
      (s.perform h (holding [dir] (Tree.lookup dir name))) := by
  have hheld : (⟨s.tree.hold [dir], s.disk⟩ : Mount).Faithful h :=
    hs.frame (hs.kept.hold [dir]).held
  have hlookup := hheld.lookup hnames ⟨hdir.attached.frame _ _, hdir.isDirectory⟩ hplace name
  rw [perform_holding]
  have htended := hlookup.tended.release hs.kept
  exact ⟨hlookup.disk, hlookup.answer, hlookup.faithful.frame htended.kept.held, htended,
    fun n hn => (hlookup.attached n hn).frame _ _⟩

/-- Looking some names up from an attached node on comes to what comes of asking the backend alone.
-/
theorem Faithful.lookupNames (hs : s.Faithful h) (hnames : h.WellNamed)
    (hdir : s.tree.Attached dir) (hplace : s.disk.places.pathOf? dir.id = some place)
    (names : List String) :
    Follows h s.tree (s.disk.trace h ⟨dir.id, place, dir.isDirectory⟩ names)
      (s.perform h (Tree.lookupNames dir names)) := by
  induction names generalizing s dir place with
  | nil =>
    refine ⟨rfl, .present dir place hplace, hs, hs.kept.tended, ?_⟩
    rintro n ⟨⟩
    exact hdir
  | cons name rest ih =>
    rw [Tree.lookupNames, Disk.trace]
    dsimp only
    split
    · next hdirectory =>
      have hfirst := hs.lookup_holding hnames ⟨hdir, hdirectory⟩ hplace name
      rw [perform_bind]
      generalize s.perform h (holding [dir] (Tree.lookup dir name)) = outcome at hfirst
      generalize s.disk.enter h place name = told at hfirst
      obtain ⟨result, s'⟩ := outcome
      obtain ⟨found, d⟩ := told
      obtain rfl : s'.disk = d := hfirst.disk
      have hanswer := hfirst.answer
      cases hanswer with
      | failed e => exact hfirst
      | absent => exact hfirst
      | present n place hplace =>
        have hrest := ih hfirst.faithful (hfirst.attached n rfl) hplace
        exact ⟨hrest.disk, hrest.answer, hrest.faithful, hfirst.tended.trans hrest.tended,
          hrest.attached⟩
    · refine ⟨rfl, .absent, hs, hs.kept.tended, ?_⟩
      rintro n ⟨⟩

/-! ### Lines -/

/-- The line for a node that was found is that for what was found. -/
theorem Faithful.perform_describe (hs : s.Faithful h) {n : Node} (hn : s.tree.Attached n)
    (hplace : s.disk.places.pathOf? n.id = some place) (path : String) :
    s.perform h (Request.describe n) =
      (.ok (Disk.line path (some ⟨n.id, place, n.isDirectory⟩)), s) := by
  obtain ⟨way, hway⟩ := hn.exists_descent
  obtain ⟨hend, -⟩ := hs.charted.pathOf?_of_descent hway .root hs.charted.root
  obtain rfl : place = way.map Node.name := Option.some.inj (hplace.symm.trans hend)
  have hrun := hway.run_pathOf hs.kept.toArborescent
    (hs.kept.exact (hs.charted.distinct hs.numbered)) hs.charted.top
  rw [Request.describe, perform_bind, perform_of_run hrun]
  rfl

/-- Looking a path up gives the line for what is found by asking the backend alone, or fails as that
does. -/
theorem Faithful.lookUp (hs : s.Faithful h) (hnames : h.WellNamed) (path : String) :
    (s.perform h (Request.lookUp path)).1 =
        ((s.disk.trace h Disk.top (Tree.components path)).1.mapError TreeError.backend).map
          (fun found => .ok [Disk.line path found]) ∧
      (s.perform h (Request.lookUp path)).2.disk =
        (s.disk.trace h Disk.top (Tree.components path)).2 ∧
      (s.perform h (Request.lookUp path)).2.Faithful h := by
  have hfound := hs.lookupNames hnames .root hs.charted.root (Tree.components path)
  rw [hs.root] at hfound
  rw [Request.lookUp, perform_bind, perform_of_run (run_get s.tree)]
  dsimp only
  rw [perform_bind, Tree.lookupPath]
  generalize s.perform h (Tree.lookupNames s.tree.root (Tree.components path)) = outcome at hfound
  generalize s.disk.trace h Disk.top (Tree.components path) = told at hfound
  obtain ⟨result, s'⟩ := outcome
  obtain ⟨found, d⟩ := told
  obtain rfl : s'.disk = d := hfound.disk
  have hanswer := hfound.answer
  have hfaithful : s'.Faithful h := hfound.faithful
  cases hanswer with
  | failed e => exact ⟨rfl, rfl, hfaithful⟩
  | absent => exact ⟨rfl, rfl, hfaithful⟩
  | present n place hplace =>
    have hdescribe := hfaithful.perform_describe (hfound.attached n rfl) hplace path
    dsimp only
    rw [perform_bind, hdescribe]
    exact ⟨rfl, rfl, hfaithful⟩

/-- Looking paths up, one after the other, gives what is reported by somebody who remembers nothing.
-/
theorem Faithful.perform_lookUps (hs : s.Faithful h) (hnames : h.WellNamed) (paths : List String) :
    Request.perform h (paths.map Request.lookUp) s.tree s.disk = s.disk.report h paths := by
  induction paths generalizing s with
  | nil => rfl
  | cons path rest ih =>
    obtain ⟨hresult, hdisk, hfaithful⟩ := hs.lookUp hnames path
    have hserve : ((Request.lookUp path s.tree).serve (Request.serve h) s.disk) =
        ((s.perform h (Request.lookUp path)).1, (s.perform h (Request.lookUp path)).2.tree,
          (s.perform h (Request.lookUp path)).2.disk) := rfl
    have hrest := ih hfaithful
    rw [List.map_cons, Request.perform, hserve]
    cases hfound : (s.disk.trace h Disk.top (Tree.components path)).1 with
    | error e =>
      rw [hfound] at hresult
      rw [Disk.report_of_error hfound rest, hresult]
      rfl
    | ok found =>
      rw [hfound] at hresult
      rw [Disk.report_of_ok hfound rest, hresult]
      dsimp only [Except.mapError, Except.map]
      rw [hrest, hdisk]
      rfl

/-- A tree with nothing but its root knows nothing that is not so. -/
theorem faithful_start {root : Location} {policy : CasePolicy} {allowed : List HostPath}
    {config : TreeConfig} (hspelled : policy = .sensitive ∨ config.canonicalizeNames = true)
    (hdistinct : policy = .sensitive ∨ h.FoldDistinct) :
    (start policy config (.ofRoot root policy allowed)).Faithful h where
  numbered := Disk.numbered_ofRoot root policy allowed
  kept := (inOrder_start root policy allowed hspelled).kept
  charted := (inOrder_start root policy allowed hspelled).charted
  policy := rfl
  root := rfl
  distinct := hdistinct
  covers := by
    intro dir c hdir hc
    obtain rfl := Tree.attached_ofRoot hdir
    obtain rfl : Children.empty policy = c := Option.some.inj hc
    refine ⟨[], rfl, ?_⟩
    rw [Children.ledger_empty]
    exact .empty _ _ _

end Mount

namespace Request

/-- Looking paths up together changes no answer. Case distinguishes names; or spellings are asked for,
and no two names in a directory of the host differ by case alone. Then, for any settings and any
root, the lines for some paths are, but for identities, those for each path alone, one after the
other, up to the first path that fails alone; and then the failure is that of this path. There is
one exception. If there are no identities left, then the request fails for that, after the lines for
the paths before; but these paths and the next one have `UInt32.size - 2` names at least then.

**Proof sketch.** The tree knows nothing that is not so, hence the lines are those of somebody who
remembers nothing. That one finds the same whatever was found before, unless there are no identities
left. -/
theorem lookups_in_turn {h : Host} {settings : Settings} (hnames : h.WellNamed)
    (hpolicy : settings.backend.policy = .sensitive ∨
      settings.tree.canonicalizeNames = true ∧ h.FoldDistinct) (root path : String)
    (more : List String) :
    gist (run h settings (.lookup root (path :: more))) =
        inTurn ((path :: more).map fun path => gist (run h settings (.lookup root [path]))) ∨
      ∃ front last back, path :: more = front ++ last :: back ∧
        inTurn (front.map fun path => gist (run h settings (.lookup root [path]))) =
          ((gist (run h settings (.lookup root (path :: more)))).1, none) ∧
        (run h settings (.lookup root (path :: more))).2 =
          some (.tree (.backend .idsExhausted)) ∧
        UInt32.size ≤ steps (front ++ [last]) + 2 := by
  cases hopen : Disk.openAt h (HostPath.ofText root) settings.backend.policy
      (settings.backend.allowedRoots.map HostPath.ofText) with
  | error e =>
    have hrun : ∀ paths, run h settings (.lookup root paths) =
        ([], some (.tree (.backend (.io e)))) := by
      intro paths
      rw [run, Request.root, hopen]
    left
    rw [List.map_cons, hrun, hrun]
    rfl
  | ok d =>
    obtain ⟨-, hnew⟩ := Disk.eq_ofRoot_of_openAt hopen
    have hstart : (Mount.start settings.backend.policy settings.tree d).Faithful h := by
      rw [hnew]
      exact Mount.faithful_start (hpolicy.imp_right And.left) (hpolicy.imp_right And.right)
    have hpolicy' : d.policy = settings.backend.policy := by
      rw [hnew]
      rfl
    have hrun : ∀ paths, run h settings (.lookup root paths) = d.report h paths := by
      intro paths
      rw [run, Request.root, hopen]
      dsimp only
      rw [hpolicy']
      exact hstart.perform_lookUps hnames paths
    have hnumbered : d.places.Numbered := hstart.numbered
    have hone : d.places.ids.length = 1 := by
      rw [hnew]
      rfl
    simp only [hrun]
    refine (Disk.Within.report (h := h) (.refl hnumbered) (path :: more)).imp_right ?_
    rintro ⟨front, last, back, hpaths, hfront, hfailure, hlong⟩
    refine ⟨front, last, back, hpaths, hfront, hfailure, ?_⟩
    omega

/-! ### Three paths

A directory and the file in it are looked up in another case, and then the file is taken for a
directory. -/

namespace Errand

open Mount.Parcel (host)

/-- The settings: names are matched without regard to case. -/
def settings : Settings where
  backend := { policy := .insensitive }

/-- The paths. -/
def paths : List String :=
  ["a", "A/F", "a/f/x"]

/-- There is only one name in each directory. -/
theorem foldDistinct_host : host.FoldDistinct := by
  have hone (n : FileName) : ∀ a b, FileName.text a ∈ [n] → FileName.text b ∈ [n] →
      CasePolicy.insensitive.key a = CasePolicy.insensitive.key b → a = b := by
    intro a b ha hb _
    exact FileName.text.inj ((List.mem_singleton.mp ha).trans (List.mem_singleton.mp hb).symm)
  refine Entry.throughout_directory (hone _) (List.forall_mem_singleton.mpr ?_)
  refine Entry.throughout_directory (hone _) (List.forall_mem_singleton.mpr ?_)
  refine Entry.throughout_directory (hone _) (List.forall_mem_singleton.mpr ?_)
  exact Entry.throughout_of_entries_eq_nil (fun a b ha => absurd ha List.not_mem_nil) rfl

/-- What is said of all paths holds of these, of which the last leads nowhere. -/
theorem lookups_in_turn_errand :
    host.WellNamed ∧ settings.tree.canonicalizeNames = true ∧ host.FoldDistinct ∧
      gist (run host settings (.lookup "/r" paths)) =
        ([(some true, "/A"), (some false, "/A/f"), (none, "a/f/x")], none) ∧
      gist (run host settings (.lookup "/r" paths)) =
        inTurn (paths.map fun path => gist (run host settings (.lookup "/r" [path]))) := by
  have hlines : gist (run host settings (.lookup "/r" paths)) =
      ([(some true, "/A"), (some false, "/A/f"), (none, "a/f/x")], none) := by cbv
  refine ⟨Mount.Parcel.wellNamed_host, rfl, foldDistinct_host, hlines, ?_⟩
  refine (lookups_in_turn Mount.Parcel.wellNamed_host (.inr ⟨rfl, foldDistinct_host⟩) "/r" "a"
    ["A/F", "a/f/x"]).resolve_right ?_
  rintro ⟨front, last, back, -, -, hfailure, -⟩
  cases (congrArg Prod.snd hlines).symm.trans hfailure

end Errand

end Request

end LazyTree
