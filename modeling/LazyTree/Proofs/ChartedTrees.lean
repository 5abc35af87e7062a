import Mathlib
import LazyTree.Proofs.Nursery
import LazyTree.Proofs.ServedRuns

set_option autoImplicit false

/-!
# Trees whose nodes have places

The backend keeps a place for each identity, and the tree keeps a name and a directory for each node.
The two agree on a child if the place of the child is that of its directory and the name of the child.
Where case distinguishes names, the backend finds a file exactly under the name that it is asked for;
where it does not, the tree asks for the spelling first, and under a spelling the backend finds the
file of that spelling. So each child that the tree takes over from the backend agrees with it, also
while names that differ by case only come and go.

## Main definitions

* `LazyTree.Places.Joins` — a file has the place of its directory with its name behind.
* `LazyTree.Disk.Spells` — a backend may have told a text as the spelling of some name.
* `LazyTree.Tree.Everywhere` — something holds of all arrays.
* `LazyTree.Tree.Charted` — all children in arrays have the places of their names.

## Main results

* `LazyTree.Disk.joins_of_told_resolve`, `LazyTree.Disk.joins_of_told_list` — what a backend tells of
  the files in a directory.
* `LazyTree.Tree.Charted.distinct` — attached nodes differ in their identities then.
* `LazyTree.Tree.Charted.command` — operations over a backend keep the agreement.
-/

namespace LazyTree

/-! ### What a backend tells of places -/

namespace Places

/-- A file has the place of its directory with its name behind, and a file can have that name. -/
structure Joins (p : Places) (dir : FileId) (name : String) (id : FileId) : Prop where
  /-- A file can have the name. -/
  isFileName : isFileName name = true
  /-- The places differ by the name. -/
  place : ∃ place, p.pathOf? dir = some place ∧ p.pathOf? id = some (place ++ [name])

end Places

namespace Disk

variable {d : Disk} {h : Host} {p : Places} {dir id : FileId} {place : Below} {name query : String}
  {t t' : Tree}

/-- The spelling of a name is its own spelling. -/
theorem spelling?_spelling (hspelling : d.spelling? h place name = .ok (some query)) :
    d.spelling? h place query = .ok (some query) := by
  rw [spelling?_eq_map] at hspelling ⊢
  cases hnames : d.names h place with
  | error e =>
    rw [hnames] at hspelling
    cases hspelling
  | ok names =>
    rw [hnames] at hspelling
    have hmem := (pick_eq_some (Except.ok.inj hspelling)).1
    exact congrArg Except.ok (pick_of_mem hmem)

/-- A text for which a backend knows the place under a policy: where case does not distinguish names,
the backend may have told it as the spelling of some name. -/
def Spells (d : Disk) (h : Host) (p : Places) (dir : FileId) (policy : CasePolicy) (query : String) :
    Prop :=
  policy = .sensitive ∨ ∃ name t t', d.told h p (.canonical dir name) t (.ok query) t'

/-- A text that a backend told as a spelling in a directory is its own spelling, or has none. -/
theorem told_canonical (hp : p.Numbered) (hdir : p.pathOf? dir = some place)
    (htold : d.told h p (.canonical dir name) t (.ok query) t') (hquery : isComponent query = true) :
    d.spelling? h place query = .ok (some query) ∨ d.spelling? h place query = .ok none := by
  obtain ⟨-, now, hgrows, hreply, hkeeps⟩ := htold
  have hanswer := Grows.answer hgrows.numbered h (.canonical dir name)
  simp only [answer] at hreply
  split at hreply
  · next hname =>
    cases hreply
    simp [hquery] at hname
  · cases hparent : now.parent dir with
    | error e => simp [hparent] at hreply
    | ok place' =>
      have hmem := hkeeps.subset (hanswer.keeps.subset (mem_ids_of_parent hgrows.numbered hparent))
      obtain rfl : place' = place :=
        Option.some.inj ((hp.pathOf?_eq_some_iff.mpr hmem).symm.trans hdir)
      have hsame : now.spelling? h place' = d.spelling? h place' := by
        rw [hgrows.same]
        rfl
      simp only [hparent, hsame] at hreply
      cases hspelling : d.spelling? h place' name with
      | error e =>
        rw [hspelling] at hreply
        cases hreply
      | ok spelled =>
        rw [hspelling] at hreply
        cases spelled with
        | none =>
          obtain rfl : query = name := Except.ok.inj hreply
          exact .inr hspelling
        | some m =>
          obtain rfl : query = m := Except.ok.inj hreply
          exact .inl (spelling?_spelling hspelling)

/-- The identity that a backend tells for a text is that of the file with this name, if it may have told
the text as a spelling, or case distinguishes names. -/
theorem joins_of_told_resolve (hp : p.Numbered) (hnames : h.WellNamed) {policy : CasePolicy}
    (hspells : d.Spells h p dir policy query)
    (htold : d.told h p (.resolve dir query policy) t (.ok (some id)) t') :
    p.Joins dir query id := by
  obtain ⟨hquery, place, m, entry, hdir, hsensitive, hinsensitive, hlook, -, hid⟩ :=
    told_resolve hp htold
  obtain rfl : m = query := by
    cases policy with
    | sensitive => exact hsensitive rfl
    | insensitive =>
      obtain ⟨name, t₁, t₂, hspelled⟩ := hspells.resolve_left nofun
      have hfound := hinsensitive rfl
      rcases told_canonical hp hdir hspelled hquery with hsame | hnone
      · exact (Option.some.inj (Except.ok.inj (hsame.symm.trans hfound))).symm
      · cases hnone.symm.trans hfound
  rw [path_concat] at hlook
  obtain ⟨names, hlist, hm⟩ := Host.exists_list_of_lookAt (d.path_ne_nil _) hlook
  exact ⟨hnames.isFileName hlist hm, place, hdir, hid⟩

/-- Each line that a backend tells in a listing has the identity of the file with its name. -/
theorem joins_of_told_list (hp : p.Numbered) (hnames : h.WellNamed) {lines : List Listed}
    (htold : d.told h p (.list dir) t (.ok lines) t') :
    ∀ line ∈ lines, p.Joins dir line.name line.id := by
  obtain ⟨-, now, hgrows, hreply, hkeeps⟩ := htold
  have hanswer := Grows.answer hgrows.numbered h (.list dir)
  have hok : (now.answer h (.list dir)).1 = .ok lines := hreply.symm
  obtain ⟨place, names, hsees⟩ : ∃ place names, now.Sees h dir place names := by
    simp only [answer] at hreply
    cases hparent : now.parent dir with
    | error e => simp [hparent] at hreply
    | ok place =>
      cases hlist : h.list (now.path place) with
      | error e => simp [hparent, Disk.names, hlist] at hreply
      | ok names =>
        exact ⟨place, names, hgrows.numbered, hparent, hlist, fun m hm => hnames.isFileName hlist hm⟩
  obtain ⟨lines', hlines, hshown, hids⟩ := hsees.answer_list (by simp [hok])
  obtain rfl : lines' = lines := Except.ok.inj (hlines.symm.trans hok)
  intro line hline
  have hname : line.name ∈ texts names :=
    List.mem_of_mem_filter (hshown ▸ List.mem_map_of_mem hline)
  have hdir := mem_ids_of_parent hgrows.numbered hsees.parent
  exact ⟨hsees.valid _ (mem_texts_iff.mp hname), place,
    hp.pathOf?_eq_some_iff.mpr (hkeeps.subset (hanswer.keeps.subset hdir)),
    hp.pathOf?_eq_some_iff.mpr (hkeeps.subset (hids line hline))⟩

end Disk

/-! ### Trees -/

namespace Tree

open TreeM

variable {t t' : Tree} {d : Disk} {h : Host} {p : Places} {dir n m : Node} {c c' : Children}

/-- Something holds of the array of each attached directory. -/
def Everywhere (t : Tree) (Q : Node → Children → Prop) : Prop :=
  ∀ dir c, t.Attached dir → t.children? dir = some c → Q dir c

/-- All children in arrays of attached directories have the places of their names; and so will those
that are taken over, as names are spelled as the backend spells them. -/
structure Charted (t : Tree) (p : Places) : Prop extends Rooted t where
  /-- The root has no directory. -/
  top : t.root.parent = none
  /-- The root has its place. -/
  root : p.pathOf? t.root.id = some []
  /-- Case distinguishes names, or spellings are asked for. -/
  spelled : t.policy = .sensitive ∨ t.config.canonicalizeNames = true
  /-- Children have the places of their names. -/
  joins : t.Everywhere fun dir c => ∀ n ∈ c.present, p.Joins dir.id n.name n.id

namespace Everywhere

variable {Q : Node → Children → Prop}

/-- It does not depend on the registry, or on who holds objects. -/
theorem frame (h : t.Everywhere Q) (registry : Registry) (held : List Nat) :
    ({ t with registry := registry, held := held } : Tree).Everywhere Q :=
  fun dir c hdir => h dir c (hdir.frame t.registry t.held)

/-- It stays so when objects are made. -/
theorem made (h : t.Everywhere Q) (ht : t.Rooted) (hmade : Made t t') : t'.Everywhere Q := by
  intro dir c hdir hc
  have hold := (hmade.attached_iff ht.owns).mp hdir
  rw [hmade.children?_of_lt (ht.owns dir hold).serial_lt] at hc
  exact h dir c hold hc

/-- It stays so when an array is changed, if it holds of the new array, and of empty arrays of children
that are new. -/
theorem setChildren (h : t.Everywhere Q) (ht : t.Rooted) (hdir : t.Attached dir)
    (hc : t.children? dir = some c) (hnew : ∀ n ∈ c'.present, n ∈ c.present ∨ t.Loose n)
    (hc' : Q dir c') (hempty : ∀ n ∈ c'.present, t.Loose n → Q n (.empty t.policy)) :
    (t.setChildren dir c').Everywhere Q := by
  intro d cd hd hcd
  rw [children?_setChildren] at hcd
  rcases ht.attached_setChildren hdir hc hnew hd with hd | ⟨hloose, hmem⟩
  · split at hcd
    · next hserial =>
      obtain rfl := (ht.owns dir hdir).eq_of_serial (ht.owns d hd) hserial
      obtain ⟨_, -, rfl⟩ := Option.map_eq_some_iff.mp hcd
      exact hc'
    · exact h d cd hd hcd
  · rw [if_neg (hloose.apart dir hdir)] at hcd
    rw [hloose.blank cd hcd]
    exact hempty d hmem hloose

end Everywhere

/-- Making objects changes nothing that was chosen. -/
theorem Made.chosen (hmade : Made t t') : t'.policy = t.policy ∧ t'.config = t.config := by
  induction hmade with
  | refl t => exact ⟨rfl, rfl⟩
  | make dir id name attributes _ ih => exact ih
  | held held _ ih => exact ih

namespace Charted

/-- It does not depend on the registry, or on who holds objects. -/
theorem frame (ht : t.Charted p) (registry : Registry) (held : List Nat) :
    ({ t with registry := registry, held := held } : Tree).Charted p :=
  ⟨ht.toRooted.frame registry held, ht.top, ht.root, ht.spelled, ht.joins.frame registry held⟩

/-- It stays so when objects are made. -/
theorem made (ht : t.Charted p) (hmade : Made t t') : t'.Charted p := by
  obtain ⟨hroot, -⟩ := hmade.unchanged
  obtain ⟨hpolicy, hconfig⟩ := hmade.chosen
  refine ⟨hmade.rooted ht.toRooted, ?_, ?_, ?_, ht.joins.made ht.toRooted hmade⟩
  · rw [hroot]
    exact ht.top
  · rw [hroot]
    exact ht.root
  · rw [hpolicy, hconfig]
    exact ht.spelled

/-- A change of an array keeps it so, if all children that the change offers were there before, or are new
and have the places of their names. -/
theorem change (ht : t.Charted p) (hdir : t.Attached dir) (hc : t.children? dir = some c)
    (op : Children.Op) (hop : op.Admissible c.policy)
    (hoffered : ∀ n ∈ op.offered, n ∈ c.present ∨ t.Loose n ∧ p.Joins dir.id n.name n.id) :
    (t.setChildren dir (c.apply op).2).Charted p := by
  obtain ⟨hcpolicy, hctidy⟩ := ht.tidy dir c hc
  have hpresent : ∀ n ∈ (c.apply op).2.present,
      n ∈ c.present ∨ t.Loose n ∧ p.Joins dir.id n.name n.id := fun n hn =>
    (Children.mem_present_or_offered hctidy hop hn).elim .inl (hoffered n)
  have hnew := fun n hn => (hpresent n hn).imp_right And.left
  refine ⟨ht.toRooted.setChildren hdir hc (Children.apply_follows hctidy hop).tidy
    ((Children.apply_policy hctidy hop).trans hcpolicy) hnew, ht.top, ht.root, ht.spelled,
    ht.joins.setChildren ht.toRooted hdir hc hnew ?_ ?_⟩
  · exact fun n hn => (hpresent n hn).elim (ht.joins dir c hdir hc n) And.right
  · intro n _ _ m hm
    rw [Children.present_empty] at hm
    cases hm

/-- Attached nodes differ in their identities.

**Proof sketch.** By induction on how one of them is attached. The root has a place without names. If
two children have the same place, then their directories have, and the children have the same name. -/
theorem distinct (ht : t.Charted p) (hp : p.Numbered) : t.Distinct := by
  have hroot : ∀ {dir n c}, t.Attached dir → t.children? dir = some c → n ∈ c.present →
      n.id ≠ t.root.id := by
    intro dir n c hdir hc hn hid
    obtain ⟨-, place, -, hplace⟩ := ht.joins dir c hdir hc n hn
    rw [hid, ht.root] at hplace
    simpa using Option.some.inj hplace
  intro n m hn hm hid
  induction hn generalizing m with
  | root =>
    cases hm with
    | root => rfl
    | child hdir hc hm => exact absurd hid.symm (hroot hdir hc hm)
  | @child dir n c hdir hc hn ih =>
    cases hm with
    | root => exact absurd hid (hroot hdir hc hn)
    | @child dir' _ c' hdir' hc' hm =>
      obtain ⟨-, place, hdirPlace, hplace⟩ := ht.joins dir c hdir hc n hn
      obtain ⟨-, place', hdirPlace', hplace'⟩ := ht.joins dir' c' hdir' hc' m hm
      rw [hid, hplace'] at hplace
      obtain ⟨rfl, hname⟩ := List.append_inj' (Option.some.inj hplace) rfl
      have hdirs : dir.id = dir'.id := hp.eq_of_mem (hp.pathOf?_eq_some_iff.mp hdirPlace)
        (hp.pathOf?_eq_some_iff.mp hdirPlace')
      obtain rfl := ih _ hdir' hdirs
      obtain rfl : c = c' := Option.some.inj (hc.symm.trans hc')
      have htidy := (ht.tidy dir c hc).2
      have hfact := (mem_present_iff htidy).mp hn
      rw [← List.singleton_inj.mp hname, (mem_present_iff htidy).mp hm] at hfact
      cases hfact
      rfl

/-- While a backend is asked, nothing else happens to a tree that agrees with it. -/
theorem calm (ht : t.Charted p) (hp : p.Numbered) {q : Query} {reply : Except BackendError q.Reply}
    (htold : d.told h p q t reply t') : LazyTree.calm q t reply t' :=
  ⟨htold.1, ht.distinct hp⟩

end Charted

/-! ### Operations over a backend -/

section Operations

variable (hp : p.Numbered) (hnames : h.WellNamed) (ht : t.Charted p)
include ht

/-- Recording what a backend told of a name keeps the agreement. -/
theorem Charted.recordAnswer (hdir : t.Attached dir) (hc : t.children? dir = some c)
    (name query : String) {id : Option FileId} (attributes : Option Attributes)
    (hjoins : ∀ i, id = some i → p.Joins dir.id query i) :
    ((recordAnswer dir name query id attributes).run t).Upholds (d.told h p) (·.Charted p)
      fun _ t' => t'.Charted p := by
  have hmissing : ((Tree.recordAnswer dir name query none none).run t).Upholds (d.told h p)
      (·.Charted p) fun _ t' => t'.Charted p := by
    rw [run_recordAnswer_none ht.tidy hc]
    exact ht.change hdir hc (.insertAbsent name) trivial fun _ hn => nomatch hn
  cases id with
  | none => exact hmissing
  | some id =>
    cases attributes with
    | none => exact hmissing
    | some attributes =>
      have hmade : Made t (t.make dir id query attributes).2 := .make _ _ _ _ (.refl _)
      have hafter := (ht.made hmade).change (hmade.attached hdir) (hmade.children? hc)
        (.insertIfUnknown (t.make dir id query attributes).1) trivial fun n hn => by
          obtain rfl := List.mem_singleton.mp hn
          exact .inr ⟨loose_make ht.toRooted dir id query attributes, hjoins id rfl⟩
      rw [run_recordAnswer_found ht.tidy hc]
      dsimp only
      rw [foldl_register_eq]
      exact hafter.frame _ _

include hp hnames

/-- Asking a backend for a name keeps the agreement, if the backend may have told the spelling. -/
theorem Charted.askFor (hdir : t.AttachedDirectory dir) {name query : String}
    {policy : CasePolicy} (hspells : d.Spells h p dir.id policy query) :
    ((askFor dir name query policy).run t).Upholds (d.told h p) (·.Charted p)
      fun _ t' => t'.Charted p := by
  obtain ⟨c, hc⟩ := ht.toRooted.exists_children hdir
  refine Disk.upholds_told_ask ht (fun _ => ht) fun id htold => ?_
  have hjoins : ∀ i, id = some i → p.Joins dir.id query i := by
    rintro i rfl
    exact Disk.joins_of_told_resolve hp hnames hspells htold
  cases id with
  | none => exact ht.recordAnswer hdir.attached hc name query _ hjoins
  | some id =>
    exact Disk.upholds_told_ask ht (fun _ => ht) fun attributes _ =>
      ht.recordAnswer hdir.attached hc name query attributes hjoins

/-- Looking a name up keeps the agreement, where spellings are asked for or case distinguishes names. -/
theorem Charted.findChild (hdir : t.AttachedDirectory dir) (name : String) {canonicalize : Bool}
    (hspelled : t.policy = .sensitive ∨ canonicalize = true) :
    ((findChild dir name canonicalize).run t).Upholds (d.told h p) (·.Charted p)
      fun _ t' => t'.Charted p := by
  obtain ⟨c, hc⟩ := ht.toRooted.exists_children hdir
  rw [run_findChild, hc]
  dsimp only
  split
  · exact ht
  · exact ht
  · split
    · exact Disk.upholds_told_ask ht (fun _ => ht) fun query htold =>
        ht.askFor hp hnames hdir (.inr ⟨name, t, t, htold⟩)
    · next hplain =>
      refine ht.askFor hp hnames hdir (.inl (hspelled.elim id fun hcanonicalize => ?_))
      rw [hcanonicalize] at hplain
      cases hpolicy : t.policy with
      | sensitive => rfl
      | insensitive => simp [hpolicy, CasePolicy.isSensitive] at hplain

/-- A lookup that keeps the agreement leaves the tree in order as well. -/
theorem Charted.findChild_looked (hk : t.Kept) (hdir : t.AttachedDirectory dir) (name : String)
    {canonicalize : Bool} (hspelled : t.policy = .sensitive ∨ canonicalize = true) :
    ((Tree.findChild dir name canonicalize).run t).Upholds (d.told h p) (·.Charted p)
      fun result t' => t'.Charted p ∧ t.Looked dir result t' :=
  (ht.findChild hp hnames hdir name hspelled).and_always (hk.findChild hdir name canonicalize)
    fun _ _ _ _ hinv htold => hinv.calm hp htold

/-- Looking a path up keeps the agreement. -/
theorem Charted.lookupNames (hk : t.Kept) (hdir : t.Attached dir) (names : List String) :
    ((lookupNames dir names).run t).Upholds (d.told h p) (·.Charted p)
      fun _ t' => t'.Charted p := by
  induction names generalizing dir t with
  | nil => exact ht
  | cons name rest ih =>
    rw [Tree.lookupNames]
    split
    · next hdirectory =>
      have hdir' : (t.hold [dir]).AttachedDirectory dir := ⟨hdir.frame _ _, hdirectory⟩
      have hheld : (t.hold [dir]).Charted p := ht.frame _ _
      have hfound : ((Tree.lookup dir name).run (t.hold [dir])).Upholds (d.told h p) (·.Charted p)
          fun result t' => t'.Charted p ∧ (t.hold [dir]).Looked dir result t' :=
        hheld.findChild_looked hp hnames (hk.hold [dir]) hdir' name hheld.spelled
      have hlookup : ((holding [dir] (Tree.lookup dir name)).run t).Upholds (d.told h p)
          (·.Charted p) fun result t' => t'.Charted p ∧ t.Tended t' [] ∧
            ∀ n, result = .ok (.present n) → t'.Attached n := by
        rw [run_holding]
        refine Run.Upholds.settle (hfound.mono fun result t' hafter =>
          ⟨hafter.1.frame _ _, hafter.2.tended.release hk, fun n hn => ?_⟩)
        obtain ⟨c, hc, hmem⟩ := hafter.2.present n hn
        exact (Attached.child hafter.2.attached hc hmem).frame _ _
      rw [run_bind]
      refine hlookup.bind ?_ fun _ _ hafter => hafter.1
      rintro answer t' ⟨hcharted, htended, hattached⟩
      cases answer with
      | absent => exact hcharted
      | present next => exact ih hcharted htended.kept (hattached next rfl)
    · exact ht

/-- Looking for an identity keeps the agreement, where case distinguishes names. -/
theorem Charted.findChildById (hdir : t.AttachedDirectory dir) (id : FileId) (cachedOnly : Bool)
    (hpolicy : t.policy = .sensitive) :
    ((findChildById dir id cachedOnly).run t).Upholds (d.told h p) (·.Charted p)
      fun _ t' => t'.Charted p := by
  obtain ⟨c, hc⟩ := ht.toRooted.exists_children hdir
  rw [Tree.findChildById, run_childrenOf_bind hc]
  split
  · exact ht
  · split
    · exact ht
    · refine Disk.upholds_told_ask ht (fun _ => ht) fun name _ => ?_
      cases name with
      | none => exact ht
      | some name =>
        exact (ht.findChild hp hnames hdir name (.inl hpolicy)).bind (fun _ _ hafter => hafter)
          fun _ _ hafter => hafter

/-- Adding a child that the backend has keeps the agreement. -/
theorem Charted.materializeCreated (hdir : t.AttachedDirectory dir) (name : String) :
    ((materializeCreated dir name).run t).Upholds (d.told h p) (·.Charted p)
      fun _ t' => t'.Charted p := by
  obtain ⟨c, hc⟩ := ht.toRooted.exists_children hdir
  unfold Tree.materializeCreated
  split
  · exact ht
  · refine Disk.upholds_told_ask ht (fun _ => ht) fun attributes _ => ?_
    cases attributes with
    | none => exact ht
    | some attributes =>
      refine Disk.upholds_told_ask ht (fun _ => ht) fun spelling hspelling => ?_
      rw [run_bind, run_get, Run.bind_done_ok]
      refine Disk.upholds_told_ask ht (fun _ => ht) fun id hid => ?_
      cases id with
      | none => exact ht
      | some id =>
        have hmade : Made t (t.make dir id spelling attributes).2 := .make _ _ _ _ (.refl _)
        have hafter := (ht.made hmade).change (hmade.attached hdir.attached) (hmade.children? hc)
          (.insert (t.make dir id spelling attributes).1) trivial fun n hn => by
            obtain rfl := List.mem_singleton.mp hn
            exact .inr ⟨loose_make ht.toRooted dir id spelling attributes,
              Disk.joins_of_told_resolve hp hnames (.inr ⟨name, t, t, hspelling⟩) hid⟩
        have hrun := run_addChild (ht.made hmade).tidy (hmade.children? hc)
          (t.make dir id spelling attributes).1
        show ((newChild dir id spelling attributes >>= fun child =>
          some <$> Tree.addChild dir child).run t).Upholds _ _ _
        rw [run_bind, run_newChild, Run.bind_done_ok, run_map, hrun]
        exact hafter.frame _ _

/-- Checking a child keeps the agreement. -/
theorem Charted.recheck (hk : t.Kept) (hdir : t.AttachedDirectory dir)
    (hc : t.children? dir = some c) (hn : n ∈ c.present) :
    ((recheck dir n).run t).Upholds (d.told h p) (·.Charted p) fun _ t' => t'.Charted p := by
  refine Disk.upholds_told_ask ht (fun _ => ht) fun attributes _ => ?_
  obtain ⟨t', hrun, htended, hdir'⟩ := hk.removeChild (ht.distinct hp) hdir.attached hc hn
  have hafter : t'.Charted p := by
    obtain ⟨result, registry, hremove⟩ := run_removeChild ht.tidy hc n
    rw [hrun] at hremove
    injection hremove with _ heq
    rw [heq]
    exact (ht.change hdir.attached hc (.remove n t.config.cacheRemovedNames) trivial
      fun _ hm => nomatch hm).frame _ _
  cases attributes with
  | none =>
    dsimp only
    rw [run_bind, hrun]
    exact hafter
  | some attributes =>
    dsimp only
    split
    · exact ht
    · rw [run_bind, hrun]
      exact hafter.materializeCreated hp hnames ⟨hdir', hdir.isDirectory⟩ n.name

/-- Looking a name up and checking the answer keeps the agreement. -/
theorem Charted.refreshAndFindChild (hk : t.Kept) (hdir : t.AttachedDirectory dir) (name : String) :
    ((refreshAndFindChild dir name).run t).Upholds (d.told h p) (·.Charted p)
      fun _ t' => t'.Charted p := by
  unfold Tree.refreshAndFindChild
  rw [run_bind]
  refine (ht.findChild_looked hp hnames hk hdir name (.inr rfl)).bind ?_ fun _ _ hafter => hafter.1
  rintro answer t' ⟨hcharted, htended, hdir', hpresent⟩
  cases answer with
  | absent => exact hcharted.materializeCreated hp hnames ⟨hdir', hdir.isDirectory⟩ name
  | present node =>
    obtain ⟨c, hc, hn⟩ := hpresent node rfl
    have hheld : (t'.hold [node]).Charted p := hcharted.frame _ _
    show ((TreeM.holding [node] (Tree.recheck dir node)).run t').Upholds _ _ _
    rw [run_holding]
    exact Run.Upholds.settle ((hheld.recheck hp hnames (htended.kept.hold [node])
      ⟨hdir'.frame _ _, hdir.isDirectory⟩ hc hn).mono fun _ _ hafter => hafter.frame _ _)

end Operations

/-! ### Listings -/

/-- Installing the nodes for a listing asks nothing, and changes one array and the registry. -/
theorem run_installListing (ht : t.Tidy) (hc : t.children? dir = some c) (cached : List Node)
    {merged : List Node} (hmerged : Ascending c.policy merged) (generation : Nat) :
    ∃ result registry, (installListing dir cached merged generation).run t = .done result
      { t.setChildren dir (c.apply (.install merged generation)).2 with registry := registry } := by
  have hop : Children.Op.Admissible c.policy (.install merged generation) := hmerged
  have hrun : (installListing dir cached merged generation).run t = _ := run_change_bind ht hc hop _
  rw [hrun]
  split
  · rw [run_bind, run_modify, Run.bind_done_ok, foldl_register_eq]
    exact run_unregisterSubtrees _ _
  · exact ⟨_, t.registry, rfl⟩

/-- Merging a listing that a backend told keeps the agreement, and each node for it was cached or has the
place of its name. -/
theorem Charted.mergeListing (ht : t.Charted p) (hdir : t.Attached dir) {entries : List Listed}
    (hentries : ∀ e ∈ entries, p.Joins dir.id e.name e.id) (cached : List Node) :
    ((mergeListing dir cached entries).run t).Upholds (d.told h p) (·.Charted p) fun result t' =>
      t'.Charted p ∧ ∀ merged, result = .ok merged →
        ∀ n ∈ merged, n ∈ cached ∨ p.Joins dir.id n.name n.id := by
  induction entries generalizing t cached with
  | nil =>
    refine ⟨ht, ?_⟩
    rintro _ ⟨⟩ n hn
    cases hn
  | cons entry rest ih =>
    obtain ⟨hentry, hrest⟩ := List.forall_mem_cons.mp hentries
    obtain ⟨hcandidate, hlater⟩ := mem_of_passed t.policy cached entry
    have hwiden : ∀ merged : List Node,
        (∀ n ∈ merged, n ∈ (passed t.policy cached entry).2 ∨ p.Joins dir.id n.name n.id) →
        ∀ n ∈ merged, n ∈ cached ∨ p.Joins dir.id n.name n.id :=
      fun merged hmerged n hn => (hmerged n hn).imp_left (hlater n)
    have hfailed : ∀ e : TreeError, ∀ merged, (.error e : Except TreeError (List Node)) = .ok merged →
        ∀ n ∈ merged, n ∈ cached ∨ p.Joins dir.id n.name n.id := by
      rintro e merged ⟨⟩
    rw [run_mergeListing_cons, mergeEntry]
    split
    · next node hnode =>
      -- a cached node is used again
      obtain ⟨hnode, -⟩ := Option.filter_eq_some_iff.mp hnode
      refine (ih ht hdir hrest _).bind ?_ fun e t' hafter => ⟨hafter.1, hfailed e⟩
      rintro merged t' ⟨hcharted, hmerged⟩
      refine ⟨hcharted, ?_⟩
      rintro _ ⟨⟩
      exact List.forall_mem_cons.mpr
        ⟨.inl (hcandidate node hnode), hwiden merged (hmerged merged rfl)⟩
    · refine Disk.upholds_told_ask ht (fun e => ⟨ht, hfailed e⟩) fun attributes _ => ?_
      cases attributes with
      | none =>
        exact (ih ht hdir hrest _).mono fun result t' hafter =>
          ⟨hafter.1, fun merged hresult => hwiden merged (hafter.2 merged hresult)⟩
      | some attributes =>
        have hmade : Made t (t.make dir entry.id entry.name attributes).2 :=
          .make _ _ _ _ (.refl _)
        have hname : (t.make dir entry.id entry.name attributes).1.name = entry.name := rfl
        have hid : (t.make dir entry.id entry.name attributes).1.id = entry.id := rfl
        dsimp only
        rw [run_bind, run_newChild, Run.bind_done_ok, run_bind]
        generalize t.make dir entry.id entry.name attributes = made at *
        obtain ⟨child, t₁⟩ := made
        dsimp only at *
        rw [← hname, ← hid] at hentry
        -- the node is held while the entries behind are merged
        have hmerge : ((holding [child] (Tree.mergeListing dir (passed t.policy cached entry).2
            rest)).run t₁).Upholds (d.told h p) (·.Charted p) fun result t' =>
              t'.Charted p ∧ ∀ merged, result = .ok merged →
                ∀ n ∈ merged, n ∈ (passed t.policy cached entry).2 ∨ p.Joins dir.id n.name n.id := by
          rw [run_holding]
          exact Run.Upholds.settle ((ih ((ht.made hmade).frame _ _)
            ((hmade.attached hdir).frame _ _) hrest _).mono fun result t' hafter =>
              ⟨hafter.1.frame _ _, hafter.2⟩)
        refine hmerge.bind ?_ fun e t' hafter => ⟨hafter.1, hfailed e⟩
        rintro merged t' ⟨hcharted, hmerged⟩
        refine ⟨hcharted, ?_⟩
        rintro _ ⟨⟩
        exact List.forall_mem_cons.mpr ⟨.inr hentry, hwiden merged (hmerged merged rfl)⟩

/-- The nodes for a listing can be installed as the array of a directory: they are in the order of their
names, and each was a child before, or is new and has the place of its name. -/
structure Installable (t : Tree) (p : Places) (dir : Node) (c : Children) (merged : List Node) :
    Prop where
  /-- The directory is attached. -/
  attached : t.Attached dir
  /-- Its array is known. -/
  known : t.children? dir = some c
  /-- The nodes are in the order of their names. -/
  ascending : Ascending c.policy merged
  /-- Each was a child before, or is new and has the place of its name. -/
  origin : ∀ n ∈ merged, n ∈ c.present ∨ t.Loose n ∧ p.Joins dir.id n.name n.id

/-- The nodes that a sorted listing is merged into can be installed. -/
theorem Charted.mergeSorted (hp : p.Numbered) (ht : t.Charted p) (hdir : t.Attached dir)
    (hc : t.children? dir = some c) {entries : List Listed}
    (hentries : ∀ e ∈ entries, p.Joins dir.id e.name e.id)
    (hascends : Ascending t.policy entries) :
    ((Tree.mergeListing dir c.present entries).run t).Upholds (d.told h p) (·.Charted p)
      fun result t' => t'.Charted p ∧
        ∀ merged, result = .ok merged → t'.Installable p dir c merged := by
  have hmerge : ((Tree.mergeListing dir c.present entries).run t).Upholds (d.told h p)
      (·.Charted p) _ :=
    (ht.mergeListing hdir hentries c.present).and_always
      (gathered_mergeListing ht.toRooted hdir entries)
      fun _ _ _ _ hinv htold => hinv.calm hp htold
  have hsorted := hmerge.and_always
    ((stable_tidy t).mergeListing_always dir entries c.present t ⟨ht.tidy, .refl _⟩)
    fun _ _ _ _ _ htold hkept => htold.1 ▸ hkept
  refine hsorted.mono fun result t' ⟨⟨⟨hcharted, hjoins⟩, hgathered⟩, _, hkeys⟩ =>
    ⟨hcharted, fun merged hresult => ?_⟩
  refine ⟨hgathered.made.attached hdir, hgathered.made.children? hc, ?_, fun n hn => ?_⟩
  · rw [(ht.tidy dir c hc).1]
    exact ascending_of_sublist hascends (hkeys merged hresult)
  · rcases hgathered.origin merged hresult n hn with hold | hnew
    · exact .inl hold
    · exact (hjoins merged hresult n hn).imp_right fun hjoins => ⟨hnew.1.loose, hjoins⟩

/-- Installing such nodes keeps the agreement. -/
theorem Charted.installListing (ht : t.Charted p) {merged : List Node}
    (hmerged : t.Installable p dir c merged) :
    ∃ result t', (holding merged
        (Tree.installListing dir c.present merged c.generation)).run t = .done result t' ∧
      t'.Charted p := by
  have hheld : (t.hold merged).Charted p := ht.frame _ _
  have hc : (t.hold merged).children? dir = some c := hmerged.known
  obtain ⟨result, registry, hrun⟩ := run_installListing hheld.tidy hc c.present hmerged.ascending
    c.generation
  have hafter := hheld.change (hmerged.attached.frame _ _) hc (.install merged c.generation)
    hmerged.ascending fun n hn =>
      (hmerged.origin n hn).imp_right fun hnew => ⟨hnew.1.frame _ _, hnew.2⟩
  exact ⟨result, _, congrArg (Run.settle (·.release merged)) hrun, hafter.frame registry _⟩

/-- Listing a directory keeps the agreement. -/
theorem Charted.refreshChildren (hp : p.Numbered) (hnames : h.WellNamed) (ht : t.Charted p)
    (hdir : t.AttachedDirectory dir) :
    ((refreshChildren dir).run t).Upholds (d.told h p) (·.Charted p) fun _ t' => t'.Charted p := by
  obtain ⟨c, hc⟩ := ht.toRooted.exists_children hdir
  rw [Tree.refreshChildren, run_childrenOf_bind hc]
  split
  · exact ht
  refine Disk.upholds_told_ask ht (fun _ => ht) fun listing htold => ?_
  rw [run_bind, run_get, Run.bind_done_ok, run_childrenOf_bind hc, run_holding]
  have hheld : (t.hold c.present).Charted p := ht.frame _ _
  have hmerge : ((Tree.mergeListing dir c.present (sortedListing t.policy listing)).run
      (t.hold c.present)).Upholds (d.told h p) (·.Charted p) _ :=
    hheld.mergeSorted hp (hdir.attached.frame _ _) hc
      (fun e he => Disk.joins_of_told_list hp hnames htold e (mem_of_mem_sortedListing he))
      (ascending_sortedListing t.policy listing)
  refine Run.Upholds.settle (hmerge.bind ?_ fun e t' hafter => hafter.1.frame _ _)
  rintro merged t₁ ⟨hcharted, hmerged⟩
  obtain ⟨result, t₂, hrun, hafter⟩ := hcharted.installListing (hmerged merged rfl)
  show ((do TreeM.holding merged (Tree.installListing dir c.present merged c.generation)
            return merged : TreeM (List Node)).run t₁).Upholds _ _ _
  rw [run_bind, hrun]
  cases result with
  | ok _ => exact hafter.frame _ _
  | error _ => exact hafter.frame _ _

/-- Forgetting the children of a directory keeps the agreement. -/
theorem Charted.clearChildren (ht : t.Charted p) (hdir : t.AttachedDirectory dir) :
    ∃ result t', (clearChildren dir).run t = .done result t' ∧ t'.Charted p := by
  obtain ⟨c, hc⟩ := ht.toRooted.exists_children hdir
  obtain ⟨result, registry, hrun⟩ := run_clearChildren_of_tidy ht.tidy hc
  have hheld : (t.hold c.present).Charted p := ht.frame _ _
  have hafter := hheld.change (hdir.attached.frame _ _) hc .clear trivial fun _ hn => nomatch hn
  exact ⟨result, _, hrun, hafter.frame registry _⟩

/-! ### Steps -/

/-- What an operation keeps when its answer is mapped. -/
theorem upholds_map {α β : Type} {act : TreeM α} {w : World} {inv P : Tree → Prop} (f : α → β)
    (hact : (act.run t).Upholds w inv fun _ t' => P t') :
    ((f <$> act).run t).Upholds w inv fun _ t' => P t' := by
  rw [run_map]
  exact hact.bind (fun _ _ ht' => ht') fun _ _ ht' => ht'

/-- A step that looks, lists, checks or forgets keeps the agreement of a tree in order with a backend over
a host, if it looks for identities only where case distinguishes names. -/
theorem Charted.command (hp : p.Numbered) (hnames : h.WellNamed) (ht : t.Charted p) (hk : t.Kept)
    (handles : Handles) {on : Operands} (hdir : t.AttachedDirectory on.dir) {command : Command}
    (hplain : command.isPlain = true)
    (hpolicy : ∀ source cachedOnly, command = .findChildById source cachedOnly →
      t.policy = .sensitive) :
    ((command.run handles on).run t).Upholds (d.told h p) (·.Charted p)
      fun _ t' => t'.Charted p ∧ t.Tended t' [] := by
  refine Run.Upholds.and_always ?_ (hk.command (ht.distinct hp) handles hdir (.inl hplain))
    fun _ _ _ _ hinv htold => hinv.calm hp htold
  obtain ⟨c, hc⟩ := ht.toRooted.exists_children hdir
  cases command with
  | lookup name => exact upholds_map _ (ht.findChild hp hnames hdir name ht.spelled)
  | lookupPath path => exact upholds_map _ (ht.lookupNames hp hnames hk hdir.attached _)
  | cached name =>
    refine upholds_map _ ?_
    rw [run_findCached hc]
    exact ht
  | children =>
    refine upholds_map _ ?_
    rw [run_children hc]
    exact ht
  | refreshChildren => exact upholds_map _ (ht.refreshChildren hp hnames hdir)
  | findChildById source cachedOnly =>
    simp only [Command.run]
    split
    · exact ht
    · exact upholds_map _ (ht.findChildById hp hnames hdir _ _ (hpolicy source cachedOnly rfl))
  | refreshAndFindChild name => exact upholds_map _ (ht.refreshAndFindChild hp hnames hk hdir name)
  | clearChildren =>
    obtain ⟨result, t', hrun, hafter⟩ := ht.clearChildren hdir
    refine upholds_map _ ?_
    rw [hrun]
    exact hafter
  | _ => simp [Command.isPlain] at hplain

end Tree

end LazyTree
