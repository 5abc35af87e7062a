import LazyTree.Proofs.MergedListings
import LazyTree.Proofs.RealPlaces

set_option autoImplicit false

/-!
# Kinds of listed children

A listing uses a cached node again where name and identity agree with an entry, and does not ask
whether the file is still of its kind. The nodes that it makes are of the kind that the backend
reports. So whether all nodes of a listing are of the right kind depends on the cached children that
are listed with their identity. A backend over a directory of a host gives its identities to places,
so a file keeps its identity when a directory takes its place; the check of a single name sets that
right, and a listing does not.

## Main definitions

* `LazyTree.Answers.Shows` — a node is of the kind that the backend reports for its name.
* `LazyTree.Tree.Relists` — a cached child is listed with its identity.

## Main results

* `LazyTree.Tree.refreshChildren_shows_iff` — when all nodes of a listing are of the right kind.
-/

namespace LazyTree

/-- The backend reports a file for the name of a node in a directory, and of the kind of the node. -/
def Answers.Shows (answers : Answers) (dir n : Node) : Prop :=
  ∃ found, answers (.attributes dir.id n.name) = .ok (some found) ∧
    found.directory = n.isDirectory

namespace Tree

open TreeM

variable {t t' : Tree} {dir n : Node} {c : Children} {answers : Answers}
  {attributes : String → Option Attributes} {listing entries : List Listed}

/-- A node has the identity that was listed first under its name. -/
def Relists (policy : CasePolicy) (listing : List Listed) (n : Node) : Prop :=
  ∃ e, listing.find? (fun e => policy.key e.name = policy.key n.name) = some e ∧ e.id = n.id

/-- A cached child is used again for an entry of the sorted listing exactly if it is listed with its
identity. -/
theorem exists_reusable?_iff {policy : CasePolicy} {cached : List Node}
    (hcached : Ascending policy cached) (hn : n ∈ cached) :
    (∃ e ∈ sortedListing policy listing, reusable? policy cached e = some n) ↔
      Relists policy listing n := by
  constructor
  · rintro ⟨e, he, hreused⟩
    obtain ⟨-, hkey, hid⟩ := (reusable?_eq_some_iff hcached).mp hreused
    refine ⟨e, ?_, hid.symm⟩
    rw [hkey]
    exact mem_sortedListing_iff.mp he
  · rintro ⟨e, hfirst, hid⟩
    have hkey : policy.key e.name = policy.key n.name := by
      simpa using List.find?_some hfirst
    refine ⟨e, mem_sortedListing_iff.mpr ?_,
      (reusable?_eq_some_iff hcached).mpr ⟨hn, hkey.symm, hid.symm⟩⟩
    rw [hkey]
    exact hfirst

/-- A node for the entries of a listing is a cached child that is listed with its identity, or a new
node of the kind that the backend reports. -/
theorem mem_naiveJoin_shows {policy : CasePolicy} {cached : List Node} {next : Nat}
    (hcached : Ascending policy cached)
    (hattributes : ∀ e ∈ listing,
      answers (.attributes dir.id e.name) = .ok (attributes e.name))
    (hn : n ∈ naiveJoin (reusable? policy cached) attributes dir.id next
      (sortedListing policy listing)) :
    n ∈ cached ∧ Relists policy listing n ∨ answers.Shows dir n := by
  obtain ⟨e, he, hreused | ⟨-, -, -, hname, hfound⟩⟩ := exists_of_mem_naiveJoin hn
  · have hmem := ((reusable?_eq_some_iff hcached).mp hreused).1
    exact .inl ⟨hmem, (exists_reusable?_iff hcached hmem).mp ⟨e, he, hreused⟩⟩
  · refine .inr ⟨n.attributes, ?_, rfl⟩
    rw [hname, hattributes e (mem_of_mem_sortedListing he), hfound]

/-- Say that a directory whose children are not known to be all there are is listed, and that the
backend answers. Unless the walk over what is cached below a dropped child has no end, this gives
nodes, which are all children of the directory from then on. A node that was not cached is of the
kind that the backend reports for its name. All nodes are so exactly if each cached child that is
listed with its identity is. -/
theorem refreshChildren_shows_iff {policy : CasePolicy} {config : TreeConfig} {root : FileId}
    {rootName : String} (hreached : Admits (ofRoot policy config root rootName) t)
    (hc : t.children? dir = some c) (hloaded : c.allLoaded = false)
    (hlist : answers (.list dir.id) = .ok listing)
    (hattributes : ∀ e ∈ listing,
      answers (.attributes dir.id e.name) = .ok (attributes e.name)) :
    ∃ result t' asked, (refreshChildren dir).logged answers t = (result, t', asked) ∧
      ((∃ nodes, result = .ok nodes ∧
          (∃ c', t'.children? dir = some c' ∧ c'.present = nodes ∧ c'.allLoaded = true) ∧
          (∀ n ∈ nodes, n ∈ c.present ∨ answers.Shows dir n) ∧
          ((∀ n ∈ nodes, answers.Shows dir n) ↔
            ∀ n ∈ c.present, Relists t.policy listing n → answers.Shows dir n)) ∨
        ¬ t.Graded ∧ ∃ id, result = .error (.endless id)) := by
  obtain ⟨ht, hproper⟩ := hreached.peopled_and_proper
  have hcached := ht.tidy.ascending_present hc
  obtain ⟨result, t', hlogged, harray, hend⟩ :=
    ht.logged_refreshChildren hproper hc hloaded hlist rfl hattributes rfl
  refine ⟨result, t', _, hlogged, ?_⟩
  rcases hend with ⟨rfl, -⟩ | ⟨hnot, top, -, -, hresult⟩
  · refine .inl ⟨_, rfl, harray, fun n hn => ?_, fun hall n hn hlisted => ?_, fun hall n hn => ?_⟩
    · exact (mem_naiveJoin_shows hcached hattributes hn).imp_left And.left
    · obtain ⟨e, he, hreused⟩ := (exists_reusable?_iff hcached hn).mpr hlisted
      exact hall n (mem_naiveJoin_of_reused he hreused)
    · rcases mem_naiveJoin_shows hcached hattributes hn with ⟨hmem, hlisted⟩ | hshows
      · exact hall n hmem hlisted
      · exact hshows
  · exact .inr ⟨hnot, top.id, hresult⟩

/-! ### A file that became a directory

A file is looked up. Then it is a directory, under the same name and with the same identity, and
another file has come. -/

namespace Turned

/-- The root of the tree. -/
def root : Node :=
  ⟨0, ⟨1, FileId.raw_one_ne_zero⟩, "root", none, { directory := true }⟩

/-- The file, as the lookup made a node for it. -/
def former : Node :=
  ⟨1, ⟨2, FileId.raw_two_ne_zero⟩, "a", some root.id, {}⟩

/-- The file that has come. -/
def other : Node :=
  ⟨2, ⟨3, FileId.raw_three_ne_zero⟩, "c", some root.id, {}⟩

/-- The backend at the time of the lookup. -/
def before : Table :=
  (Table.ofRoot .sensitive root.id).add root.id ⟨"a", some former.id, some {}⟩

/-- The backend at the time of the listing. -/
def now : Table :=
  ((Table.ofRoot .sensitive root.id).add root.id
    ⟨"a", some former.id, some { directory := true }⟩).add root.id ⟨"c", some other.id, some {}⟩

/-- The tree after the lookup. -/
def cached : Tree :=
  (ofRoot .sensitive {} root.id "root").stepped before.answer root (.lookup "a") [0]

/-- What the backend lists. -/
def lines : List Listed :=
  [⟨"a", former.id⟩, ⟨"c", other.id⟩]

/-- The attributes of what is listed. -/
def reports (name : String) : Option Attributes :=
  some { directory := name = "a" }

/-- The listing does not answer that the file is a directory. -/
theorem refreshChildren_shows_iff_turned :
    ∃ result t' asked nodes, (refreshChildren root).logged now.answer cached = (result, t', asked) ∧
      result = .ok nodes ∧ (∀ n ∈ nodes, n ∈ [former] ∨ Answers.Shows now.answer root n) ∧
      ¬ ∀ n ∈ nodes, Answers.Shows now.answer root n := by
  have hgraded : cached.Graded := (graded_ofRoot .sensitive {} root.id "root").stepped
    before.answer root (.lookup "a") [0] nofun
  have hknown : (cached.children? root).map (fun c => (c.present, c.allLoaded)) =
      some ([former], false) := by decide +kernel
  obtain ⟨c, hc, hpair⟩ := Option.map_eq_some_iff.mp hknown
  obtain ⟨hpresent, hloaded⟩ := Prod.mk.inj hpair
  have hlist : now.answer (.list root.id) = .ok lines := rfl
  have hreports : ∀ e ∈ lines, now.answer (.attributes root.id e.name) = .ok (reports e.name) := by
    intro e he
    rcases List.mem_pair.mp he with rfl | rfl
    · rfl
    · rfl
  obtain ⟨result, t', asked, hlogged, ⟨nodes, hresult, -, hnew, hiff⟩ | ⟨hnot, -⟩⟩ :=
    refreshChildren_shows_iff (.stepped before.answer root (.lookup "a") [0] nofun (.refl _)) hc
      hloaded hlist hreports
  · rw [hpresent] at hnew hiff
    refine ⟨result, t', asked, nodes, hlogged, hresult, hnew, fun hall => ?_⟩
    obtain ⟨found, hfound, hkind⟩ := hiff.mp hall former (List.mem_singleton_self _)
      ⟨⟨"a", former.id⟩, by decide +kernel, rfl⟩
    have hdirectory : now.answer (.attributes root.id former.name) =
        .ok (some { directory := true }) := rfl
    rw [hdirectory] at hfound
    cases hfound
    cases hkind
  · exact absurd hgraded hnot

end Turned

end Tree

/-! ### The same in a directory of a host -/

namespace DiskSession

namespace Turned

/-- The host, with a directory that holds one file. -/
def host : Host where
  top := .directory false [(.text "yard", .directory false [(.text "shed", .file false .empty)])]

/-- The path of the directory that is opened. -/
def path : HostPath :=
  [.top, .name (.text "yard")]

/-- The session, as it is opened. -/
def start : DiskSession where
  base := .start (.ofRoot .sensitive {} Disk.rootId "yard")
  disk := .ofRoot [.text "yard"] .sensitive []
  host := host
  ground := path
  notes := [("root", Disk.rootId)]

/-- The file is looked up and removed, and a directory is made in its place. -/
def steps : List DiskStep :=
  [.tree {} (.lookup "shed"), .edit (.remove [.name (.text "shed")]),
    .edit (.make ⟨[.name (.text "shed")], .directory, false⟩)]

/-- The file, as the lookup made a node for it. -/
def former : Node :=
  ⟨1, ⟨2, FileId.raw_two_ne_zero⟩, "shed", some Disk.rootId, {}⟩

/-- The session begins so. -/
theorem openAt_host : openAt host path path .sensitive {} [] = .ok start := by
  cbv

/-- The listing of the directory after that, with the tree and the backend that it leaves. -/
def listed : Except TreeError (List Node) × Tree × Disk :=
  ((Tree.refreshChildren (start.after steps).base.tree.root).run
    (start.after steps).base.tree).serve (serve (start.after steps).host) (start.after steps).disk

/-- A listing need not show of what kind a file is, by the same backend and on the same host. -/
theorem not_listed_shows :
    ¬ ∀ (host : Host) (ground path : HostPath) (policy : CasePolicy) (config : TreeConfig)
      (allowed : List HostPath) (s₀ : DiskSession),
      openAt host ground path policy config allowed = .ok s₀ →
      ∀ (steps : List DiskStep) (dir : Node) (c : Children) (nodes : List Node) (t : Tree)
        (d : Disk),
        (s₀.after steps).base.tree.Attached dir →
        (s₀.after steps).base.tree.children? dir = some c → c.allLoaded = false →
        ((Tree.refreshChildren dir).run (s₀.after steps).base.tree).serve
          (serve (s₀.after steps).host) (s₀.after steps).disk = (.ok nodes, t, d) →
        ∀ n ∈ nodes, ∃ found,
          (d.answer (s₀.after steps).host (.attributes dir.id n.name)).1 = .ok (some found) ∧
            found.directory = n.isDirectory := by
  intro hall
  have hknown : ((start.after steps).base.tree.children? (start.after steps).base.tree.root).map
      Children.allLoaded = some false := by cbv
  obtain ⟨c, hc, hloaded⟩ := Option.map_eq_some_iff.mp hknown
  have hresult : listed.1 = .ok [former] := by cbv
  have hanswer : (listed.2.2.answer (start.after steps).host
      (.attributes (start.after steps).base.tree.root.id former.name)).1 =
        .ok (some { directory := true }) := by cbv
  obtain ⟨found, hfound, hkind⟩ := hall host path path .sensitive {} [] start openAt_host steps _ c
    [former] listed.2.1 listed.2.2 .root hc hloaded (Prod.ext hresult rfl) former
    (List.mem_singleton_self _)
  rw [hanswer] at hfound
  cases hfound
  cases hkind

end Turned

end DiskSession

end LazyTree
