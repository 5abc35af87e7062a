import Mathlib
import LazyTree.Backend.Disk
import LazyTree.Name.Order
import LazyTree.Proofs.HostPaths

set_option autoImplicit false

/-!
# Names and the spelling of paths

A text can be the name of a file, or the spelling of a path. A backend takes only those texts as names
whose spelling is that of a path with this one name, and the names that a host lists are of this kind.
So names can be put together to the spelling of a path, with separators between them, and the path
that has this spelling leads through these names.

## Main definitions

* `LazyTree.Entry.Throughout` — something holds of the names in all directories.
* `LazyTree.Entry.WellNamed`, `LazyTree.Host.WellNamed` — texts that are names on a host are such that
  files can have them.

## Main results

* `LazyTree.HostPath.ofText_intercalate` — the spelling of a path through names.
* `LazyTree.HostPath.ofText_eq_name_iff` — which texts spell a path with this one name.
-/

namespace LazyTree

variable {name : String} {names : List String}

/-! ### Spellings -/

namespace Disk

/-- A text can be the last part of a path exactly if it has no separator and is none of the texts that
are no names. -/
theorem isComponent_iff :
    isComponent name = true ↔ name ≠ "" ∧ name ≠ "." ∧ name ≠ ".." ∧ '/' ∉ name.toList := by
  simp [isComponent, and_assoc]

end Disk

namespace HostPath

/-- No piece of a text between separators has a separator. -/
theorem separator_not_mem_splitOn (chars : List Char) :
    ∀ piece ∈ chars.splitOn '/', '/' ∉ piece := by
  induction chars with
  | nil => simp [List.splitOn_nil]
  | cons c rest ih =>
    rw [List.splitOn_cons_eq_if_modifyHead]
    split
    · exact List.forall_mem_cons.mpr ⟨List.not_mem_nil, ih⟩
    · next hc =>
      cases hpieces : rest.splitOn '/' with
      | nil => simp
      | cons first pieces =>
        rw [hpieces] at ih
        obtain ⟨hfirst, hpieces⟩ := List.forall_mem_cons.mp ih
        have hcons : '/' ∉ c :: first := by
          rw [List.mem_cons, not_or]
          exact ⟨fun heq => hc (beq_iff_eq.mpr heq.symm), hfirst⟩
        exact List.forall_mem_cons.mpr ⟨hcons, hpieces⟩

/-- The part with the spelling of a name is the name. -/
theorem part?_text (h : Disk.isComponent name = true) :
    part? (.text name) = some (.name (.text name)) := by
  obtain ⟨hempty, hhere, hup, -⟩ := Disk.isComponent_iff.mp h
  simp [part?, hempty, hhere, hup]

/-- A name that is a part of a path is one of the pieces of its spelling. -/
theorem mem_of_name_mem_ofPieces {pieces : List FileName} {n : FileName}
    (h : .name n ∈ ofPieces pieces) : n ∈ pieces ∧ part? n = some (.name n) := by
  have hmem : .name n ∈ pieces.filterMap part? := by
    unfold ofPieces at h
    rw [List.mem_append, List.mem_append] at h
    rcases h with (hstart | hmem) | hclose
    · split at hstart
      · split at hstart <;> simp at hstart
      · simp at hstart
    · exact hmem
    · split at hclose
      · split at hclose <;> simp at hclose
      · simp at hclose
  obtain ⟨piece, hpiece, hpart⟩ := List.mem_filterMap.mp hmem
  have heq : piece = n := by
    unfold part? at hpart
    split at hpart
    · cases hpart
    · split at hpart
      · cases hpart
      · split at hpart <;> cases hpart
        rfl
  subst heq
  exact ⟨hpiece, hpart⟩

/-- If no piece is empty, a path consists of the parts with the pieces as their spellings. -/
theorem ofPieces_of_forall_ne {pieces : List FileName} (h : ∀ n ∈ pieces, n ≠ .text "") :
    ofPieces pieces = pieces.filterMap part? := by
  cases pieces with
  | nil => rfl
  | cons first rest =>
    have hfirst := h first List.mem_cons_self
    have hlast : rest.getLast? ≠ some (.text "") := fun hlast =>
      h _ (List.mem_cons_of_mem _ (List.mem_of_getLast? hlast)) rfl
    cases rest <;> simp [ofPieces, hfirst, hlast]

/-- Names with separators between them spell the path through these names. -/
theorem ofText_intercalate (hnone : names ≠ [])
    (hnames : ∀ name ∈ names, Disk.isComponent name = true) :
    ofText (String.ofList (List.intercalate ['/'] (names.map String.toList))) =
      names.map fun name => .name (.text name) := by
  have hpieces : ((List.intercalate ['/'] (names.map String.toList)).splitOn '/').map
      (fun piece => FileName.text (String.ofList piece)) = names.map .text := by
    rw [List.splitOn_intercalate '/' ?_ (by simpa using hnone), List.map_map]
    · exact List.map_congr_left fun name _ => congrArg FileName.text String.ofList_toList
    · intro piece hpiece
      obtain ⟨name, hname, rfl⟩ := List.mem_map.mp hpiece
      exact (Disk.isComponent_iff.mp (hnames name hname)).2.2.2
  rw [ofText, String.toList_ofList, hpieces, ofPieces_of_forall_ne, List.filterMap_map]
  · refine (List.filterMap_congr fun name hname => part?_text (hnames name hname)).trans ?_
    simp
  · intro n hn
    obtain ⟨name, hname, rfl⟩ := List.mem_map.mp hn
    simpa using (Disk.isComponent_iff.mp (hnames name hname)).1

/-- A text spells the path with this one name exactly if a backend takes it as a name. -/
theorem ofText_eq_name_iff :
    ofText name = [.name (.text name)] ↔ Disk.isComponent name = true := by
  constructor
  · intro hpath
    have hname : .name (.text name) ∈ ofText name := by
      rw [hpath]
      exact List.mem_cons_self
    obtain ⟨hpiece, hpart⟩ := mem_of_name_mem_ofPieces hname
    obtain ⟨piece, hmem, heq⟩ := List.mem_map.mp hpiece
    rw [Disk.isComponent_iff]
    refine ⟨?_, ?_, ?_, ?_⟩
    · rintro rfl
      cases hpart
    · rintro rfl
      cases hpart
    · rintro rfl
      cases hpart
    · rw [← FileName.text.inj heq, String.toList_ofList]
      exact separator_not_mem_splitOn _ _ hmem
  · intro hname
    simpa using ofText_intercalate (List.cons_ne_nil name []) (by simpa using hname)

end HostPath

/-! ### Names on a host -/

namespace Entry

/-- Something holds of the names of an entry, and of those of all entries below it. -/
def Throughout (Q : List FileName → Prop) (e : Entry) : Prop :=
  ∀ place below, e.at? place = some below → Q (below.entries.map (·.1))

section Throughout

variable {Q : List FileName → Prop}

/-- What is no directory has no names. -/
theorem throughout_of_entries_eq_nil (hnone : Q []) {e : Entry} (h : e.entries = []) :
    e.Throughout Q := by
  intro place below hat
  cases place with
  | nil =>
    cases hat
    rw [h]
    exact hnone
  | cons n rest =>
    rw [at?, child?, h] at hat
    cases hat

/-- It holds of all names in a directory if it holds of its own ones and of those of its entries. -/
theorem throughout_directory {readOnly : Bool} {entries : List (FileName × Entry)}
    (hown : Q (entries.map (·.1))) (h : ∀ pair ∈ entries, pair.2.Throughout Q) :
    (directory readOnly entries).Throughout Q := by
  intro place below hat
  cases place with
  | nil =>
    cases hat
    exact hown
  | cons n rest =>
    rw [at?] at hat
    cases hchild : (directory readOnly entries).child? n with
    | none =>
      rw [hchild] at hat
      cases hat
    | some child =>
      rw [hchild] at hat
      obtain ⟨front, back, heq, -⟩ := List.lookup_eq_some_iff.mp hchild
      have hmem : (n, child) ∈ entries := by
        rw [show entries = front ++ (n, child) :: back from heq]
        simp
      exact h _ hmem rest below hat

end Throughout

/-- Texts that are names of an entry or of something below it are such that files can have them. -/
def WellNamed (e : Entry) : Prop :=
  ∀ place below, e.at? place = some below →
    ∀ m, .text m ∈ below.entries.map (·.1) → isFileName m = true

/-- That is said of the names in all directories. -/
theorem wellNamed_iff {e : Entry} :
    e.WellNamed ↔ e.Throughout fun names => ∀ m, .text m ∈ names → isFileName m = true :=
  Iff.rfl

/-- What is no directory is well named. -/
theorem wellNamed_of_entries_eq_nil {e : Entry} (h : e.entries = []) : e.WellNamed :=
  wellNamed_iff.mpr (throughout_of_entries_eq_nil (fun _ hm => absurd hm List.not_mem_nil) h)

/-- A directory is well named if its own names and its entries are. -/
theorem wellNamed_directory {readOnly : Bool} {entries : List (FileName × Entry)}
    (h : ∀ pair ∈ entries, (∀ m, pair.1 = .text m → isFileName m = true) ∧ pair.2.WellNamed) :
    (directory readOnly entries).WellNamed := by
  refine wellNamed_iff.mpr (throughout_directory (fun m hm => ?_) fun pair hpair => (h pair hpair).2)
  obtain ⟨pair, hpair, heq⟩ := List.mem_map.mp hm
  exact (h pair hpair).1 m heq

end Entry

namespace Host

/-- Texts that are names on a host are such that files can have them. -/
def WellNamed (h : Host) : Prop :=
  h.top.WellNamed

/-- The names in a directory that are texts are such that files can have them. -/
theorem WellNamed.isFileName {h : Host} (hnames : h.WellNamed) {path : HostPath}
    {names : List FileName} (hlist : h.list path = .ok names) {m : String} (hm : .text m ∈ names) :
    isFileName m = true := by
  obtain ⟨goal, entry, -, hat, -, rfl⟩ := exists_of_list hlist
  exact hnames goal entry hat m hm

end Host

end LazyTree
