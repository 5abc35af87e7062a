import LazyTree.Backend.Table
import LazyTree.Proofs.NameOrder

set_option autoImplicit false

/-!
# Tables in order

A table is in order if it never fails, has no fixed spellings, lists files by valid names that are
different under its policy, gives each identity to one entry at most, and knows the directories that
it lists. All its answers are then read off the entries of one directory, and adding a new file or
removing one keeps it in order.

## Main definitions

* `LazyTree.TableEntry.content?` — what a complete entry tells about its file.
* `LazyTree.Table.entryAt`, `LazyTree.Table.contentAt` — the entry that has a name, and what it
  tells.
* `LazyTree.Table.Orderly` — a table in order.
* `LazyTree.Table.Admits` — a file may be added.

## Main results

* `LazyTree.Table.Orderly.answer_resolve`, `LazyTree.Table.Orderly.answer_attributes`,
  `LazyTree.Table.Orderly.answer_canonical`, `LazyTree.Table.Orderly.answer_list` — the answers.
* `LazyTree.Table.Orderly.add`, `LazyTree.Table.Orderly.remove` — changes that keep the order.
-/

namespace LazyTree

/-- The identity and the attributes of an entry that has both. -/
def TableEntry.content? (e : TableEntry) : Option (FileId × Attributes) :=
  e.id.bind fun id => e.attributes.map fun attributes => (id, attributes)

/-- An entry tells an identity and attributes exactly if it has them. -/
theorem TableEntry.content?_eq_some_iff {e : TableEntry} {id : FileId} {attributes : Attributes} :
    e.content? = some (id, attributes) ↔ e.id = some id ∧ e.attributes = some attributes := by
  unfold content?
  cases e.id <;> cases e.attributes <;> simp

namespace Table

/-- The first entry that has a name under a policy. -/
def entryAt (policy : CasePolicy) (es : List TableEntry) (name : String) : Option TableEntry :=
  es.find? (policy.same ·.name name)

/-- The identity and the attributes of the file that has a name under a policy. -/
def contentAt (policy : CasePolicy) (es : List TableEntry) (name : String) :
    Option (FileId × Attributes) :=
  (entryAt policy es name).bind TableEntry.content?

/-- The file that has a name is told by the identity and the attributes of its entry. -/
theorem contentAt_eq (policy : CasePolicy) (es : List TableEntry) (name : String) :
    contentAt policy es name = ((entryAt policy es name).bind TableEntry.id).bind fun id =>
      ((entryAt policy es name).bind TableEntry.attributes).map fun attributes =>
        (id, attributes) := by
  rw [contentAt]
  cases entryAt policy es name <;> rfl

/-- A table in order, below a root. -/
structure Orderly (b : Table) (root : FileId) : Prop where
  /-- No kind of question fails. -/
  failures : ∀ kind, (b.failures.lookup kind).join = none
  /-- No spelling is fixed. -/
  spellings : b.spellings = []
  /-- All names can be those of files. -/
  isFileName : ∀ d es, b.entries? d = some es → ∀ e ∈ es, LazyTree.isFileName e.name = true
  /-- No two entries of a directory have the same name. -/
  distinct : ∀ d es, b.entries? d = some es →
    es.Pairwise fun e e' => b.policy.key e.name ≠ b.policy.key e'.name
  /-- No two entries have the same identity. -/
  unique : ∀ d es d' es' e e' id, b.entries? d = some es → b.entries? d' = some es' → e ∈ es →
    e' ∈ es' → e.id = some id → e'.id = some id → d = d' ∧ e = e'
  /-- No entry has the identity of the root. -/
  ne_root : ∀ d es, b.entries? d = some es → ∀ e ∈ es, e.id ≠ some root
  /-- The root is known. -/
  root_known : (b.entries? root).isSome = true
  /-- Each directory that is listed is known. -/
  known : ∀ d es, b.entries? d = some es → ∀ e ∈ es, ∀ id attributes,
    e.content? = some (id, attributes) → attributes.directory = true → (b.entries? id).isSome = true

variable {policy : CasePolicy} {es : List TableEntry} {name : String} {e : TableEntry}

/-- A table that knows nothing but a root, with no directory in it, is in order if that one is. -/
theorem orderly_of_single {root : FileId} (hnames : ∀ e ∈ es, LazyTree.isFileName e.name = true)
    (hdistinct : es.Pairwise fun e e' => policy.key e.name ≠ policy.key e'.name)
    (hunique : ∀ e ∈ es, ∀ e' ∈ es, e.id.isSome = true → e.id = e'.id → e = e')
    (hroot : ∀ e ∈ es, e.id ≠ some root)
    (hfiles : ∀ e ∈ es, e.attributes.any Attributes.directory = false) :
    (Table.mk policy [(root, es)] [] []).Orderly root := by
  have hlookup : ∀ {d es'}, (Table.mk policy [(root, es)] [] []).entries? d = some es' →
      d = root ∧ es' = es := by
    intro d es' hes'
    unfold entries? at hes'
    rw [List.lookup_cons] at hes'
    split at hes'
    · next hd => exact ⟨beq_iff_eq.mp hd, (Option.some.inj hes').symm⟩
    · cases hes'
  refine ⟨fun _ => rfl, rfl, ?_, ?_, ?_, ?_, ?_, ?_⟩
  · rintro d es' hes' e he
    obtain ⟨-, rfl⟩ := hlookup hes'
    exact hnames e he
  · rintro d es' hes'
    obtain ⟨-, rfl⟩ := hlookup hes'
    exact hdistinct
  · rintro d es₁ d' es₂ e e' id hes₁ hes₂ he he' hid hid'
    obtain ⟨rfl, rfl⟩ := hlookup hes₁
    obtain ⟨rfl, rfl⟩ := hlookup hes₂
    exact ⟨rfl, hunique e he e' he' (by rw [hid]; rfl) (hid.trans hid'.symm)⟩
  · rintro d es' hes' e he
    obtain ⟨-, rfl⟩ := hlookup hes'
    exact hroot e he
  · unfold entries?
    rw [List.lookup_cons, beq_self_eq_true]
    rfl
  · rintro d es' hes' e he id attributes hcontent hdirectory
    obtain ⟨-, rfl⟩ := hlookup hes'
    have hfile := hfiles e he
    rw [(TableEntry.content?_eq_some_iff.mp hcontent).2, Option.any_some, hdirectory] at hfile
    cases hfile

/-! ### Entries and names -/

/-- The entry that has a name is listed and has the name. -/
theorem mem_of_entryAt (h : entryAt policy es name = some e) :
    e ∈ es ∧ policy.key e.name = policy.key name :=
  ⟨List.mem_of_find?_eq_some h, CasePolicy.same_iff.mp
    (List.find?_some (p := fun e : TableEntry => policy.same e.name name) h)⟩

/-- Names that are the same lead to the same entry. -/
theorem entryAt_congr {a c : String} (h : policy.key a = policy.key c) :
    entryAt policy es a = entryAt policy es c := by
  have hsame : ∀ e : TableEntry, policy.same e.name a = policy.same e.name c := by
    intro e
    rw [Bool.eq_iff_iff, CasePolicy.same_iff, CasePolicy.same_iff, h]
  simp only [entryAt, hsame]

/-- Where names are different, an entry is the one that has its name. -/
theorem entryAt_of_mem (h : es.Pairwise fun e e' => policy.key e.name ≠ policy.key e'.name)
    (he : e ∈ es) (hkey : policy.key e.name = policy.key name) :
    entryAt policy es name = some e := by
  induction es with
  | nil => cases he
  | cons first rest ih =>
    obtain ⟨hfirst, hrest⟩ := List.pairwise_cons.mp h
    rw [entryAt, List.find?_cons]
    rcases List.mem_cons.mp he with rfl | he
    · rw [CasePolicy.same_iff.mpr hkey]
    · rw [CasePolicy.same_eq_false_iff.mpr (hkey ▸ hfirst e he)]
      exact ih hrest he

/-- An entry that is appended has its own name, if no other has it. -/
theorem entryAt_append (h : ∀ e' ∈ es, policy.key e'.name ≠ policy.key e.name) (name : String) :
    entryAt policy (es ++ [e]) name =
      if policy.key name = policy.key e.name then some e else entryAt policy es name := by
  rw [entryAt, List.find?_append, ← entryAt]
  split
  · next hkey =>
    rw [entryAt_congr hkey]
    have hnone : entryAt policy es e.name = none := by
      refine Option.eq_none_iff_forall_ne_some.mpr fun e' he' => ?_
      obtain ⟨hmem, hkey'⟩ := mem_of_entryAt he'
      exact h e' hmem hkey'
    rw [hnone, Option.none_or, List.find?_cons, CasePolicy.same_iff.mpr hkey.symm]
  · next hkey =>
    rw [List.find?_cons, CasePolicy.same_eq_false_iff.mpr (Ne.symm hkey), List.find?_nil,
      Option.or_none]

/-- An entry that is removed leaves its name free, and all others as they are. -/
theorem entryAt_filter (h : es.Pairwise fun e e' => policy.key e.name ≠ policy.key e'.name)
    (he : e ∈ es) (name : String) :
    entryAt policy (es.filter (·.name ≠ e.name)) name =
      if policy.key name = policy.key e.name then none else entryAt policy es name := by
  have hfilter := h.sublist (List.filter_sublist (l := es) (p := (·.name ≠ e.name)))
  split
  · next hkey =>
    refine Option.eq_none_iff_forall_ne_some.mpr fun e' he' => ?_
    obtain ⟨hmem, hkey'⟩ := mem_of_entryAt he'
    obtain ⟨hmem, hne⟩ := List.mem_filter.mp hmem
    have hfirst := entryAt_of_mem h hmem (hkey'.trans hkey)
    rw [entryAt_of_mem h he rfl] at hfirst
    cases hfirst
    simp at hne
  · next hkey =>
    cases hold : entryAt policy es name with
    | some e' =>
      obtain ⟨hmem, hkey'⟩ := mem_of_entryAt hold
      refine entryAt_of_mem hfilter (List.mem_filter.mpr ⟨hmem, ?_⟩) hkey'
      refine decide_eq_true fun hname => hkey ?_
      rw [← hkey', hname]
    | none =>
      refine Option.eq_none_iff_forall_ne_some.mpr fun e' he' => ?_
      obtain ⟨hmem, hkey'⟩ := mem_of_entryAt he'
      rw [entryAt_of_mem h (List.mem_filter.mp hmem).1 hkey'] at hold
      cases hold

/-! ### Entries of changed tables -/

/-- Looking for a directory passes all others. -/
theorem lookup_cons_eq (dirs : List (FileId × List TableEntry)) (d d' : FileId)
    (es : List TableEntry) :
    ((d, es) :: dirs).lookup d' = if d' = d then some es else dirs.lookup d' := by
  rw [List.lookup_cons]
  by_cases h : d' = d
  · rw [if_pos h, beq_iff_eq.mpr h]
  · rw [if_neg h, beq_eq_false_iff_ne.mpr h]

section Entries

variable (b : Table) (d d' : FileId)

/-- Changing the entries of a directory changes those of no other. -/
theorem entries?_modifyEntries (f : List TableEntry → List TableEntry) :
    (b.modifyEntries d f).entries? d' =
      if d' = d then (b.entries? d).map f else b.entries? d' := by
  unfold entries? modifyEntries
  dsimp only
  induction b.directories with
  | nil => simp
  | cons dir dirs ih =>
    obtain ⟨id, es⟩ := dir
    rw [List.map_cons, lookup_cons_eq, lookup_cons_eq]
    by_cases hid : id = d
    · rw [if_pos hid, lookup_cons_eq, hid, ih]
      by_cases hd : d' = d <;> simp [hd]
    · rw [if_neg hid, lookup_cons_eq, ih]
      by_cases hd : d' = d
      · subst hd
        simp [Ne.symm hid]
      · simp [hd]

/-- Making a directory known changes the entries of no other. -/
theorem entries?_ensure : (b.ensure d).entries? d' =
    if d' = d ∧ b.entries? d = none then some [] else b.entries? d' := by
  unfold ensure
  cases hd : b.entries? d with
  | some es => simp
  | none =>
    have hlookup : (b.directories ++ [(d, [])]).lookup d' = _ := List.lookup_append
    unfold entries? at hd ⊢
    simp only [Option.isSome_none, Bool.false_eq_true, if_false, hlookup, lookup_cons_eq,
      List.lookup_nil, and_true]
    split
    · next h =>
      rw [h, hd]
      rfl
    · exact Option.or_none

/-- Adding an entry appends it to its directory, and makes the directory known that it may stand
for. -/
theorem entries?_add {es : List TableEntry} (hd : b.entries? d = some es) (e : TableEntry) :
    (b.add d e).entries? d' = (if d' = d then some (es ++ [e]) else b.entries? d').or
      (if e.id = some d' ∧ e.attributes.any Attributes.directory = true then some []
        else none) := by
  have hensure : b.ensure d = b := by
    unfold ensure
    rw [hd]
    rfl
  have hmodify : ∀ d'', ((b.ensure d).modifyEntries d (· ++ [e])).entries? d'' =
      if d'' = d then some (es ++ [e]) else b.entries? d'' := by
    intro d''
    rw [hensure, entries?_modifyEntries, hd]
    rfl
  unfold add
  dsimp only
  cases hid : e.id with
  | none => simp [hmodify]
  | some id =>
    dsimp only
    cases hdir : e.attributes.any Attributes.directory with
    | false => simp [hmodify]
    | true =>
      rw [if_pos rfl, entries?_ensure, hmodify, hmodify]
      by_cases hdd : d' = id
      · subst hdd
        cases (if d' = d then some (es ++ [e]) else b.entries? d') <;> simp
      · simp [hdd, Ne.symm hdd]

/-- Removing the entries of a name from a directory changes those of no other. -/
theorem entries?_remove (name : String) : (b.remove d name).entries? d' =
    if d' = d then (b.entries? d).map (·.filter (·.name ≠ name)) else b.entries? d' :=
  entries?_modifyEntries b d d' _

end Entries

/-! ### Answers -/

namespace Orderly

variable {b : Table} {root d : FileId} (h : b.Orderly root) (hd : b.entries? d = some es)
include h

/-- A table in order answers from its entries. -/
theorem answer_eq (q : Query) : b.answer q = b.decide q := by
  rw [answer, h.failures]

/-- The name of the file with an identity, if there is one. -/
theorem answer_nameOf (id : FileId) : b.answer (.nameOf id) = .ok (b.nameOf id) :=
  h.answer_eq _

include hd

/-- The identity of a name is that of its entry. -/
theorem answer_resolve (name : String) (policy : CasePolicy) :
    b.answer (.resolve d name policy) = .ok ((entryAt policy es name).bind TableEntry.id) := by
  rw [h.answer_eq, Table.decide, Table.find, hd]
  rfl

/-- The attributes of a name are those of its entry. -/
theorem answer_attributes (name : String) : b.answer (.attributes d name) =
    .ok ((entryAt b.policy es name).bind TableEntry.attributes) := by
  rw [h.answer_eq, Table.decide, Table.find, hd]
  rfl

/-- The spelling of a name is that of the first entry that has it but for case. -/
theorem answer_canonical (name : String) : b.answer (.canonical d name) =
    .ok (((entryAt .insensitive es name).map TableEntry.name).getD name) := by
  rw [h.answer_eq, Table.decide, h.spellings, List.lookup_nil, Table.find, hd]
  rfl

/-- The listing of a directory has a line for each entry with an identity. -/
theorem answer_list : b.answer (.list d) =
    .ok (es.filterMap fun e => e.id.map fun id => ⟨e.name, id⟩) := by
  rw [h.answer_eq, Table.decide, hd]

/-- An entry is the one that has its name. -/
theorem entryAt_of_mem {e : TableEntry} (he : e ∈ es) {name : String}
    (hkey : b.policy.key e.name = b.policy.key name) : entryAt b.policy es name = some e :=
  Table.entryAt_of_mem (h.distinct d es hd) he hkey

end Orderly

/-! ### Changes -/

/-- A new file may be added to a directory: its name can be that of a file and is not taken there,
and its identity is new. -/
structure Admits (b : Table) (root d : FileId) (name : String) (id : FileId) : Prop where
  /-- The name can be that of a file. -/
  isFileName : LazyTree.isFileName name = true
  /-- No entry has the name. -/
  free : ∀ es, b.entries? d = some es → ∀ e ∈ es, b.policy.key e.name ≠ b.policy.key name
  /-- No entry has the identity. -/
  fresh : ∀ d' es, b.entries? d' = some es → ∀ e ∈ es, e.id ≠ some id
  /-- Neither has the root. -/
  ne_root : id ≠ root

/-- A file may be added to a directory if no entry there has its name, and none of any directory has
its identity. -/
theorem admits_of_new {b : Table} {root d id : FileId} {name : String}
    (hname : LazyTree.isFileName name = true)
    (hnew : ∀ listed ∈ b.directories, ∀ e ∈ listed.2,
      (listed.1 = d → b.policy.key e.name ≠ b.policy.key name) ∧ e.id ≠ some id)
    (hroot : id ≠ root) : b.Admits root d name id := by
  have hentry : ∀ d' es, b.entries? d' = some es → ∀ e ∈ es,
      (d' = d → b.policy.key e.name ≠ b.policy.key name) ∧ e.id ≠ some id := by
    intro d' es hes
    obtain ⟨before, after, hlisted, -⟩ := List.lookup_eq_some_iff.mp hes
    exact hnew (d', es) (hlisted ▸ List.mem_append_right before List.mem_cons_self)
  exact ⟨hname, fun es hes e he => (hentry d es hes e he).1 rfl,
    fun d' es hes e he => (hentry d' es hes e he).2, hroot⟩

section Changes

variable {b : Table} {root d : FileId}

/-- Making a directory known changes nothing but the directories. -/
theorem ensure_frame (b : Table) (d : FileId) : (b.ensure d).policy = b.policy ∧
    (b.ensure d).failures = b.failures ∧ (b.ensure d).spellings = b.spellings := by
  unfold ensure
  split <;> exact ⟨rfl, rfl, rfl⟩

/-- Adding an entry changes nothing but the directories. -/
theorem add_frame (b : Table) (d : FileId) (e : TableEntry) : (b.add d e).policy = b.policy ∧
    (b.add d e).failures = b.failures ∧ (b.add d e).spellings = b.spellings := by
  obtain ⟨hpolicy, hfailures, hspellings⟩ := ensure_frame b d
  unfold add
  dsimp only
  split
  · split
    · next id _ _ =>
      obtain ⟨hpolicy', hfailures', hspellings'⟩ :=
        ensure_frame ((b.ensure d).modifyEntries d (· ++ [e])) id
      exact ⟨hpolicy'.trans hpolicy, hfailures'.trans hfailures, hspellings'.trans hspellings⟩
    · exact ⟨hpolicy, hfailures, hspellings⟩
  · exact ⟨hpolicy, hfailures, hspellings⟩

/-- What the directories list after an entry was added. -/
theorem entries?_add_cases (hd : b.entries? d = some es) {e : TableEntry} {d' : FileId}
    {es' : List TableEntry} (h : (b.add d e).entries? d' = some es') :
    (d' = d ∧ es' = es ++ [e]) ∨ (d' ≠ d ∧ (b.entries? d' = some es' ∨ es' = [])) := by
  rw [entries?_add b d d' hd] at h
  by_cases hdd : d' = d
  · rw [if_pos hdd, Option.some_or] at h
    exact .inl ⟨hdd, (Option.some.inj h).symm⟩
  · rw [if_neg hdd] at h
    refine .inr ⟨hdd, ?_⟩
    cases hold : b.entries? d' with
    | some es₀ =>
      rw [hold, Option.some_or] at h
      exact .inl h
    | none =>
      rw [hold, Option.none_or] at h
      split at h
      · exact .inr (Option.some.inj h).symm
      · cases h

/-- Each entry after an addition was there before, or is the one that was added. -/
theorem mem_entries?_add (hd : b.entries? d = some es) {e e' : TableEntry} {d' : FileId}
    {es' : List TableEntry} (h : (b.add d e).entries? d' = some es') (he' : e' ∈ es') :
    (d' = d ∧ e' = e) ∨ ∃ es₀, b.entries? d' = some es₀ ∧ e' ∈ es₀ := by
  rcases entries?_add_cases hd h with ⟨rfl, rfl⟩ | ⟨-, hold | rfl⟩
  · rcases List.mem_append.mp he' with he' | he'
    · exact .inr ⟨es, hd, he'⟩
    · exact .inl ⟨rfl, List.mem_singleton.mp he'⟩
  · exact .inr ⟨es', hold, he'⟩
  · cases he'

/-- A directory that is known stays known when an entry is added. -/
theorem isSome_entries?_add (hd : b.entries? d = some es) (e : TableEntry) {d' : FileId}
    (h : (b.entries? d').isSome = true) : ((b.add d e).entries? d').isSome = true := by
  rw [entries?_add b d d' hd]
  split
  · rfl
  · obtain ⟨es', hes'⟩ := Option.isSome_iff_exists.mp h
    rw [hes']
    rfl

/-- Adding a new file keeps a table in order. -/
theorem Orderly.add (h : b.Orderly root) (hd : b.entries? d = some es) {name : String} {id : FileId}
    (hadmits : b.Admits root d name id) (attributes : Attributes) :
    (b.add d ⟨name, some id, some attributes⟩).Orderly root where
  failures := by
    rw [(add_frame _ _ _).2.1]
    exact h.failures
  spellings := (add_frame _ _ _).2.2.trans h.spellings
  isFileName := by
    intro d' es' hes' e' he'
    rcases mem_entries?_add hd hes' he' with ⟨rfl, rfl⟩ | ⟨es₀, hes₀, he₀⟩
    · exact hadmits.isFileName
    · exact h.isFileName d' es₀ hes₀ e' he₀
  distinct := by
    intro d' es' hes'
    rw [(add_frame _ _ _).1]
    rcases entries?_add_cases hd hes' with ⟨rfl, rfl⟩ | ⟨-, hold | rfl⟩
    · refine List.pairwise_append.mpr ⟨h.distinct d' es hd, List.pairwise_singleton _ _, ?_⟩
      intro e' he' e'' he''
      rw [List.mem_singleton.mp he'']
      exact hadmits.free es hd e' he'
    · exact h.distinct d' es' hold
    · exact .nil
  unique := by
    intro d₁ es₁ d₂ es₂ e₁ e₂ id' h₁ h₂ he₁ he₂ hid₁ hid₂
    rcases mem_entries?_add hd h₁ he₁ with ⟨rfl, rfl⟩ | ⟨es₁', hold₁, hmem₁⟩ <;>
      rcases mem_entries?_add hd h₂ he₂ with ⟨rfl, rfl⟩ | ⟨es₂', hold₂, hmem₂⟩
    · exact ⟨rfl, rfl⟩
    · exact absurd (hid₂.trans hid₁.symm) (hadmits.fresh d₂ es₂' hold₂ e₂ hmem₂)
    · exact absurd (hid₁.trans hid₂.symm) (hadmits.fresh d₁ es₁' hold₁ e₁ hmem₁)
    · exact h.unique d₁ es₁' d₂ es₂' e₁ e₂ id' hold₁ hold₂ hmem₁ hmem₂ hid₁ hid₂
  ne_root := by
    intro d' es' hes' e' he'
    rcases mem_entries?_add hd hes' he' with ⟨rfl, rfl⟩ | ⟨es₀, hes₀, he₀⟩
    · exact fun hroot => hadmits.ne_root (Option.some.inj hroot)
    · exact h.ne_root d' es₀ hes₀ e' he₀
  root_known := isSome_entries?_add hd _ h.root_known
  known := by
    intro d' es' hes' e' he' id' attributes' hcontent hdirectory
    rcases mem_entries?_add hd hes' he' with ⟨rfl, rfl⟩ | ⟨es₀, hes₀, he₀⟩
    · obtain ⟨hid, hattributes⟩ := TableEntry.content?_eq_some_iff.mp hcontent
      cases hid
      cases hattributes
      rw [entries?_add b d' id hd]
      cases (if id = d' then some (es ++ [_]) else b.entries? id) with
      | some es' => rfl
      | none => simp [hdirectory]
    · exact isSome_entries?_add hd _
        (h.known d' es₀ hes₀ e' he₀ id' attributes' hcontent hdirectory)

/-- Removing the entries of a name keeps a table in order. -/
theorem Orderly.remove (h : b.Orderly root) (d : FileId) (name : String) :
    (b.remove d name).Orderly root := by
  have hmem : ∀ {d' es'}, (b.remove d name).entries? d' = some es' →
      ∃ es₀, b.entries? d' = some es₀ ∧ es'.Sublist es₀ := by
    intro d' es' hes'
    rw [entries?_remove] at hes'
    split at hes'
    · next hdd =>
      obtain ⟨es₀, hes₀, rfl⟩ := Option.map_eq_some_iff.mp hes'
      exact ⟨es₀, hdd ▸ hes₀, List.filter_sublist⟩
    · exact ⟨es', hes', List.Sublist.refl _⟩
  have hsome : ∀ {d'}, (b.entries? d').isSome = true →
      ((b.remove d name).entries? d').isSome = true := by
    intro d' hd'
    rw [entries?_remove]
    split
    · next hdd =>
      rw [Option.isSome_map, ← hdd]
      exact hd'
    · exact hd'
  refine ⟨h.failures, h.spellings, ?_, ?_, ?_, ?_, hsome h.root_known, ?_⟩
  · intro d' es' hes' e he
    obtain ⟨es₀, hes₀, hsub⟩ := hmem hes'
    exact h.isFileName d' es₀ hes₀ e (hsub.mem he)
  · intro d' es' hes'
    obtain ⟨es₀, hes₀, hsub⟩ := hmem hes'
    exact (h.distinct d' es₀ hes₀).sublist hsub
  · intro d₁ es₁ d₂ es₂ e₁ e₂ id h₁ h₂ he₁ he₂
    obtain ⟨es₁', h₁, hsub₁⟩ := hmem h₁
    obtain ⟨es₂', h₂, hsub₂⟩ := hmem h₂
    exact h.unique d₁ es₁' d₂ es₂' e₁ e₂ id h₁ h₂ (hsub₁.mem he₁) (hsub₂.mem he₂)
  · intro d' es' hes' e he
    obtain ⟨es₀, hes₀, hsub⟩ := hmem hes'
    exact h.ne_root d' es₀ hes₀ e (hsub.mem he)
  · intro d' es' hes' e he id attributes hcontent hdirectory
    obtain ⟨es₀, hes₀, hsub⟩ := hmem hes'
    exact hsome (h.known d' es₀ hes₀ e (hsub.mem he) id attributes hcontent hdirectory)

end Changes

end Table

end LazyTree
