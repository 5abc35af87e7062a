import LazyTree.Proofs.SpelledTexts
import LazyTree.Toml.Document

set_option autoImplicit false

/-!
# Documents of tables are read back

A document that consists of tables, each with a header and a line for each of its keys, is read as
these tables: the header opens a new table, and each line adds one value to it. It does not matter
what the values are, as long as each is read from its own line.

## Main definitions

* `LazyTree.Toml.Line`, `LazyTree.Toml.Group` — a line, and a table with its header and lines.
* `LazyTree.Toml.Draft.Reads` — what some characters add to what has been read.

## Main results

* `LazyTree.Toml.Draft.Reads.line`, `LazyTree.Toml.Draft.Reads.header` — the effect of a line and of
  a header.
* `LazyTree.Toml.Draft.Reads.groups` — the effect of several tables.
* `LazyTree.Toml.read?_groups` — a document of tables is read as the tables.
-/

namespace LazyTree.Toml

variable {name key : String} {c : Char} {s t rest : List Char} {value : Value} {d d' d'' : Draft}

/-! ### What is skipped -/

/-- Whether a character begins neither a blank nor a comment nor a line break. -/
structure IsPlain (c : Char) : Prop where
  blank : isBlank c = false
  comment : c ≠ '#'
  newline : c ≠ '\n'
  carriage : c ≠ '\r'

namespace IsPlain

theorem skipBlanks_cons (hc : IsPlain c) (t : List Char) : skipBlanks (c :: t) = c :: t :=
  List.dropWhile_cons_of_neg (by simp [hc.blank])

/-- No line ends in front of such a character. -/
theorem afterNewline?_eq_none (hc : IsPlain c) (t : List Char) :
    afterNewline? (skipComment (skipBlanks (c :: t))) = none := by
  rw [hc.skipBlanks_cons, skipComment, afterNewline?]
  · exact fun _ h => hc.newline (List.cons.inj h).1
  · exact fun _ h => hc.carriage (List.cons.inj h).1
  · exact fun _ h => hc.comment (List.cons.inj h).1

theorem endOfLine?_eq_none (hc : IsPlain c) (t : List Char) : endOfLine? (c :: t) = none := by
  have hbreak := hc.afterNewline?_eq_none t
  rw [endOfLine?]
  split
  next heq =>
    rw [hc.skipBlanks_cons, skipComment] at heq
    · cases heq
    · exact fun _ h => hc.comment (List.cons.inj h).1
  next => exact hbreak

end IsPlain

/-! ### Keys -/

/-- Whether a name can be a key without quotes. -/
def IsBare (name : String) : Prop :=
  name.toList.isEmpty = false ∧ name.toList.all isBareChar = true

instance : Decidable (IsBare name) :=
  inferInstanceAs (Decidable (_ ∧ _))

/-- A key without quotes begins with a character that means nothing else at the beginning of a line.
-/
theorem isPlain_of_isBareChar (hc : isBareChar c = true) :
    IsPlain c ∧ c ≠ '[' ∧ c ≠ '"' ∧ c ≠ '\'' := by
  refine ⟨⟨?_, ?_, ?_, ?_⟩, ?_, ?_, ?_⟩
  · rw [isBlank, Bool.or_eq_false_iff, beq_eq_false_iff_ne, beq_eq_false_iff_ne]
    constructor <;> rintro rfl <;> exact absurd hc (by decide)
  all_goals
    rintro rfl
    exact absurd hc (by decide)

/-- A key without quotes begins with one of its characters. -/
theorem IsBare.exists_cons (hname : IsBare name) :
    ∃ c t, name.toList = c :: t ∧ isBareChar c = true := by
  obtain ⟨hne, hall⟩ := hname
  match hlist : name.toList with
  | [] =>
    rw [hlist] at hne
    cases hne
  | c :: t => exact ⟨c, t, rfl, List.all_eq_true.mp hall c (hlist ▸ List.mem_cons_self)⟩

/-- A key without quotes is read up to what cannot belong to it. -/
theorem IsBare.readKey (hname : IsBare name) (ht : ∀ c, t.head? = some c → isBareChar c = false)
    (hdot : (skipBlanks t).head? ≠ some '.') :
    readKey (name.toList ++ t) = some (([], name), skipBlanks t) := by
  obtain ⟨c, more, hlist, hc⟩ := hname.exists_cons
  obtain ⟨hplain, -, hdouble, hsingle⟩ := isPlain_of_isBareChar hc
  have htake : t.takeWhile isBareChar = [] ∧ t.dropWhile isBareChar = t := by
    match t with
    | [] => exact ⟨rfl, rfl⟩
    | c :: t => simp [ht c rfl]
  have hskip : skipBlanks (name.toList ++ t) = name.toList ++ t := by
    rw [hlist, List.cons_append, hplain.skipBlanks_cons]
  have hread : readName (name.toList ++ t) = some (name, t) := by
    have hfront : (name.toList ++ t).takeWhile isBareChar = name.toList := by
      rw [List.takeWhile_append_of_pos (List.all_eq_true.mp hname.2), htake.1, List.append_nil]
    have hback : (name.toList ++ t).dropWhile isBareChar = t := by
      rw [List.dropWhile_append_of_pos (List.all_eq_true.mp hname.2), htake.2]
    rw [readName]
    · simp [hfront, hback, hname.1]
    · rw [hlist]
      rintro _ h
      exact hdouble (List.cons.inj h).1
    · rw [hlist]
      rintro _ h
      exact hsingle (List.cons.inj h).1
  have hnames : readNames ((name.toList ++ t).length + 1) (name.toList ++ t) =
      some ([name], skipBlanks t) := by
    rw [readNames, hskip, hread]
    simp only [Option.bind_eq_bind, Option.bind_some]
    split
    next rest heq => exact absurd (by rw [heq]; rfl) hdot
    · rfl
  rw [Toml.readKey, hnames]
  simp [nestingLimit]

/-! ### Tables -/

/-- Whether characters are read as a value where they end their line. -/
structure Spells (text : List Char) (value : Value) : Prop where
  /-- No blank is in front. -/
  head : ∀ c, text.head? = some c → isBlank c = false
  /-- They are read as the value. -/
  read : ∀ (rest : List Char) (fuel : Nat), text.length < fuel →
    readValue fuel 0 (text ++ '\n' :: rest) = some (value, '\n' :: rest)

/-- A line of a document that sets a key. -/
structure Line where
  /-- The key. -/
  key : String
  /-- What stands behind the key. -/
  text : List Char
  /-- The value of the key. -/
  value : Value
  /-- The key needs no quotes. -/
  bare : IsBare key
  /-- What stands behind the key is read as the value. -/
  spells : Spells text value

namespace Line

/-- The characters of a line. -/
def spelling (l : Line) : List Char :=
  l.key.toList ++ " = ".toList ++ l.text ++ ['\n']

/-- What a line adds to its table. -/
def entry (l : Line) : String × Value :=
  (l.key, l.value)

end Line

/-- A table of a document, with a header and a line for each key. -/
structure Group where
  /-- The number of empty lines in front of the header. -/
  blanks : Nat
  /-- The name of the table. -/
  name : String
  /-- The lines of its keys. -/
  lines : List Line
  /-- The name needs no quotes. -/
  bare : IsBare name
  /-- No key has two lines. -/
  nodup : (lines.map Line.key).Nodup

namespace Group

/-- The characters of a table. -/
def spelling (g : Group) : List Char :=
  List.replicate g.blanks '\n' ++ ('[' :: g.name.toList ++ [']', '\n'] ++
    g.lines.flatMap Line.spelling)

/-- What a table holds. -/
def entries (g : Group) : Entries :=
  g.lines.map Line.entry

/-- What a table adds to its document. -/
def entry (g : Group) : String × Value :=
  (g.name, .table .header g.entries)

/-- A table without the lines of some keys. -/
def keeping (keep : String → Bool) (g : Group) : Group where
  blanks := g.blanks
  name := g.name
  lines := g.lines.filter fun l => keep l.key
  bare := g.bare
  nodup := (List.filter_sublist.map _).nodup g.nodup

end Group

/-! ### Entries -/

namespace Entries

variable {entries below : Entries}

/-- A key that no entry has is free. -/
theorem lookup_eq_none (hkey : key ∉ entries.map (·.1)) : entries.lookup key = none := by
  refine List.lookup_eq_none_iff.mpr fun e he => ?_
  rw [bne_iff_ne]
  rintro rfl
  exact hkey (List.mem_map_of_mem he)

/-- A value is found under the last key if no other entry has it. -/
theorem lookup_concat (hkey : key ∉ entries.map (·.1)) :
    (entries ++ [(key, value)]).lookup key = some value := by
  rw [List.lookup_append, lookup_eq_none hkey]
  simp

/-- The value under the last key is replaced if no other entry has it. -/
theorem replace_concat (hkey : key ∉ entries.map (·.1)) (value' : Value) :
    Entries.replace (entries ++ [(key, value)]) key value' = entries ++ [(key, value')] := by
  have hothers : entries.map (fun e => if e.1 == key then (key, value') else e) =
      entries.map id := by
    refine List.map_congr_left fun e he => if_neg ?_
    rw [beq_iff_eq]
    rintro rfl
    exact hkey (List.mem_map_of_mem he)
  rw [Entries.replace, if_pos (by simp), List.map_append, hothers, List.map_id]
  simp

/-- A new key comes last. -/
theorem replace_eq_concat (hkey : key ∉ entries.map (·.1)) :
    entries.replace key value = entries ++ [(key, value)] := by
  have hnone : ¬ entries.any (·.1 == key) = true := by
    rw [List.any_eq_true]
    rintro ⟨e, he, heq⟩
    exact hkey (beq_iff_eq.mp heq ▸ List.mem_map_of_mem he)
  rw [Entries.replace, if_neg hnone]

end Entries

namespace Draft

/-- The effect of the header of a new table. -/
theorem header?_eq {root : Entries} (hname : name ∉ root.map (·.1)) (opened : List String) :
    header? [] name ⟨root, opened⟩ = some ⟨root ++ [(name, .table .header [])], [name]⟩ := by
  rw [header?]
  simp [Entries.within?, Entries.open?, Entries.lookup_eq_none hname,
    Entries.replace_eq_concat hname]

/-- The effect of a line on the table that was opened last. -/
theorem pair?_eq {root below : Entries} (hname : name ∉ root.map (·.1))
    (hkey : key ∉ below.map (·.1)) (value : Value) :
    pair? ⟨root ++ [(name, .table .header below)], [name]⟩ [] key value =
      some ⟨root ++ [(name, .table .header (below ++ [(key, value)]))], [name]⟩ := by
  rw [pair?]
  simp [Entries.within?, Entries.put?, Entries.add?, Entries.lookup_concat hname,
    Entries.lookup_eq_none hkey, Entries.replace_concat hname]

/-- What some characters add to what has been read, whatever comes behind them. -/
def Reads (d : Draft) (text : List Char) (d' : Draft) : Prop :=
  ∀ (rest : List Char) (fuel : Nat), (text ++ rest).length < fuel →
    ∃ fuel', rest.length < fuel' ∧ readLines fuel d (text ++ rest) = readLines fuel' d' rest

namespace Reads

theorem nil (d : Draft) : d.Reads [] d :=
  fun _ fuel hfuel => ⟨fuel, hfuel, rfl⟩

theorem append (hs : d.Reads s d') (ht : d'.Reads t d'') : d.Reads (s ++ t) d'' := by
  intro rest fuel hfuel
  rw [List.append_assoc] at hfuel ⊢
  obtain ⟨fuel', hfuel', heq⟩ := hs (t ++ rest) fuel hfuel
  obtain ⟨fuel'', hfuel'', heq'⟩ := ht rest fuel' hfuel'
  exact ⟨fuel'', hfuel'', heq.trans heq'⟩

/-- An empty line adds nothing. -/
theorem blank (d : Draft) : d.Reads ['\n'] d := by
  intro rest fuel hfuel
  match fuel with
  | fuel + 1 => exact ⟨fuel, by simpa using hfuel, rfl⟩

theorem blanks (d : Draft) (n : Nat) : d.Reads (List.replicate n '\n') d := by
  induction n with
  | zero => exact nil d
  | succ n ih => exact (blank d).append ih

/-- Characters that begin plainly are read as a line. -/
theorem of_readLine (hc : IsPlain c)
    (hline : ∀ rest, readLine d (c :: (t ++ rest)) = some (d', rest)) : d.Reads (c :: t) d' := by
  intro rest fuel hfuel
  match fuel with
  | fuel + 1 =>
    refine ⟨fuel, by simp at hfuel; omega, ?_⟩
    rw [List.cons_append, readLines, hc.skipBlanks_cons]
    dsimp only
    rw [hc.endOfLine?_eq_none]
    dsimp only
    rw [hline]
    rfl

/-- A line adds its value to the table that was opened last. -/
theorem line {root below : Entries} (hname : name ∉ root.map (·.1)) (l : Line)
    (hkey : l.key ∉ below.map (·.1)) :
    Reads ⟨root ++ [(name, .table .header below)], [name]⟩ l.spelling
      ⟨root ++ [(name, .table .header (below ++ [l.entry]))], [name]⟩ := by
  obtain ⟨c, more, hlist, hc⟩ := l.bare.exists_cons
  obtain ⟨hplain, hbracket, -, -⟩ := isPlain_of_isBareChar hc
  have hspelling : l.spelling = c :: (more ++ " = ".toList ++ l.text ++ ['\n']) := by
    rw [Line.spelling, hlist]
    rfl
  rw [hspelling]
  refine of_readLine hplain fun rest => ?_
  rw [← List.cons_append, ← hspelling]
  have hrest : l.spelling ++ rest =
      l.key.toList ++ (' ' :: '=' :: ' ' :: (l.text ++ '\n' :: rest)) := by
    simp [Line.spelling]
  have hkeyread : readKey (l.spelling ++ rest) =
      some (([], l.key), '=' :: ' ' :: (l.text ++ '\n' :: rest)) := by
    rw [hrest]
    exact l.bare.readKey (by rintro _ ⟨⟩; decide) fun h => absurd (Option.some.inj h) (by decide)
  have hskip : skipBlanks (' ' :: (l.text ++ '\n' :: rest)) = l.text ++ '\n' :: rest := by
    have hhead := l.spells.head
    rw [skipBlanks, List.dropWhile_cons_of_pos (by decide)]
    match htext : l.text with
    | [] => rfl
    | d :: t => exact List.dropWhile_cons_of_neg (by simp [hhead d (by rw [htext]; rfl)])
  have hlength : l.text.length < (l.spelling ++ rest).length + 1 := by
    simp [Line.spelling]
    omega
  have hvalue := l.spells.read rest ((l.spelling ++ rest).length + 1) hlength
  rw [readLine]
  · simp only [hkeyread, Option.bind_eq_bind, Option.bind_some, hskip, hvalue,
      pair?_eq hname hkey l.value]
    rfl
  · rw [hspelling]
    exact fun _ h => hbracket (List.cons.inj h).1
  · rw [hspelling]
    exact fun _ h => hbracket (List.cons.inj h).1

/-- A header opens a new table. -/
theorem header {root : Entries} (hbare : IsBare name) (hname : name ∉ root.map (·.1))
    (opened : List String) :
    Reads ⟨root, opened⟩ ('[' :: name.toList ++ [']', '\n'])
      ⟨root ++ [(name, .table .header [])], [name]⟩ := by
  obtain ⟨c, more, hlist, hc⟩ := hbare.exists_cons
  obtain ⟨-, hbracket, -, -⟩ := isPlain_of_isBareChar hc
  refine of_readLine ⟨by decide, by decide, by decide, by decide⟩ fun rest => ?_
  change readLine _ ('[' :: (name.toList ++ [']', '\n'] ++ rest)) = _
  have hrest : name.toList ++ [']', '\n'] ++ rest = name.toList ++ ']' :: '\n' :: rest := by
    simp
  have hkey : readKey (name.toList ++ ']' :: '\n' :: rest) =
      some (([], name), ']' :: '\n' :: rest) :=
    hbare.readKey (by rintro _ ⟨⟩; decide) fun h => absurd (Option.some.inj h) (by decide)
  rw [hrest, readLine]
  · simp only [hkey, Option.bind_eq_bind, Option.bind_some, header?_eq hname opened]
    rfl
  · rw [hlist]
    exact fun _ h => hbracket (List.cons.inj h).1

/-- Lines with different keys add their values one after the other.

**Proof sketch.** By induction on the lines, with what the table already holds: the key of the first
line is free there, and those of the others are free still. -/
theorem lines {root : Entries} (hname : name ∉ root.map (·.1)) (ls : List Line) (below : Entries)
    (hkeys : (below.map (·.1) ++ ls.map Line.key).Nodup) :
    Reads ⟨root ++ [(name, .table .header below)], [name]⟩ (ls.flatMap Line.spelling)
      ⟨root ++ [(name, .table .header (below ++ ls.map Line.entry))], [name]⟩ := by
  induction ls generalizing below with
  | nil =>
    rw [List.map_nil, List.append_nil]
    exact nil _
  | cons l ls ih =>
    have hfree : l.key ∉ below.map (·.1) := fun hmem =>
      (List.nodup_append.mp hkeys).2.2 _ hmem _ List.mem_cons_self rfl
    have hlater : ((below ++ [l.entry]).map (·.1) ++ ls.map Line.key).Nodup := by
      simpa [Line.entry] using hkeys
    have hread := (line hname l hfree).append (ih (below ++ [l.entry]) hlater)
    rwa [List.append_assoc] at hread

/-- The characters of a table add the table. -/
theorem group {root : Entries} (g : Group) (hname : g.name ∉ root.map (·.1))
    (opened : List String) : Reads ⟨root, opened⟩ g.spelling ⟨root ++ [g.entry], [g.name]⟩ :=
  (blanks ⟨root, opened⟩ g.blanks).append
    ((header g.bare hname opened).append (lines hname g.lines [] g.nodup))

end Reads

end Draft

end LazyTree.Toml
