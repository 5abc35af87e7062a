import LazyTree.Host.Basic

set_option autoImplicit false

/-!
# What a directory lists and what it holds

A host tells in two ways what is in a directory: it lists the names there, and it can be asked for
one name. The two agree, also where the path to the directory leads through links: a name is on the
list exactly if something is found under it, unless it is longer than the host allows. And where
something is found, all directories on the way to it are found too.

## Main definitions

* `LazyTree.Host.enter` — where a name leads from a place.

## Main results

* `LazyTree.Host.walkFrom_concat` — the last step of a path is a step from where the rest leads.
* `LazyTree.Host.lookAt_child`, `LazyTree.Host.mem_of_lookAt` — what is found under a name in a
  directory that can be listed.
* `LazyTree.Host.lookAt_concat_eq_ok_iff`, `LazyTree.Host.exists_list_of_lookAt` — under what names
  something is found.
* `LazyTree.Host.exists_lookAt_of_append` — what lies on the way to something is found.
-/

namespace LazyTree.Host

variable {h : Host} {n : FileName} {place goal : Location} {path : HostPath} {links : Nat}

/-- Where a name leads from a place, a link not followed. -/
def enter (h : Host) (place : Location) (n : FileName) : Except IoError Reached :=
  match h.at? place with
  | none => .error .notFound
  | some entry =>
    if !entry.isDirectory then .error .notADirectory
    else if nameLimit < n.size then .error .nameTooLong
    else if (entry.child? n).isSome then .ok (.taken (place ++ [n]))
    else .ok (.free place n)

/-- A name alone is one step. -/
theorem walkFrom_name (h : Host) (links : Nat) (place : Location) (n : FileName) :
    h.walkFrom false links place [.name n] = h.enter place n := by
  rw [walkFrom, enter]
  · cases h.at? place with
    | none => rfl
    | some entry =>
      dsimp only
      split
      · rfl
      · split
        · rfl
        · cases entry.child? n with
          | none => rfl
          | some child => cases child <;> simp [walkFrom]
  · rintro ⟨⟩

/-- A path with a name at its end leads where the name leads from the place to which the rest of it
leads, all links followed; it leads nowhere if the rest leads to nothing, and fails if the rest does.

**Proof sketch.** By induction on the walk along the rest. A link there is followed, as it is not the
last part of the longer path; and for the last part it does not matter how many links were met. -/
theorem walkFrom_concat (h : Host) (links : Nat) (place : Location) (path : HostPath)
    (n : FileName) :
    h.walkFrom false links place (path ++ [.name n]) =
      match h.walkFrom true links place path with
      | .ok (.taken goal) => h.enter goal n
      | .ok (.free _ _) => .error .notFound
      | .error e => .error e := by
  fun_induction walkFrom h true links place path with
  | case1 links => exact h.walkFrom_name links _ n
  | case2 links place rest ih =>
    rw [List.cons_append, walkFrom]
    exact ih
  | case13 place rest entry hat hdir m hsize target hchild _ links _ ih =>
    rw [List.cons_append, walkFrom, hat]
    · simpa [hdir, hsize, hchild] using ih
    · rintro ⟨⟩
  | case14 links place rest entry hat hdir m hsize child hlink hchild _ ih =>
    rw [List.cons_append, walkFrom, hat]
    · simpa [hdir, hsize, hchild] using ih
    · rintro ⟨⟩
  -- anywhere else the walk stays, goes up, or fails, with the name at the end as without it
  | _ => rw [List.cons_append, walkFrom] <;> simp_all

/-- What is at a place in a directory is what the directory holds under the name. -/
theorem at?_concat (h : Host) (place : Location) (n : FileName) :
    h.at? (place ++ [n]) = (h.at? place).bind (·.child? n) := by
  unfold at?
  induction place generalizing h with
  | nil =>
    have hbind : (some h.top).bind (·.child? n) = h.top.child? n := rfl
    rw [List.nil_append, Entry.at?, Entry.at?, hbind]
    cases h.top.child? n <;> rfl
  | cons m place ih =>
    simp only [List.cons_append, Entry.at?]
    cases h.top.child? m with
    | none => rfl
    | some child => exact ih { h with top := child }

/-- Where something is at the end of a path with all links followed, something is there also if a
link in the last part is not followed. -/
theorem exists_walkFrom_false {entry : Entry}
    (hwalk : h.walkFrom true links place path = .ok (.taken goal)) (hat : h.at? goal = some entry) :
    ∃ goal' entry', h.walkFrom false links place path = .ok (.taken goal') ∧
      h.at? goal' = some entry' := by
  fun_induction walkFrom h true links place path with
  | case1 links =>
    cases hwalk
    exact ⟨_, _, by rw [walkFrom], hat⟩
  | case13 place rest dir hdir hisDir m hsize target hchild _ links _ ih =>
    rw [walkFrom, hdir]
    · cases rest with
      | nil =>
        refine ⟨place ++ [m], .link target, by simp [hisDir, hsize, hchild], ?_⟩
        rw [at?_concat, hdir, Option.bind_some, hchild]
      | cons next rest => simpa [hisDir, hsize, hchild] using ih hwalk
    · rintro ⟨⟩
  | case14 links place rest dir hdir hisDir m hsize child hlink hchild _ ih =>
    rw [walkFrom, hdir]
    · simpa [hisDir, hsize, hchild] using ih hwalk
    · rintro ⟨⟩
  -- anywhere else the walk goes on in the same way, or fails
  | _ => rw [walkFrom] <;> simp_all

/-- A directory that can be listed is somewhere, and the names are those of its entries. -/
theorem exists_of_list {names : List FileName} (hlist : h.list path = .ok names) :
    ∃ goal entry, h.walk true path = .ok (.taken goal) ∧ h.at? goal = some entry ∧
      entry.isDirectory = true ∧ names = entry.entries.map (·.1) := by
  unfold list follow reach at hlist
  cases hwalk : h.walk true path with
  | error e =>
    rw [hwalk] at hlist
    cases hlist
  | ok reached =>
    rw [hwalk] at hlist
    cases reached with
    | free dir n => cases hlist
    | taken goal =>
      dsimp only at hlist
      cases hat : h.at? goal with
      | none =>
        rw [hat] at hlist
        cases hlist
      | some entry =>
        rw [hat] at hlist
        cases entry with
        | directory readOnly entries =>
          cases hlist
          exact ⟨goal, _, rfl, hat, rfl, rfl⟩
        | file readOnly contents => cases hlist
        | link target => cases hlist
        | socket readOnly => cases hlist

/-- A path without a byte zero leads where its parts lead from the place where it begins. -/
theorem walk_of_start? {through : Bool} (hnul : path.hasNul = false)
    (hstart : h.start? path = some place) :
    h.walk through path = h.walkFrom through linkLimit place path := by
  rw [walk, if_neg (by simp [hnul]), hstart]

/-- A path from the top, without a byte zero, leads where its parts lead. -/
theorem walk_eq_walkFrom {through : Bool} (hnul : path.hasNul = false)
    (habsolute : path.isAbsolute = true) :
    h.walk through path = h.walkFrom through linkLimit [] path := by
  refine walk_of_start? hnul ?_
  cases path with
  | nil => cases habsolute
  | cons part path =>
    obtain rfl : part = .top := by simpa [HostPath.isAbsolute] using habsolute
    rfl

/-- A path that leads somewhere does so by its parts, from the place where it begins. -/
theorem of_walk {through : Bool} {r : Reached} (hwalk : h.walk through path = .ok r) :
    path.hasNul = false ∧ ∃ place, h.start? path = some place ∧
      h.walkFrom through linkLimit place path = .ok r := by
  unfold walk at hwalk
  split at hwalk
  · cases hwalk
  · next hnul =>
    refine ⟨by simpa using hnul, ?_⟩
    cases hstart : h.start? path with
    | none =>
      rw [hstart] at hwalk
      cases hwalk
    | some place =>
      rw [hstart] at hwalk
      exact ⟨place, rfl, hwalk⟩

/-- A path that leads somewhere has parts. -/
theorem ne_nil_of_walk {through : Bool} {r : Reached} (hwalk : h.walk through path = .ok r) :
    path ≠ [] := by
  rintro rfl
  obtain ⟨-, place, hstart, -⟩ := of_walk hwalk
  cases hstart

/-- A path begins where it does without its last part, if it has others. -/
theorem start?_append (hpath : path ≠ []) (more : HostPath) :
    h.start? (path ++ more) = h.start? path := by
  cases path with
  | nil => exact absurd rfl hpath
  | cons part path => cases part <;> rfl

/-- A path with a name at its end leads where the name leads from the place to which the rest of it
leads, if there is a rest. -/
theorem walk_concat (hpath : path ≠ []) (hnul : n.hasNul = false) :
    h.walk false (path ++ [.name n]) =
      match h.walk true path with
      | .ok (.taken goal) => h.enter goal n
      | .ok (.free _ _) => .error .notFound
      | .error e => .error e := by
  have hboth : HostPath.hasNul (path ++ [.name n]) = HostPath.hasNul path := by
    simp [HostPath.hasNul, hnul]
  rw [walk, walk, hboth, start?_append hpath]
  cases HostPath.hasNul path with
  | true => rfl
  | false =>
    cases h.start? path with
    | none => rfl
    | some place => exact h.walkFrom_concat linkLimit place path n

/-- Nothing is found under a name that holds the byte zero. -/
theorem hasNul_of_lookAt_concat {entry : Entry}
    (hfound : h.lookAt (path ++ [.name n]) = .ok entry) : n.hasNul = false := by
  refine Bool.eq_false_iff.mpr fun hnul => ?_
  have hpath : HostPath.hasNul (path ++ [.name n]) = true := by simp [HostPath.hasNul, hnul]
  rw [lookAt, reach, walk, if_pos hpath] at hfound
  cases hfound

/-- What is at the end of a path is found. -/
theorem lookAt_of_walk {entry : Entry} (hwalk : h.walk false path = .ok (.taken goal))
    (hat : h.at? goal = some entry) : h.lookAt path = .ok entry := by
  rw [lookAt, reach, hwalk]
  dsimp only
  rw [hat]
  rfl

/-- What is found under a name in a directory is what the directory holds under it, if the name is not
too long. -/
theorem lookAt_append {entry : Entry} (hwalk : h.walk true path = .ok (.taken goal))
    (hat : h.at? goal = some entry) (hdir : entry.isDirectory = true) (hnul : n.hasNul = false) :
    h.lookAt (path ++ [.name n]) =
      if nameLimit < n.size then .error .nameTooLong
      else match entry.child? n with
        | some child => .ok child
        | none => .error .notFound := by
  have hgoal : h.at? (goal ++ [n]) = entry.child? n := by rw [at?_concat, hat, Option.bind_some]
  rw [lookAt, reach, walk_concat (ne_nil_of_walk hwalk) hnul, hwalk]
  dsimp only
  rw [enter, hat]
  dsimp only
  rw [hdir]
  by_cases hlong : nameLimit < n.size
  · simp [hlong, Except.map]
  · cases hchild : entry.child? n with
    | none => simp [hlong, Except.map]
    | some child => simp [hlong, hgoal, hchild, Except.map]

/-- What is found under a name in a directory that can be listed: nothing under a name that is too
long, and otherwise something exactly if the name is on the list. -/
theorem lookAt_child {names : List FileName} (hlist : h.list path = .ok names)
    (hnul : n.hasNul = false) :
    (nameLimit < n.size → h.lookAt (path ++ [.name n]) = .error .nameTooLong) ∧
      (n.size ≤ nameLimit →
        (n ∈ names → ∃ entry, h.lookAt (path ++ [.name n]) = .ok entry) ∧
        (n ∉ names → h.lookAt (path ++ [.name n]) = .error .notFound)) := by
  obtain ⟨goal, entry, hwalk, hat, hdir, rfl⟩ := exists_of_list hlist
  rw [lookAt_append hwalk hat hdir hnul]
  refine ⟨fun hlong => if_pos hlong, fun hsize => ?_⟩
  rw [if_neg (Nat.not_lt.mpr hsize)]
  unfold Entry.child?
  cases hfound : entry.entries.lookup n with
  | some child =>
    obtain ⟨front, back, hentries, -⟩ := List.lookup_eq_some_iff.mp hfound
    refine ⟨fun _ => ⟨child, rfl⟩, fun hnot => absurd ?_ hnot⟩
    rw [hentries]
    simp
  | none =>
    refine ⟨fun hmem => ?_, fun _ => rfl⟩
    obtain ⟨pair, hpair, rfl⟩ := List.mem_map.mp hmem
    simpa using List.lookup_eq_none_iff.mp hfound pair hpair

/-- What is found under a name in a directory that can be listed is on the list. -/
theorem mem_of_lookAt {names : List FileName} (hlist : h.list path = .ok names) {entry : Entry}
    (hfound : h.lookAt (path ++ [.name n]) = .ok entry) : n ∈ names := by
  obtain ⟨hlong, hshort⟩ := lookAt_child hlist (hasNul_of_lookAt_concat hfound)
  refine Classical.byContradiction fun hnot => ?_
  rcases Nat.lt_or_ge nameLimit n.size with hsize | hsize
  · rw [hlong hsize] at hfound
    cases hfound
  · rw [(hshort hsize).2 hnot] at hfound
    cases hfound

/-- Something is found under a name exactly in a directory that holds it there, if the name is one that
a file can have. -/
theorem lookAt_concat_eq_ok_iff {child : Entry} (hpath : path ≠ []) :
    h.lookAt (path ++ [.name n]) = .ok child ↔ n.hasNul = false ∧ n.size ≤ nameLimit ∧
      ∃ goal entry, h.walk true path = .ok (.taken goal) ∧ h.at? goal = some entry ∧
        entry.isDirectory = true ∧ entry.child? n = some child := by
  constructor
  · intro hfound
    have hnul := hasNul_of_lookAt_concat hfound
    have hreach := hfound
    rw [lookAt, reach, walk_concat hpath hnul] at hreach
    cases hwalk : h.walk true path with
    | error e => simp [hwalk, Except.map] at hreach
    | ok reached =>
      cases reached with
      | free dir m => simp [hwalk, Except.map] at hreach
      | taken goal =>
        rw [hwalk] at hreach
        dsimp only at hreach
        cases hat : h.at? goal with
        | none => simp [enter, hat, Except.map] at hreach
        | some entry =>
          cases hdir : entry.isDirectory with
          | false => simp [enter, hat, hdir, Except.map] at hreach
          | true =>
            rw [lookAt_append hwalk hat hdir hnul] at hfound
            split at hfound
            · cases hfound
            · next hsize =>
              refine ⟨hnul, Nat.not_lt.mp hsize, goal, entry, rfl, hat, hdir, ?_⟩
              cases hchild : entry.child? n with
              | none =>
                rw [hchild] at hfound
                cases hfound
              | some found =>
                rw [hchild] at hfound
                cases hfound
                rfl
  · rintro ⟨hnul, hsize, goal, entry, hwalk, hat, hdir, hchild⟩
    rw [lookAt_append hwalk hat hdir hnul, if_neg (Nat.not_lt.mpr hsize), hchild]

/-- What is found under a name is in a directory that can be listed, and the name is on the list. -/
theorem exists_list_of_lookAt {child : Entry} (hpath : path ≠ [])
    (hfound : h.lookAt (path ++ [.name n]) = .ok child) :
    ∃ names, h.list path = .ok names ∧ n ∈ names := by
  obtain ⟨-, -, goal, entry, hwalk, hat, hdir, hchild⟩ := (lookAt_concat_eq_ok_iff hpath).mp hfound
  cases entry with
  | directory readOnly entries =>
    refine ⟨entries.map (·.1), ?_, ?_⟩
    · rw [list, follow, reach, hwalk]
      dsimp only
      rw [hat]
      rfl
    · obtain ⟨front, back, hentries, -⟩ := List.lookup_eq_some_iff.mp hchild
      have hmem : (n, child) ∈ entries := by
        rw [show entries = front ++ (n, child) :: back from hentries]
        simp
      exact List.mem_map_of_mem hmem
  | file readOnly contents => cases hdir
  | link target => cases hdir
  | socket readOnly => cases hdir

/-- Where something is found in a directory, the directory is found. -/
theorem exists_lookAt_of_concat {child : Entry} (hpath : path ≠ [])
    (hfound : h.lookAt (path ++ [.name n]) = .ok child) : ∃ entry, h.lookAt path = .ok entry := by
  obtain ⟨-, -, goal, dir, hwalk, hat, -⟩ := (lookAt_concat_eq_ok_iff hpath).mp hfound
  obtain ⟨hnul, place, hstart, hfrom⟩ := of_walk hwalk
  obtain ⟨goal', entry, hfrom', hat'⟩ := exists_walkFrom_false hfrom hat
  exact ⟨entry, lookAt_of_walk ((walk_of_start? hnul hstart).trans hfrom') hat'⟩

/-- Where something is found below a directory, the directory is found. -/
theorem exists_lookAt_of_append {entry : Entry} {more : List FileName} (hpath : path ≠ [])
    (hfound : h.lookAt (path ++ more.map .name) = .ok entry) :
    ∃ entry', h.lookAt path = .ok entry' := by
  induction more generalizing path with
  | nil => exact ⟨entry, by simpa using hfound⟩
  | cons m more ih =>
    rw [List.map_cons, List.append_cons] at hfound
    obtain ⟨child, hchild⟩ := ih (by simp) hfound
    exact exists_lookAt_of_concat hpath hchild

end LazyTree.Host
