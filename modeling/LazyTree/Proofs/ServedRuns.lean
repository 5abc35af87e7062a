import Mathlib
import LazyTree.Proofs.AllowedPlaces
import LazyTree.Proofs.Runs
import LazyTree.Session.Disk

set_option autoImplicit false

/-!
# Runs that a backend over a directory serves

While a run is served the backend hands out identities, and nothing else of it changes. So each answer
is that of the backend with some of the identities that it has in the end. Seen from the end, a run
meets one backend, whatever it has handed out at the moment of a question; what holds at the end of all
runs that meet such answers holds at the end of the served run.

What is known of a run may depend on what the tree is like whenever it asks. An invariant that holds
at each question can be told apart from what follows from it.

## Main definitions

* `LazyTree.Run.Upholds` — what holds at each question of a run, and what holds at its end.
* `LazyTree.Disk.Grows` — a backend has handed out identities.
* `LazyTree.Disk.told` — what a backend may tell a run, seen from the end.

## Main results

* `LazyTree.Run.Upholds.and_always` — what follows if an invariant holds at each question.
* `LazyTree.Disk.Grows.serve` — serving a run hands out identities.
* `LazyTree.Disk.told_of_mem_exchanges` — what a backend does tell a run.
* `LazyTree.Disk.of_always_told` — what holds at the end of a served run.
-/

namespace LazyTree

/-! ### What holds at the questions of a run -/

namespace Run

variable {α β : Type} {w w' : World} {inv : Tree → Prop}
  {post post' : Except TreeError α → Tree → Prop}

/-- An invariant of trees holds at each question of a run, and something holds at its end, whatever
happens in a world. -/
def Upholds (w : World) (inv : Tree → Prop) (post : Except TreeError α → Tree → Prop) : Run α → Prop
  | done result t => post result t
  | ask q t resume =>
    inv t ∧ ∀ reply t', w q t reply t' → (resume reply t').Upholds w inv post

/-- More may hold at the end than what is asked for. -/
theorem Upholds.mono {run : Run α} (h : run.Upholds w inv post)
    (hpost : ∀ result t, post result t → post' result t) : run.Upholds w inv post' := by
  induction run with
  | done result t => exact hpost result t h
  | ask q t resume ih => exact ⟨h.1, fun reply t' hw => ih reply t' (h.2 reply t' hw)⟩

/-- What holds at the end does so whatever is known of the questions. -/
theorem Upholds.always {run : Run α} (h : run.Upholds w inv post) : run.Always w post := by
  induction run with
  | done result t => exact h
  | ask q t resume ih => exact fun reply t' hw => ih reply t' (h.2 reply t' hw)

/-- If what happens at a tree with the invariant is possible in another world, then what always holds at
the end there holds as well. -/
theorem Upholds.and_always {run : Run α} (h : run.Upholds w inv post) (h' : run.Always w' post')
    (hw : ∀ q t reply t', inv t → w q t reply t' → w' q t reply t') :
    run.Upholds w inv fun result t => post result t ∧ post' result t := by
  induction run with
  | done result t => exact ⟨h, h'⟩
  | ask q t resume ih =>
    exact ⟨h.1, fun reply t' hreply =>
      ih reply t' (h.2 reply t' hreply) (h' reply t' (hw q t reply t' h.1 hreply))⟩

/-- Two runs, one after the other. -/
theorem Upholds.bind {run : Run α} {next : α → Tree → Run β}
    {post' : Except TreeError β → Tree → Prop} (h : run.Upholds w inv post)
    (hok : ∀ a t, post (.ok a) t → (next a t).Upholds w inv post')
    (herror : ∀ e t, post (.error e) t → post' (.error e) t) :
    (run.bind next).Upholds w inv post' := by
  induction run with
  | done result t =>
    cases result with
    | ok a => exact hok a t h
    | error e => exact herror e t h
  | ask q t resume ih => exact ⟨h.1, fun reply t' hw => ih reply t' (h.2 reply t' hw)⟩

/-- A run whose last tree is changed. -/
theorem Upholds.settle {run : Run α} {f : Tree → Tree}
    (h : run.Upholds w inv fun result t => post result (f t)) :
    (run.settle f).Upholds w inv post := by
  induction run with
  | done result t => exact h
  | ask q t resume ih => exact ⟨h.1, fun reply t' hw => ih reply t' (h.2 reply t' hw)⟩

end Run

namespace Disk

/-- One backend has become another by handing out identities, which are numbered. -/
structure Grows (d d' : Disk) : Prop where
  /-- Nothing else has changed. -/
  same : d' = { d with places := d'.places }
  /-- The identities are numbered. -/
  numbered : d'.places.Numbered
  /-- Those that were handed out stay. -/
  keeps : d.places.ids <:+ d'.places.ids

namespace Grows

variable {d d' d'' : Disk} {h : Host}

/-- A backend may have handed out nothing. -/
theorem refl (hd : d.places.Numbered) : d.Grows d :=
  ⟨rfl, hd, List.suffix_rfl⟩

/-- Identities may be handed out after others. -/
theorem trans (hfirst : d.Grows d') (hlater : d'.Grows d'') : d.Grows d'' where
  same := by
    rw [hlater.same, hfirst.same]
  numbered := hlater.numbered
  keeps := hfirst.keeps.trans hlater.keeps

/-- What is asked of a backend makes it hand out identities. -/
theorem call (hd : d.places.Numbered) (h : Host) (c : Call) : d.Grows (d.call h c).2 :=
  have htells := tells_call hd h c
  ⟨d.call_places h c, htells.numbered, htells.keeps⟩

/-- So does a question. -/
theorem answer (hd : d.places.Numbered) (h : Host) (q : Query) : d.Grows (d.answer h q).2 :=
  call hd h (.ask q)

/-- So does a run that it serves. -/
theorem serve {α : Type} (hd : d.places.Numbered) (h : Host) (run : Run α) :
    d.Grows (run.serve (DiskSession.serve h) d).2.2 := by
  induction run generalizing d with
  | done result t => exact .refl hd
  | ask q t resume ih =>
    have hfirst := answer hd h q
    exact hfirst.trans (ih _ _ hfirst.numbered)

/-- So does the demand for one identity. -/
theorem require (hd : d.places.Numbered) (place : Below) : d.Grows (d.require place).2 :=
  ⟨rfl, Places.Numbered.require hd place, d.places.ids_suffix_require place⟩

/-- A place keeps its identity. -/
theorem pathOf? (hgrows : d.Grows d') (hd : d.places.Numbered) {id : FileId} {place : Below}
    (hknown : d.places.pathOf? id = some place) : d'.places.pathOf? id = some place :=
  hgrows.numbered.pathOf?_eq_some_iff.mpr
    (hgrows.keeps.subset (hd.pathOf?_eq_some_iff.mp hknown))

end Grows

/-- What a backend may tell a run, if in the end it has some identities. The tree stays as it is; the
answer is what the backend answers with identities that it has by then; and those that the answer hands
out are among those in the end. -/
def told (d : Disk) (h : Host) (p : Places) : World := fun q t reply t' =>
  t' = t ∧ ∃ now : Disk, d.Grows now ∧ reply = (now.answer h q).1 ∧
    (now.answer h q).2.places.ids <:+ p.ids

/-- Whatever a backend tells a run that it serves is among the things that it may tell. -/
theorem told_of_mem_exchanges {α : Type} {d now : Disk} (hgrows : d.Grows now) (h : Host)
    (run : Run α) : ∀ x ∈ run.exchanges (DiskSession.serve h) now,
      d.told h (run.serve (DiskSession.serve h) now).2.2.places x.query x.asked x.reply
        x.resumed := by
  induction run generalizing now with
  | done result t => exact fun _ hx => nomatch hx
  | ask q t resume ih =>
    have hanswer := Grows.answer hgrows.numbered h q
    have hrest := Grows.serve hanswer.numbered h (resume (now.answer h q).1 t)
    exact List.forall_mem_cons.mpr
      ⟨⟨rfl, now, hgrows, rfl, hrest.keeps⟩, ih _ _ (hgrows.trans hanswer)⟩

/-- What holds at the end of all runs to which a backend tells what it may tell, whatever identities it
has in the end, holds at the end of the run that it serves. -/
theorem of_always_told {α : Type} {d : Disk} (hd : d.places.Numbered) {h : Host} {run : Run α}
    {post : Disk → Except TreeError α → Tree → Prop}
    (hrun : ∀ d', d.Grows d' → run.Always (d.told h d'.places) (post d')) :
    post (run.serve (DiskSession.serve h) d).2.2 (run.serve (DiskSession.serve h) d).1
      (run.serve (DiskSession.serve h) d).2.1 :=
  (Run.took_serve (DiskSession.serve h) run d).always (hrun _ (.serve hd h run))
    (told_of_mem_exchanges (.refl hd) h run)

/-! ### Single answers -/

variable {d : Disk} {h : Host} {p : Places} {dir id : FileId} {name : String} {t t' : Tree}

/-- An operation that begins with a question goes on from the same tree, with an answer that the backend
may tell. -/
theorem upholds_told_ask {β : Type} {q : Query} {f : q.Reply → TreeM β} {inv : Tree → Prop}
    {post : Except TreeError β → Tree → Prop} (hinv : inv t) (herror : ∀ e, post (.error e) t)
    (hok : ∀ reply, d.told h p q t (.ok reply) t →
      ((f reply).run t).Upholds (d.told h p) inv post) :
    ((TreeM.ask q >>= f).run t).Upholds (d.told h p) inv post := by
  refine ⟨hinv, fun reply t' htold => ?_⟩
  obtain rfl := htold.1
  cases reply with
  | ok reply => exact hok reply htold
  | error e => exact herror _

/-- The identity that is answered for a place is that of the place. -/
theorem pathOf?_of_require {place : Below} {now : Disk} (hd : d.places.Numbered)
    (hrequire : d.require place = (.ok id, now)) : now.places.pathOf? id = some place := by
  have hnumbered := Places.Numbered.require hd place
  unfold Disk.require at hrequire
  cases hplaces : d.places.require place with
  | mk result p =>
    rw [hplaces] at hrequire hnumbered
    cases hrequire
    exact hnumbered.pathOf?_eq_some_iff.mpr (hd.mem_of_require hplaces)

/-- The identity that is answered for a name is that of the place that is located under it. -/
theorem answer_resolve_eq_some {policy : CasePolicy} (hd : d.places.Numbered)
    (hreply : (d.answer h (.resolve dir name policy)).1 = .ok (some id)) :
    ∃ found, d.locate h dir name policy = .ok (some found) ∧
      (found.1, id) ∈ (d.answer h (.resolve dir name policy)).2.places.ids := by
  revert hreply
  simp only [answer]
  cases hlocate : d.locate h dir name policy with
  | error e => rintro ⟨⟩
  | ok found =>
    cases found with
    | none => rintro ⟨⟩
    | some found =>
      simp only [require]
      cases hrequire : d.places.require found.1 with
      | mk result now =>
        cases result with
        | error e => rintro ⟨⟩
        | ok id' =>
          rintro ⟨⟩
          exact ⟨found, rfl, hd.mem_of_require hrequire⟩

/-- A backend that tells the identity of a name in a directory knows the directory; it has found
something there, under the name or its spelling, that may be shown, and the identity is that of this
place. -/
theorem told_resolve {policy : CasePolicy} (hp : p.Numbered)
    (htold : d.told h p (.resolve dir name policy) t (.ok (some id)) t') :
    isComponent name = true ∧ ∃ place m entry, p.pathOf? dir = some place ∧
      (policy = .sensitive → m = name) ∧
      (policy = .insensitive → d.spelling? h place name = .ok (some m)) ∧
      h.lookAt (d.path (place ++ [m])) = .ok entry ∧ d.allows (place ++ [m]) = true ∧
      p.pathOf? id = some (place ++ [m]) := by
  obtain ⟨-, now, hgrows, hreply, hkeeps⟩ := htold
  obtain ⟨found, hlocate, hid⟩ := answer_resolve_eq_some hgrows.numbered hreply.symm
  obtain ⟨hname, place, m, hparent, hsensitive, hinsensitive, heq, hlook, hallows⟩ :=
    locate_eq_some hlocate
  have hdir := mem_ids_of_parent hgrows.numbered hparent
  have hanswer := Grows.answer hgrows.numbered h (.resolve dir name policy)
  rw [hgrows.same] at hinsensitive hlook hallows
  rw [heq] at hid
  exact ⟨hname, place, m, found.2,
    hp.pathOf?_eq_some_iff.mpr (hkeeps.subset (hanswer.keeps.subset hdir)), hsensitive, hinsensitive,
    hlook, hallows, hp.pathOf?_eq_some_iff.mpr (hkeeps.subset hid)⟩

end Disk

end LazyTree
