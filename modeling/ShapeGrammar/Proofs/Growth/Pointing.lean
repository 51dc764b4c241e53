import ShapeGrammar.Proofs.Growth.Previews
import ShapeGrammar.Proofs.Plane.EvenOdd
import ShapeGrammar.Proofs.Shape.Identity

/-!
# Pointing at what is to be added

Who points at a proposal means one of the shapes that it would add.  These are inserted one after
the other, and of several with one key only the first gets in.  So the polygon that is added in the
end need not be the shape that was pointed at, but it has the same key.

That is enough.  The shapes of a proposal are on the grid, and what is on the grid stays where it is
when it is moved there (`snap_snap`).  So shapes of a proposal that have one key are rotations of
each other (`Shape.isRotated_of_key_placed_eq`), and the same points lie inside of them
(`Outline.contains_of_isRotated`).
-/

namespace ShapeGrammar

namespace Growth

variable {g : Growth} {c : Proposal} {p : Point}

/-! ### What is picked -/

/-- The pick is the first proposal of a new search that would add something at the point. -/
lemma picked_eq_find? (g : Growth) (p : Point) :
    g.picked p = (g.search .exhaustive g.limit).1.find? fun c => c.covers p.x p.y :=
  List.find?_eq_bind_findIdx?_getElem?.symm

/-- What is reported is the application of what is picked. -/
lemma applyAt_fst (hidle : g.isRunning = false) (p : Point) :
    (g.applyAt p).1 = (g.picked p).map fun c => (g.apply c).1 := by
  rw [applyAt_eq (Bool.not_eq_true _ ▸ hidle)]
  cases g.picked p <;> rfl

/-- Without a pick nothing changes but the previews. -/
lemma applyAt_snd_of_picked_eq_none (hidle : g.isRunning = false) (h : g.picked p = none) :
    (g.applyAt p).2 = { g with proposals := (g.search .exhaustive g.limit).1 } := by
  rw [applyAt_eq (Bool.not_eq_true _ ▸ hidle), h, ← g.refresh_eq]

/-- With a pick, the store is the one after its application. -/
lemma store_applyAt_of_picked (hidle : g.isRunning = false) (h : g.picked p = some c) :
    (g.applyAt p).2.store = (g.apply c).2.store := by
  rw [applyAt_eq (Bool.not_eq_true _ ▸ hidle), h]
  rfl

/-! ### What becomes of a shape that is pointed at -/

/-- Applying a proposal of the store as it is adds, for every shape of the proposal, a polygon of its
key, which is a rotation of it. -/
lemma exists_rotations_apply {production : Production} {anchor : Polygon}
    (hc : Search.propose g.store g.region.admits production anchor = some c) :
    ∃ added, g.store.Extends added (g.apply c).2.store ∧
      (g.apply c).1 = ⟨c.production.id, c.foundIds, added.map Polygon.id⟩ ∧
      ∀ s ∈ c.additions, ∃ q ∈ added, q.key = s.key ∧ q.shape.vertices ~r s.vertices := by
  obtain ⟨added, hext, hreport, hshapes⟩ := exists_firstOfEachKey_apply hc
  refine ⟨added, hext, hreport, fun s hs => ?_⟩
  obtain ⟨q, hq, hmem, hkey⟩ := hext.exists_key_eq hshapes hs
  obtain ⟨-, -, r, -, himage⟩ := Search.of_mem_additions hc hs
  obtain ⟨-, -, r', -, himage'⟩ := Search.of_mem_additions hc hmem
  have hsame : q.shape.key = s.key := (hext.key_eq q hq).symm.trans hkey
  rw [himage, himage'] at hsame
  refine ⟨q, hq, hkey, ?_⟩
  rw [himage, himage']
  exact Shape.isRotated_of_key_placed_eq hsame

/-- Point anywhere while the growth does not run.  If an application is reported, it is that of the
first proposal of a new search that would add something at the point; the store gains the polygons
whose numbers are reported, and the point lies in one of them.  More than that, for every shape of
the proposal that contains the point there is one of its key, a rotation of it, that contains the
point.  If nothing is reported, then nothing that the search found would add anything at the point,
and all that has changed is the list of previews: the store and its counter, the phase, the count of
ticks and the generator are as they were. -/
theorem pick_adds_what_was_pointed_at (hidle : g.isRunning = false) (p : Point) :
    (∀ report, (g.applyAt p).1 = some report →
      ∃ c added,
        (g.search .exhaustive g.limit).1.find? (fun c => c.covers p.x p.y) = some c ∧
        report = ⟨c.production.id, c.foundIds, added.map Polygon.id⟩ ∧
        g.store.Extends added (g.applyAt p).2.store ∧
        (∃ q ∈ added, q.shape.contains p.x p.y = true) ∧
        ∀ s ∈ c.additions, s.contains p.x p.y = true →
          ∃ q ∈ added, q.key = s.key ∧ q.shape.vertices ~r s.vertices ∧
            q.shape.contains p.x p.y = true) ∧
    ((g.applyAt p).1 = none →
      (∀ c ∈ (g.search .exhaustive g.limit).1, c.covers p.x p.y = false) ∧
        (g.applyAt p).2 = { g with proposals := (g.search .exhaustive g.limit).1 }) := by
  rw [applyAt_fst hidle]
  constructor
  · intro report hreport
    obtain ⟨c, hpicked, rfl⟩ := Option.map_eq_some_iff.mp hreport
    have hfirst := (g.picked_eq_find? p).symm.trans hpicked
    obtain ⟨production, -, anchor, -, hpropose⟩ :=
      exists_propose_of_mem_search (List.mem_of_find?_eq_some hfirst)
    obtain ⟨added, hext, hreport, hrotations⟩ := exists_rotations_apply hpropose
    have hadded : ∀ s ∈ c.additions, s.contains p.x p.y = true →
        ∃ q ∈ added, q.key = s.key ∧ q.shape.vertices ~r s.vertices ∧
          q.shape.contains p.x p.y = true := by
      intro s hs hinside
      obtain ⟨q, hq, hkey, hrot⟩ := hrotations s hs
      have hsame : q.shape.contains p.x p.y = s.contains p.x p.y :=
        Outline.contains_of_isRotated hrot p.x p.y
      exact ⟨q, hq, hkey, hrot, hsame.trans hinside⟩
    have hcovers : c.covers p.x p.y = true := (List.find?_eq_some_iff_append.mp hfirst).1
    obtain ⟨s, hs, hinside⟩ := List.any_eq_true.mp hcovers
    obtain ⟨q, hq, -, -, hcontains⟩ := hadded s hs hinside
    rw [store_applyAt_of_picked hidle hpicked]
    exact ⟨c, added, hfirst, hreport, hext, ⟨q, hq, hcontains⟩, hadded⟩
  · intro hnone
    have hpicked : g.picked p = none := Option.map_eq_none_iff.mp hnone
    refine ⟨fun c hc => ?_, applyAt_snd_of_picked_eq_none hidle hpicked⟩
    rw [picked_eq_find?, List.find?_eq_none] at hpicked
    exact Bool.eq_false_of_not_eq_true (hpicked c hc)

/-! ### A square that is proposed twice -/

/-- A square, and a production that would add the square to its right twice, starting at opposite
corners. -/
def twiceBeside : Growth :=
  (new (.canvas 4 4) [⟨1, [square 0 0 1], [square 1 0 1, (square 1 0 1).rotate 2]⟩] 0 none).after
    [.plant (square 0 0 1)]

theorem pick_on_twiceBeside :
    twiceBeside.Reachable ∧
    ((twiceBeside.search .exhaustive twiceBeside.limit).1.map fun c =>
      c.additions.map fun s => s.contains 1.5 0.5) = [[true, true]] ∧
    (twiceBeside.applyAt ⟨1.5, 0.5⟩).1 = some ⟨1, [1], [2]⟩ ∧
    (∃ added, added.map Polygon.id = [2] ∧
      twiceBeside.store.Extends added (twiceBeside.applyAt ⟨1.5, 0.5⟩).2.store ∧
      ∃ q ∈ added, q.shape.contains 1.5 0.5 = true) ∧
    (twiceBeside.applyAt ⟨2.5, 0.5⟩).1 = none ∧
    (twiceBeside.applyAt ⟨2.5, 0.5⟩).2.store = twiceBeside.store := by
  have hidle : twiceBeside.isRunning = false := by decide +kernel
  have hproposals : ((twiceBeside.search .exhaustive twiceBeside.limit).1.map fun c =>
      c.additions.map fun s => s.contains 1.5 0.5) = [[true, true]] := by
    decide +kernel
  have hsome : (twiceBeside.applyAt ⟨1.5, 0.5⟩).1 = some ⟨1, [1], [2]⟩ := by decide +kernel
  have hnone : (twiceBeside.applyAt ⟨2.5, 0.5⟩).1 = none := by decide +kernel
  obtain ⟨c, added, -, hreport, hext, hinside, -⟩ :=
    (pick_adds_what_was_pointed_at hidle ⟨1.5, 0.5⟩).1 _ hsome
  have hnothing := (pick_adds_what_was_pointed_at hidle ⟨2.5, 0.5⟩).2 hnone
  refine ⟨⟨_, _, _, _, _, rfl⟩, hproposals, hsome, ⟨added, ?_, hext, hinside⟩, hnone, ?_⟩
  · exact (Report.mk.inj hreport).2.2.symm
  · rw [hnothing.2]

end Growth

end ShapeGrammar
