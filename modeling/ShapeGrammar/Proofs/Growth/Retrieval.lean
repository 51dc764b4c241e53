import ShapeGrammar.Proofs.Growth.Recurrence
import ShapeGrammar.Proofs.Shape.Identity

/-!
# What is added is found again

A proposal adds shapes that were scaled, moved and put on the grid, and the store takes their keys,
for which they are put on the grid once more.  The search looks for a shape of a pattern under the
key that it has when it is scaled and moved, which puts it on the grid once.  The two keys are the
same, as what is on the grid stays where it is (`snap_snap`, `Shape.key_placed`).

So a polygon that was added is found under the key of its result, and with it all results of the
production are found under the similarity of the proposal, until the store is cleared.
-/

namespace ShapeGrammar

/-- A polygon that was added is found under its key from then on. -/
lemma Store.Extends.lookup_of_mem {s s' s'' : Store} {new more : List Polygon}
    (h : s.Extends new s') (h' : s'.Extends more s'') {q : Polygon} (hq : q ∈ new) :
    s''.lookup q.key = some q := by
  rw [h'.lookup_iff, h.lookup_iff]
  exact Or.inl (Or.inr ⟨hq, rfl⟩)

namespace Growth

/-- Coordinates on the grid stay where they are when they are put on the grid, and so a shape that is
scaled and moved has the key of the shape so placed, whatever the scale and the displacement are,
also if coordinates become infinite or are no numbers any more.  Let a growth with any history carry
out a command that applies a proposal, in a tick or by hand.  Every polygon that is reported as added
is the image of a result of the production under the similarity of the proposal.  It is found under
the key that any such result has under this similarity, at once and after any further commands but
resets and installations of scenes; and so are all results of the production. -/
theorem placed_shapes_are_found_again :
    (∀ v : Float, snap (snap v) = snap v) ∧
    (∀ (s : Shape) (scale dx dy : Float), (s.placed scale dx dy).key = s.keyAt scale dx dy) ∧
    ∀ (g : Growth) (command : Command) (c : Proposal),
      g.Reachable → g.applied command = some c →
      ∃ added, added ≠ [] ∧
        g.Reports ⟨c.production.id, c.foundIds, added.map Polygon.id⟩ (g.perform command) ∧
        g.store.Extends added (g.perform command).store ∧
        (∀ q ∈ added, ∃ r ∈ c.production.result, q.shape = r.under c.similarity) ∧
        ∀ cs : List Command, (∀ d ∈ cs, d.KeepsPolygons) →
          (∀ q ∈ added, ∀ r : Shape, q.shape = r.under c.similarity →
            ((g.perform command).after cs).store.lookup (r.keyUnder c.similarity) = some q) ∧
          ∃ found, Search.findAll ((g.perform command).after cs).store c.similarity
            c.production.result = some found := by
  refine ⟨snap_snap, Shape.key_placed, fun g command c hg h => ?_⟩
  obtain ⟨hreports, hstore⟩ := reports_of_applied h
  obtain ⟨p, -, anchor, -, hc⟩ := exists_propose_of_applied h
  obtain ⟨rfl, -⟩ := Search.propose_eq_some_iff.mp hc
  obtain ⟨added, hext, hreport, hne, hshapes, -⟩ := exists_extends_apply hc
  rw [hreport] at hreports
  rw [← hstore] at hext
  refine ⟨added, hne, hreports, hext, fun q hq => ?_, fun cs hcs => ?_⟩
  · exact (Search.of_mem_additions hc (hshapes q hq)).2.2
  · -- The further commands only add to the store, so that the keys stay taken.
    obtain ⟨more, hmore⟩ := exists_extends_after hcs (g.perform command)
    have hspent : Spent ((g.perform command).after cs).store c.production c.similarity := by
      refine Spent.mono ?_ hmore
      rw [hstore]
      exact spent_apply hg.consistent hc
    refine ⟨fun q hq r hr => ?_, Search.exists_findAll_iff.mpr fun r hr => ?_⟩
    · have hkey : q.key = r.keyUnder c.similarity := by
        rw [hext.key_eq q hq, hr]
        exact r.key_placed _ _ _
      rw [← hkey]
      exact hext.lookup_of_mem hmore hq
    · have hkey : (r.under c.similarity).key = r.keyUnder c.similarity := r.key_placed _ _ _
      rw [← hkey]
      exact hspent r hr

/-! ### A square of a third -/

/-- A square whose side is a third, and a production that adds a square to the right of a square. -/
def thirdOfSquare : Growth :=
  (new (.canvas 4 4) [squareBeside 1 1 0] 0 none).after
    [.plant (square 0 0 (1 / 3)), .start .first]

/-- The square that is added beside a third of a square has been rounded, and it is found under the
key of the unit square at a third of its size, also after more has been planted.  A square that is
scaled and moved by infinities has coordinates that are no numbers, and its two keys agree as
well. -/
theorem thirdOfSquare_is_found_again :
    (thirdOfSquare.Reachable ∧
      ∃ c, thirdOfSquare.applied .tick = some c ∧ c.similarity = ⟨1 / 3, 0, 0⟩ ∧
        (∀ d ∈ [Command.stop, .plant (square 2 2 1)], d.KeepsPolygons) ∧
        ((square 1 0 1).placed (1 / 3) 0 0).vertices ≠
          (square 1 0 1).vertices.map (fun p => p.scaleShift (1 / 3) 0 0) ∧
        ∃ q, q.shape = (square 1 0 1).placed (1 / 3) 0 0 ∧
          ((thirdOfSquare.perform .tick).after [.stop, .plant (square 2 2 1)]).store.lookup
            ((square 1 0 1).keyAt (1 / 3) 0 0) = some q) ∧
    ((square 1 0 1).placed Number.infinity 0 (-Number.infinity)).vertices.map
        (fun p => (p.x.isInf, p.y.isNaN)) =
      [(true, true), (true, true), (true, true), (true, true)] ∧
    ((square 1 0 1).placed Number.infinity 0 (-Number.infinity)).key =
      (square 1 0 1).keyAt Number.infinity 0 (-Number.infinity) := by
  have hreach : thirdOfSquare.Reachable := ⟨_, _, _, _, _, rfl⟩
  have hsimilarity : (thirdOfSquare.applied .tick).map Proposal.similarity =
      some ⟨1 / 3, 0, 0⟩ := by
    decide +kernel
  obtain ⟨c, hc, hthird⟩ := Option.map_eq_some_iff.mp hsimilarity
  have hkeeps : ∀ d ∈ [Command.stop, .plant (square 2 2 1)], d.KeepsPolygons := by
    simp [Command.KeepsPolygons]
  have hproduction : c.production = squareBeside 1 1 0 := by
    obtain ⟨p, hp, anchor, -, hpropose⟩ := exists_propose_of_applied hc
    obtain ⟨hp', -⟩ := Search.propose_eq_some_iff.mp hpropose
    have hproductions : thirdOfSquare.productions = [squareBeside 1 1 0] :=
      productions_after (by simp [Command.KeepsProductions]) _
    rw [hproductions] at hp
    exact hp'.trans (List.mem_singleton.mp hp)
  obtain ⟨-, hkeys, hfound⟩ := placed_shapes_are_found_again
  obtain ⟨added, hne, -, -, himages, hlater⟩ := hfound _ _ c hreach hc
  obtain ⟨q, hq⟩ := List.exists_mem_of_ne_nil _ hne
  obtain ⟨r, hr, himage⟩ := himages q hq
  rw [hproduction] at hr
  obtain rfl := List.mem_singleton.mp hr
  have hlookup := (hlater _ hkeeps).1 q hq _ himage
  rw [hthird] at himage hlookup
  exact ⟨⟨hreach, c, hc, hthird, hkeeps, by decide +kernel, q, himage, hlookup⟩,
    by decide +kernel, hkeys _ _ _ _⟩

end Growth

end ShapeGrammar
