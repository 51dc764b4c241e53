import ShapeGrammar.Proofs.Growth.History
import ShapeGrammar.Proofs.Search.Completeness
import ShapeGrammar.Proofs.Selection.Weighted
import ShapeGrammar.Proofs.Shape.Identity

/-!
# What a fresh proposal adds

A search leaves out what is kept and what the store has, but it does not compare the results of a
production with each other.  Two of them may be the same, and two that differ may come to lie on
each other, as the grid is coarse for an anchor that is small.  Then the proposal has two shapes of
one key.

When a proposal is applied at once, nothing else keeps a shape out: the first shape of each key is
added, and the others are passed over (`Growth.exists_firstOfEachKey_apply`).  The score counts them
all the same.
-/

namespace ShapeGrammar

namespace Search

variable {store : Store} {c : Proposal}

/-- No two results of the production come to lie on one key, unless the store has it already. -/
def ResultsApart (store : Store) (c : Proposal) : Prop :=
  c.production.result.Pairwise fun r r' =>
    r.keyUnder c.similarity = r'.keyUnder c.similarity →
      store.hasKey (r.keyUnder c.similarity) = true

instance (store : Store) (c : Proposal) : Decidable (ResultsApart store c) :=
  inferInstanceAs (Decidable (List.Pairwise _ _))

/-- The keys of what is added are the keys of all results that are new to the store. -/
lemma map_key_additions (hs : store.Consistent) {admits : Shape → Bool} {p : Production}
    {anchor : Polygon} (hc : propose store admits p anchor = some c) :
    c.additions.map Shape.key =
      (c.production.result.map fun r => r.keyUnder c.similarity).filter fun k =>
        !store.hasKey k := by
  obtain ⟨rfl, -, hfound, hadd, hne⟩ := propose_eq_some_iff.mp hc
  rw [← hadd] at hne
  have hkey : ∀ r : Shape, (r.under c.similarity).key = r.keyUnder c.similarity :=
    fun r => r.key_placed _ _ _
  rw [← hadd, additions_eq_filter hs hfound hne, List.filter_map, List.map_map, List.filter_map]
  simp only [Function.comp_def, hkey, hs.not_hasKey_eq_decide]

/-- A proposal has no key twice exactly if its new results are apart. -/
lemma nodup_keys_iff_resultsApart (hs : store.Consistent) {admits : Shape → Bool} {p : Production}
    {anchor : Polygon} (hc : propose store admits p anchor = some c) :
    (c.additions.map Shape.key).Nodup ↔ ResultsApart store c := by
  rw [map_key_additions hs hc, List.Nodup, List.pairwise_filter, List.pairwise_map]
  refine List.Pairwise.iff fun r r' => ⟨fun h hsame => ?_, fun h hfree _ hsame => ?_⟩
  · by_contra htaken
    have hfree := Bool.eq_false_of_not_eq_true htaken
    have hfree' : store.hasKey (r'.keyUnder c.similarity) = false := hsame ▸ hfree
    exact h (by rw [hfree]; rfl) (by rw [hfree']; rfl) hsame
  · rw [h hsame] at hfree
    exact Bool.false_ne_true hfree

end Search

namespace Growth

variable {g : Growth} {c : Proposal}

/-- Let any search of a growth with a history give a proposal, and apply it at once.  The report
names the production, the polygons found and the polygons added.  What is added is, in their order,
the first shape of each key among the shapes of the proposal.  So all of them are added exactly if
they have different keys, and that is so exactly if no two results of the production come to lie on
one key that is new to the store.  In this case the score is the total of what the polygons added
count; and otherwise, as long as it is finite, it is no less than that. -/
theorem fresh_proposal_adds_first_of_each_key (hg : g.Reachable) {sampling : Sampling}
    {limit : Option ℕ} {gen : Generator}
    (hc : c ∈ (Search.run g.store g.productions g.region.admits sampling limit gen).1) :
    ∃ added, g.store.Extends added (g.apply c).2.store ∧
      (g.apply c).1 = ⟨c.production.id, c.foundIds, added.map Polygon.id⟩ ∧
      added.map Polygon.shape = Shape.firstOfEachKey c.additions ∧
      (added.length = c.additions.length ↔ (c.additions.map Shape.key).Nodup) ∧
      ((c.additions.map Shape.key).Nodup ↔ Search.ResultsApart g.store c) ∧
      ((c.additions.map Shape.key).Nodup → added.map Polygon.shape = c.additions ∧
        c.score = total (added.map fun q => Proposal.weight q.shape)) ∧
      (c.score.isFinite = true →
        Number.value (total (added.map fun q => Proposal.weight q.shape)) ≤
          Number.value c.score) := by
  obtain ⟨p, -, anchor, -, hpropose⟩ := Search.exists_propose_of_mem_run hc
  obtain ⟨added, hext, hreport, hshapes⟩ := exists_firstOfEachKey_apply hpropose
  have hsub : (added.map Polygon.shape).Sublist c.additions :=
    hshapes ▸ Shape.firstOfEachKey_sublist c.additions
  have hweights : (added.map fun q => Proposal.weight q.shape) =
      (added.map Polygon.shape).map Proposal.weight := by
    rw [List.map_map]
    rfl
  have hlength : added.length = c.additions.length ↔ (c.additions.map Shape.key).Nodup := by
    rw [← Shape.firstOfEachKey_eq_self_iff, ← hshapes, ← hsub.length_eq, List.length_map]
  refine ⟨added, hext, hreport, hshapes, hlength,
    Search.nodup_keys_iff_resultsApart hg.consistent hpropose, fun hnodup => ?_, fun hfinite => ?_⟩
  · have hall : added.map Polygon.shape = c.additions :=
      hshapes.trans (Shape.firstOfEachKey_eq_self_iff.mpr hnodup)
    refine ⟨hall, ?_⟩
    rw [hweights, hall]
    rfl
  · rw [hweights]
    exact Proposal.value_total_le_value_score hsub hfinite

/-! ### Squares side by side -/

/-- A growth with a square of the given side, and a production that adds squares of the same size
beside a square, at the given distances. -/
def squaresBeside (side : Float) (distances : List Float) : Growth :=
  (new (.canvas 4 4) [⟨1, [square 0 0 1], distances.map fun d => square d 0 1⟩] 0 none).after
    [.plant (square 0 0 side)]

theorem two_squares_are_added :
    let g := squaresBeside 1 [1, 2]
    g.Reachable ∧
    ∃ c ∈ (Search.run g.store g.productions g.region.admits .exhaustive none (.ofSeed 0)).1,
      Search.ResultsApart g.store c ∧ c.additions.length = 2 ∧ c.score = 2 ∧
      ∃ added, g.store.Extends added (g.apply c).2.store ∧
        (g.apply c).1.added = added.map Polygon.id ∧ added.length = 2 ∧
        total (added.map fun q => Proposal.weight q.shape) = 2 := by
  intro g
  have hg : g.Reachable := ⟨_, _, _, _, _, rfl⟩
  have hrun : ∃ c ∈ (Search.run g.store g.productions g.region.admits .exhaustive none
      (.ofSeed 0)).1,
      Search.ResultsApart g.store c ∧ c.additions.length = 2 ∧ c.score = 2 := by
    decide +kernel
  obtain ⟨c, hc, hapart, htwo, hscore⟩ := hrun
  obtain ⟨added, hext, hreport, -, hlength, hnodup, hall, -⟩ :=
    fresh_proposal_adds_first_of_each_key hg hc
  have hkeys := hnodup.mpr hapart
  refine ⟨hg, c, hc, hapart, htwo, hscore, added, hext, ?_, ?_, ?_⟩
  · rw [hreport]
  · rw [hlength.mpr hkeys, htwo]
  · rw [← (hall hkeys).2, hscore]

/-- The search finds a proposal with a key twice, which adds fewer polygons than it has shapes, and
whose score is not what the polygons added count. -/
def FallsShort (g : Growth) : Prop :=
  ∃ c ∈ (g.search .exhaustive none).1, ¬ (c.additions.map Shape.key).Nodup ∧
    (g.apply c).1.added.length < c.additions.length ∧
    c.score ≠ total (((g.apply c).2.store.toList.filter fun q =>
      decide (q.id ∈ (g.apply c).1.added)).map fun q => Proposal.weight q.shape)

instance (g : Growth) : Decidable g.FallsShort :=
  inferInstanceAs (Decidable (∃ c ∈ (g.search .exhaustive none).1, _ ∧ _ ∧ _))

/-- Less than all is added if a result is listed twice, and if results fall together on the grid,
where a distance of an eighth of the side is a quarter of a grid step. -/
theorem squares_fall_together :
    ((squaresBeside 1 [1, 1]).Reachable ∧ (squaresBeside 1 [1, 1]).FallsShort) ∧
    (squaresBeside (2 * gridStep) [1, 1.125]).Reachable ∧
      (squaresBeside (2 * gridStep) [1, 1.125]).FallsShort := by
  have hshort : (squaresBeside 1 [1, 1]).FallsShort ∧
      (squaresBeside (2 * gridStep) [1, 1.125]).FallsShort := by
    decide +kernel
  exact ⟨⟨⟨_, _, _, _, _, rfl⟩, hshort.1⟩, ⟨_, _, _, _, _, rfl⟩, hshort.2⟩

end Growth

end ShapeGrammar
