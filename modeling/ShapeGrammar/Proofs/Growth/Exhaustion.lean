import ShapeGrammar.Proofs.Growth.History
import ShapeGrammar.Proofs.Search.Sampling

/-!
# When a run is over

A tick reports that nothing is left when its search found nothing (`Growth.tick_eq_exhausted_iff`):
every way of choosing takes something from a list that is not empty.  A search that is exhaustive,
or samples enough pairs, finds nothing exactly when an exhaustive search finds nothing
(`Growth.search_eq_nil_iff`).  So the end of such a run means that no production applies any more,
and, as the last tick changes nothing that matters, starting again ends at once.
-/

namespace ShapeGrammar

namespace Growth

variable {g : Growth} {policy : Policy}

/-! ### Ticks that find nothing -/

/-- A tick that finds nothing ends the run; the generator is as the search has left it. -/
lemma tick_of_search_eq_nil (hrun : g.phase = .running)
    (hnil : (g.search g.policy.sampling (g.policy.limit g.limit)).1 = []) :
    g.tick = (.exhausted,
      { g with
        generator := (g.search g.policy.sampling (g.policy.limit g.limit)).2
        phase := .idle
        proposals := [] }) := by
  have hrunning : g.isRunning = true := by
    rw [isRunning, hrun]
    rfl
  have hchoose : ∀ generator, g.policy.choose [] generator = (none, generator) := by
    intro generator
    rcases g.policy.choose_cases [] generator with ⟨-, hnone⟩ | ⟨i, hi, -⟩
    · exact hnone
    · exact absurd hi (Nat.not_lt_zero i)
  rcases hsearch : g.search g.policy.sampling (g.policy.limit g.limit) with ⟨proposals, generator⟩
  rw [hsearch] at hnil
  obtain rfl : proposals = [] := hnil
  rw [tick, if_pos hrunning]
  simp only [runningTick, hsearch, hchoose, Option.bind_none]

/-- A tick of a growth that runs ends the run exactly if it finds nothing. -/
lemma tick_eq_exhausted_iff (hrun : g.phase = .running) :
    g.tick.1 = .exhausted ↔ (g.search g.policy.sampling (g.policy.limit g.limit)).1 = [] := by
  constructor
  · intro h
    rcases g.tick_cases with ⟨hidle, -⟩ | ⟨-, generator, ⟨hnil, -⟩ | ⟨c, -, heq⟩⟩
    · rw [hrun] at hidle
      cases hidle
    · exact hnil
    · rw [heq] at h
      cases h
  · intro hnil
    rw [tick_of_search_eq_nil hrun hnil]

/-! ### Ticks that try everything -/

/-- A tick tries every pair of a production and an anchor: it searches exhaustively, or there is
only one production, it samples at least as many pairs as there are polygons, and it keeps what it
finds. -/
def TriesEverything (g : Growth) : Prop :=
  g.policy = .weighted ∨ g.policy = .first ∨
    ∃ count, g.policy = .stochastic count ∧ g.limit ≠ some 0 ∧ g.productions.length = 1 ∧
      g.store.size ≤ count ∧ g.store.size ≤ maxSampledPairs

/-- Under a policy that searches exhaustively, a tick finds nothing exactly if there is nothing to
find, and draws nothing for the search. -/
lemma search_of_exhaustive (h : g.policy = .weighted ∨ g.policy = .first) :
    ((g.search g.policy.sampling (g.policy.limit g.limit)).1 = [] ↔
      Search.allProposals g.store g.region.admits g.productions = []) ∧
    (g.search g.policy.sampling (g.policy.limit g.limit)).2 = g.generator := by
  rcases h with h | h <;> rw [h, search, Policy.sampling, Policy.limit, Search.run_exhaustive]
  · exact ⟨Iff.rfl, rfl⟩
  · refine ⟨?_, rfl⟩
    rw [Search.cut_eq_nil_iff]
    exact or_iff_right (by decide)

/-- A tick that tries everything finds nothing exactly if there is nothing to find. -/
lemma search_eq_nil_iff (h : g.TriesEverything) :
    (g.search g.policy.sampling (g.policy.limit g.limit)).1 = [] ↔
      Search.allProposals g.store g.region.admits g.productions = [] := by
  rcases h with h | h | ⟨count, h, hlimit, hps, hcount, hmax⟩
  · exact (search_of_exhaustive (Or.inl h)).1
  · exact (search_of_exhaustive (Or.inr h)).1
  · rw [h]
    exact Search.run_sampled_eq_nil_iff Generator.exact_sample hlimit hps hcount hmax g.generator

/-- Let a growth run.  If a tick tries everything, it reports the end of the run exactly if an
exhaustive search without a limit finds nothing in the store as it is.  A tick that reports the end
leaves the growth idle, without proposals to show, and otherwise as it was but for the generator,
which policies that search exhaustively do not use either.  Started again at once with such a
policy, the growth ends at the first tick exactly if an exhaustive search finds nothing; so it does
if the tick before tried everything. -/
theorem exhausted_iff_nothing_applies (hrun : g.phase = .running) (gen : Generator) :
    (g.TriesEverything →
      (g.tick.1 = .exhausted ↔
        (Search.run g.store g.productions g.region.admits .exhaustive none gen).1 = [])) ∧
    (g.tick.1 = .exhausted →
      g.tick.2 = { g with generator := g.tick.2.generator, phase := .idle, proposals := [] } ∧
      (g.policy = .weighted ∨ g.policy = .first → g.tick.2.generator = g.generator) ∧
      ∀ policy, policy = .weighted ∨ policy = .first →
        (g.tick.2.start policy).1 = true ∧
        ((g.tick.2.start policy).2.tick.1 = .exhausted ↔
          (Search.run g.store g.productions g.region.admits .exhaustive none gen).1 = []) ∧
        (g.TriesEverything → (g.tick.2.start policy).2.tick.1 = .exhausted)) := by
  rw [Search.run_exhaustive, Search.cut]
  have hend : g.TriesEverything →
      (g.tick.1 = .exhausted ↔
        Search.allProposals g.store g.region.admits g.productions = []) := by
    intro htries
    rw [tick_eq_exhausted_iff hrun, search_eq_nil_iff htries]
  refine ⟨hend, fun hx => ?_⟩
  have htick := tick_of_search_eq_nil hrun ((tick_eq_exhausted_iff hrun).mp hx)
  refine ⟨by rw [htick], ?_, ?_⟩
  · intro hpolicy
    rw [htick]
    exact (search_of_exhaustive hpolicy).2
  · intro policy hpolicy
    have hstart : g.tick.2.start policy =
        (true,
          { g.tick.2 with
            policy := policy, phase := .running, showPreviews := false, proposals := [] }) := by
      rw [htick]
      rfl
    have hagain : (g.tick.2.start policy).2.tick.1 = .exhausted ↔
        Search.allProposals g.store g.region.admits g.productions = [] := by
      rw [hstart, tick_eq_exhausted_iff rfl, (search_of_exhaustive hpolicy).1, htick]
    exact ⟨by rw [hstart], hagain, fun htries => hagain.mpr ((hend htries).mp hx)⟩

/-! ### A full row -/

/-- A running growth that fills a canvas for two squares by sampling two pairs at a time, after the
tick that has filled it. -/
def fullRow : Growth :=
  (new (.canvas 2 1) [squareBeside 1 1 0] 3 none).after
    [.plant (square 0 0 1), .start (.stochastic 2), .tick]

theorem fullRow_is_exhausted :
    fullRow.phase = .running ∧ fullRow.TriesEverything ∧ fullRow.store.size = 2 ∧
    (Search.run fullRow.store fullRow.productions fullRow.region.admits .exhaustive none
      fullRow.generator).1 = [] ∧
    (fullRow.tick.2.start .first).2.tick.1 = .exhausted := by
  have hrow : fullRow.phase = .running ∧ fullRow.policy = .stochastic 2 ∧
      fullRow.limit = none ∧ fullRow.productions.length = 1 ∧ fullRow.store.size = 2 ∧
      fullRow.tick.1 = .exhausted := by
    decide +kernel
  obtain ⟨hrun, hpolicy, hlimit, hps, hsize, hx⟩ := hrow
  have htries : fullRow.TriesEverything := by
    refine Or.inr (Or.inr ⟨2, hpolicy, ?_, hps, ?_, ?_⟩)
    · rw [hlimit]
      exact (Option.some_ne_none 0).symm
    · rw [hsize]
    · rw [hsize]
      decide
  obtain ⟨hend, hafter⟩ := exhausted_iff_nothing_applies hrun fullRow.generator
  obtain ⟨-, -, hagain⟩ := hafter hx
  exact ⟨hrun, htries, hsize, (hend htries).mp hx, (hagain .first (Or.inr rfl)).2.2 htries⟩

end Growth

end ShapeGrammar
