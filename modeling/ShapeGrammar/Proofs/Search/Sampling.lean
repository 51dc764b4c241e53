import ShapeGrammar.Proofs.Random.Cycle
import ShapeGrammar.Proofs.Search.Completeness

/-!
# Sampled searches

A sampled search draws from two cycles in turn, a production and then an anchor for it.  What is
drawn does not depend on what is found, so under a limit it gives the front of what it gives without
one (`Search.sampled_eq_cut`).  A limit only cuts a search, then, and a sample only leaves out
proposals, in whatever way samples are drawn.

`Search.Draws` says which pairs come out of the two cycles.  If passes are drawn by an exact sampler,
neither cycle ever stops giving, so there are as many pairs as wanted (`Search.exists_draws`), and
both cycles are gone through evenly.  With a single production, and at least as many pairs to try as
there are anchors, the first pass reaches every anchor; such a search finds nothing exactly when
there is nothing to find (`Search.run_sampled_eq_nil_iff`), whatever its generator draws.
-/

namespace ShapeGrammar

namespace Search

open scoped List

/-! ### Limits -/

/-- Under a limit a sampled search gives the front of what it gives without one. -/
lemma sampled_eq_cut (tryPair : ℕ × ℕ → Option Proposal) (wanted : ℕ) (limit : Option ℕ)
    (productions anchors : Cycle) (g : Generator) :
    (sampled tryPair wanted limit productions anchors g).1 =
      cut limit (sampled tryPair wanted none productions anchors g).1 := by
  induction wanted generalizing limit productions anchors g with
  | zero => cases limit <;> simp [sampled, cut]
  | succ wanted ih =>
    by_cases hlimit : limit = some 0
    · subst hlimit
      rfl
    · rw [sampled_succ tryPair _ hlimit, sampled_succ tryPair _ (Option.some_ne_none 0).symm]
      rcases drawPair productions anchors (wanted + 1) g with
        ⟨_ | ⟨pair, productions', anchors'⟩, g'⟩
      · exact (cut_eq_nil_iff.mpr (Or.inr rfl)).symm
      · dsimp only
        cases tryPair pair with
        | none => exact ih limit productions' anchors' g'
        | some c =>
          dsimp only
          rw [cut_cons hlimit, ih]
          rfl

/-- Under a limit a search gives the front of what it gives without one. -/
lemma run_eq_cut (store : Store) (ps : List Production) (admits : Shape → Bool)
    (sampling : Sampling) (limit : Option ℕ) (g : Generator) (sampler : Sampler) :
    (run store ps admits sampling limit g sampler).1 =
      cut limit (run store ps admits sampling none g sampler).1 := by
  cases sampling with
  | exhaustive =>
    rw [run_exhaustive, run_exhaustive]
    rfl
  | sampled count =>
    unfold run
    split
    · exact (cut_eq_nil_iff.mpr (Or.inr rfl)).symm
    · exact sampled_eq_cut _ _ _ _ _ _

/-! ### The pairs drawn -/

/-- Two cycles, asked in turn for a production and an anchor, give the pairs of the list, as many as
are wanted.  Both are told before each pair how many pairs are still wanted; `g` is the generator
before the first pair and `g'` the one after the last. -/
inductive Draws : Cycle → Cycle → Generator → List (ℕ × ℕ) → Generator → Prop
  | nil (productions anchors : Cycle) (g : Generator) : Draws productions anchors g [] g
  | cons {productions productions' anchors anchors' : Cycle} {g g₁ g₂ g' : Generator} {i j : ℕ}
      {pairs : List (ℕ × ℕ)}
      (hproduction : productions.draw (pairs.length + 1) g = (some (i, productions'), g₁))
      (hanchor : anchors.draw (pairs.length + 1) g₁ = (some (j, anchors'), g₂))
      (hrest : Draws productions' anchors' g₂ pairs g') :
      Draws productions anchors g ((i, j) :: pairs) g'

/-- Cycles through populations that are not empty, with passes that are drawn by exact samplers, give
as many pairs as are wanted. -/
lemma exists_draws {productions anchors : Cycle} (hsampler : productions.sampler.Exact)
    (hsampler' : anchors.sampler.Exact) (hproductions : productions.population ≠ 0)
    (hanchors : anchors.population ≠ 0) (wanted : ℕ) (g : Generator) :
    ∃ pairs g', pairs.length = wanted ∧ Draws productions anchors g pairs g' := by
  induction wanted generalizing productions anchors g with
  | zero => exact ⟨[], g, rfl, .nil productions anchors g⟩
  | succ wanted ih =>
    obtain ⟨i, productions', g₁, hproduction, hsame, heq⟩ :=
      Cycle.exists_draw hsampler hproductions (Nat.succ_ne_zero wanted) g
    obtain ⟨j, anchors', g₂, hanchor, hsame', heq'⟩ :=
      Cycle.exists_draw hsampler' hanchors (Nat.succ_ne_zero wanted) g₁
    obtain ⟨pairs, g', rfl, hrest⟩ :=
      ih (heq ▸ hsampler) (heq' ▸ hsampler') (hsame ▸ hproductions) (hsame' ▸ hanchors) g₂
    exact ⟨(i, j) :: pairs, g', rfl, .cons hproduction hanchor hrest⟩

namespace Draws

variable {productions anchors : Cycle} {g g' : Generator} {pairs : List (ℕ × ℕ)}

/-- The first members of the pairs are what the one cycle gives. -/
lemma productions_gives (h : Draws productions anchors g pairs g') :
    productions.Gives (pairs.map Prod.fst) := by
  induction h with
  | nil productions anchors g => exact .nil productions
  | cons hproduction hanchor hrest ih => exact .cons (by rwa [List.length_map]) ih

/-- The second members of the pairs are what the other cycle gives. -/
lemma anchors_gives (h : Draws productions anchors g pairs g') :
    anchors.Gives (pairs.map Prod.snd) := by
  induction h with
  | nil productions anchors g => exact .nil anchors
  | cons hproduction hanchor hrest ih => exact .cons (by rwa [List.length_map]) ih

/-- A sampled search goes through the pairs drawn, whatever it finds, and gives the proposals there.
-/
lemma sampled_eq (h : Draws productions anchors g pairs g')
    (tryPair : ℕ × ℕ → Option Proposal) :
    sampled tryPair pairs.length none productions anchors g = (pairs.filterMap tryPair, g') := by
  induction h with
  | nil productions anchors g => rfl
  | @cons productions productions' anchors anchors' g g₁ g₂ g' i j pairs hproduction hanchor hrest
      ih =>
    rw [List.length_cons, sampled_succ tryPair _ (Option.some_ne_none 0).symm]
    simp only [drawPair, hproduction, hanchor]
    cases hpair : tryPair (i, j) with
    | none => rw [List.filterMap_cons_none hpair, ← ih]
    | some c =>
      rw [List.filterMap_cons_some hpair]
      exact congrArg (fun rest => (c :: rest.1, rest.2)) ih

end Draws

/-- Where there is a production and a polygon, a sampled search without a limit draws as many pairs as
it was told to, and gives the proposals at these pairs. -/
lemma exists_draws_run {sampler : Sampler} (hsampler : sampler.Exact) {store : Store}
    {ps : List Production} (hps : ps ≠ []) (hstore : store.size ≠ 0) (count : ℕ) (g : Generator) :
    ∃ pairs g', pairs.length = min count maxSampledPairs ∧
      Draws (.ofSize ps.length sampler) (.ofSize store.size sampler) g pairs g' ∧
      ∀ admits, run store ps admits (.sampled count) none g sampler =
        (pairs.filterMap (proposeAt store ps admits), g') := by
  have hlength : ps.length ≠ 0 := mt List.length_eq_zero_iff.mp hps
  have hempty : (store.isEmpty || ps.isEmpty) = false := by
    rw [Bool.or_eq_false_iff, Store.isEmpty, Array.isEmpty_eq_false_iff, List.isEmpty_eq_false_iff]
    exact ⟨fun hnil => hstore (congrArg Array.size hnil), hps⟩
  obtain ⟨pairs, g', hpairs, hdraws⟩ : ∃ pairs g', pairs.length = min count maxSampledPairs ∧
      Draws (.ofSize ps.length sampler) (.ofSize store.size sampler) g pairs g' :=
    exists_draws hsampler hsampler hlength hstore (min count maxSampledPairs) g
  refine ⟨pairs, g', hpairs, hdraws, fun admits => ?_⟩
  rw [← hdraws.sampled_eq, hpairs, run, hempty]
  rfl

/-! ### Searches that find nothing -/

/-- There is nothing to find exactly if there is no proposal at any pair. -/
lemma allProposals_eq_nil_iff {store : Store} {admits : Shape → Bool} {ps : List Production} :
    allProposals store admits ps = [] ↔
      ∀ p ∈ ps, ∀ anchor ∈ store.toList, propose store admits p anchor = none := by
  simp only [allProposals, List.flatMap_eq_nil_iff, List.filterMap_eq_nil_iff]

/-- A search finds nothing where there is nothing to find. -/
lemma run_eq_nil {store : Store} {admits : Shape → Bool} {ps : List Production}
    (h : allProposals store admits ps = []) (sampling : Sampling) (limit : Option ℕ)
    (g : Generator) (sampler : Sampler) : (run store ps admits sampling limit g sampler).1 = [] := by
  rw [List.eq_nil_iff_forall_not_mem]
  intro c hc
  have hmem := mem_allProposals_iff.mpr (exists_propose_of_mem_run hc)
  rw [h] at hmem
  exact List.not_mem_nil hmem

/-- A sampled search with a single production, which may try as many pairs as there are polygons and
keep a proposal, finds nothing exactly if there is nothing to find. -/
lemma run_sampled_eq_nil_iff {sampler : Sampler} (hsampler : sampler.Exact) {store : Store}
    {ps : List Production} {admits : Shape → Bool} {count : ℕ} {limit : Option ℕ}
    (hlimit : limit ≠ some 0) (hps : ps.length = 1) (hcount : store.size ≤ count)
    (hmax : store.size ≤ maxSampledPairs) (g : Generator) :
    (run store ps admits (.sampled count) limit g sampler).1 = [] ↔
      allProposals store admits ps = [] := by
  refine ⟨fun h => ?_, fun h => run_eq_nil h _ _ g sampler⟩
  obtain ⟨p, rfl⟩ := List.length_eq_one_iff.mp hps
  rw [allProposals_eq_nil_iff]
  intro q hq anchor hanchor
  obtain rfl := List.mem_singleton.mp hq
  obtain ⟨j, hj, hget⟩ := List.getElem_of_mem hanchor
  have hsize : store.size ≠ 0 := Nat.ne_zero_of_lt hj
  obtain ⟨pairs, g', hlength, hdraws, hrun⟩ :=
    exists_draws_run hsampler (List.cons_ne_nil q []) hsize count g
  rw [run_eq_cut, hrun admits, cut_eq_nil_iff, or_iff_right hlimit, List.filterMap_eq_nil_iff] at h
  -- The first pass through the store reaches every anchor.
  have hlong : store.size ≤ (pairs.map Prod.snd).length := by
    rw [List.length_map, hlength]
    exact Nat.le_min.mpr ⟨hcount, hmax⟩
  have hdrawn := (hdraws.anchors_gives.inBlocks hsize hsampler).mem_of_lt hlong hj
  obtain ⟨⟨i, j'⟩, hpair, rfl : j' = j⟩ := List.mem_map.mp hdrawn
  obtain rfl : i = 0 := Nat.lt_one_iff.mp
    ((hdraws.productions_gives.inBlocks Nat.one_ne_zero hsampler).lt i (List.mem_map_of_mem hpair))
  have hat : store.polygons[j']? = some anchor := by
    rw [← Array.getElem?_toList]
    exact List.getElem?_eq_some_iff.mpr ⟨hj, hget⟩
  simpa only [proposeAt, List.getElem?_cons_zero, hat] using h _ hpair

/-! ### What sampling leaves -/

/-- On every store, for all productions and every condition of admission, and for every way to draw
samples: a search under a limit gives the first proposals of the same search without one, as many as
the limit allows, however the search is sampled; and what a sampled search proposes, under whatever
limit and whatever it draws, an exhaustive search without a limit proposes as well. -/
theorem limits_and_samples_only_leave_out (store : Store) (ps : List Production)
    (admits : Shape → Bool) (sampler : Sampler) :
    (∀ sampling limit g, (run store ps admits sampling (some limit) g sampler).1 =
      (run store ps admits sampling none g sampler).1.take limit) ∧
    ∀ count limit g g', ∀ c ∈ (run store ps admits (.sampled count) limit g sampler).1,
      c ∈ (run store ps admits .exhaustive none g').1 := by
  refine ⟨fun sampling limit g => run_eq_cut store ps admits sampling (some limit) g sampler, ?_⟩
  intro count limit g g' c hc
  rw [run_exhaustive]
  exact mem_allProposals_iff.mpr (exists_propose_of_mem_run hc)

/-- Let there be a production and a polygon, and let samples be drawn by an exact sampler, such as
`Generator.sample`.  Then a sampled search without a limit draws exactly as
many pairs as it was told to, but no more than the largest number of pairs, from two cycles that
never stop giving; it tries these pairs one after the other, the next production with the next
anchor, and no others.  The productions drawn are spread evenly over the list of productions, and
the anchors over the store: all are in range, within a pass none comes twice, and each is drawn as
often as any other, up to the rounding of the number of pairs divided by the size of the
population. -/
theorem sampled_pairs_are_exact_and_even {sampler : Sampler} (hsampler : sampler.Exact)
    {store : Store} {ps : List Production} (hps : ps ≠ []) (hstore : store.size ≠ 0) (count : ℕ)
    (g : Generator) :
    ∃ pairs g', pairs.length = min count maxSampledPairs ∧
      Draws (.ofSize ps.length sampler) (.ofSize store.size sampler) g pairs g' ∧
      (∀ admits, run store ps admits (.sampled count) none g sampler =
        (pairs.filterMap (proposeAt store ps admits), g')) ∧
      SpreadEvenly ps.length (pairs.map Prod.fst) ∧
      SpreadEvenly store.size (pairs.map Prod.snd) := by
  obtain ⟨pairs, g', hlength, hdraws, hrun⟩ := exists_draws_run hsampler hps hstore count g
  have hproductions : ps.length ≠ 0 := mt List.length_eq_zero_iff.mp hps
  refine ⟨pairs, g', hlength, hdraws, hrun, ?_, ?_⟩
  · exact (hdraws.productions_gives.inBlocks hproductions hsampler).spreadEvenly
  · exact (hdraws.anchors_gives.inBlocks hstore hsampler).spreadEvenly

theorem seven_pairs_of_triangles :
    Sampler.Exact Generator.sample ∧ triangleRules ≠ [] ∧ triangles.size = 4 ∧
    ∀ g, ∃ pairs g', pairs.length = 7 ∧ Draws (.ofSize 2) (.ofSize 4) g pairs g' ∧
      (∀ admits, run triangles triangleRules admits (.sampled 7) none g =
        (pairs.filterMap (proposeAt triangles triangleRules admits), g')) ∧
      SpreadEvenly 2 (pairs.map Prod.fst) ∧ SpreadEvenly 4 (pairs.map Prod.snd) := by
  have hsampler : Sampler.Exact Generator.sample := Generator.exact_sample
  have hsize : triangles.size = 4 := by decide +kernel
  have hrules : triangleRules ≠ [] := List.cons_ne_nil _ _
  refine ⟨hsampler, hrules, hsize, fun g => ?_⟩
  have hpairs := sampled_pairs_are_exact_and_even hsampler hrules (by rw [hsize]; decide) 7 g
  rwa [hsize] at hpairs

end Search

end ShapeGrammar
