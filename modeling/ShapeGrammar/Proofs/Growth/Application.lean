import ShapeGrammar.Proofs.Search.Proposals
import ShapeGrammar.Proofs.Selection

/-!
# What a growth applies

A growth changes its store in one way only, by applying a proposal of a search on the store as it
is: `Growth.tick_cases` says this of a tick, and `Growth.applyAt_cases` of an application by hand.
Which proposal that is, if any, is `Growth.choice` and `Growth.picked`.

A proposal that was just searched for adds the first shape of each of its keys, and so at least one
polygon.  The store is extended by what is added, and by nothing else
(`Growth.exists_firstOfEachKey_apply`, `Growth.exists_extends_apply`).
-/

namespace ShapeGrammar

namespace Growth

variable {g : Growth} {c : Proposal}

/-- What a growth finds was proposed by one of its productions at an anchor of its store. -/
lemma exists_propose_of_mem_search {sampling : Sampling} {limit : Option ℕ}
    (h : c ∈ (g.search sampling limit).1) :
    ∃ p ∈ g.productions, ∃ anchor ∈ g.store.toList,
      Search.propose g.store g.region.admits p anchor = some c :=
  Search.exists_propose_of_mem_run h

/-! ### Applying a proposal -/

/-- Applying a proposal extends the store, whatever the proposal is. -/
lemma extends_apply (g : Growth) (c : Proposal) :
    ∃ added, g.store.Extends added (g.apply c).2.store := by
  obtain ⟨added, hext, -⟩ := g.store.exists_extends_insertAll g.region.admits c.additions
  exact ⟨added, hext⟩

/-- Applying a proposal of the store as it is adds the first shape of each key. -/
lemma exists_firstOfEachKey_apply {p : Production} {anchor : Polygon}
    (hc : Search.propose g.store g.region.admits p anchor = some c) :
    ∃ added, g.store.Extends added (g.apply c).2.store ∧
      (g.apply c).1 = ⟨c.production.id, c.foundIds, added.map Polygon.id⟩ ∧
      added.map Polygon.shape = Shape.firstOfEachKey c.additions := by
  obtain ⟨added, hext, hids, hshapes⟩ :=
    g.store.exists_extends_insertAll_firstOfEachKey g.region.admits c.additions
  have hall : (c.additions.filter fun s => g.region.admits s && !g.store.hasKey s.key) =
      c.additions := by
    rw [List.filter_eq_self]
    intro s hs
    obtain ⟨hadmits, hfree, -⟩ := Search.of_mem_additions hc hs
    rw [hadmits, hfree]
    rfl
  rw [hall] at hshapes
  exact ⟨added, hext, congrArg (Report.mk c.production.id c.foundIds) hids, hshapes⟩

/-- Applying a proposal of the store as it is extends the store by shapes of the proposal, at least
one of them.  The report names the production, the polygons found and the polygons added, and
afterwards no shape of the proposal is without a polygon of its key. -/
lemma exists_extends_apply {p : Production} {anchor : Polygon}
    (hc : Search.propose g.store g.region.admits p anchor = some c) :
    ∃ added, g.store.Extends added (g.apply c).2.store ∧
      (g.apply c).1 = ⟨p.id, c.found.map Polygon.id, added.map Polygon.id⟩ ∧ added ≠ [] ∧
      (∀ q ∈ added, q.shape ∈ c.additions) ∧
      ∀ s ∈ c.additions, (g.apply c).2.store.hasKey s.key = true := by
  obtain ⟨rfl, -, -, -, hne⟩ := Search.propose_eq_some_iff.mp hc
  obtain ⟨added, hext, hreport, hshapes⟩ := exists_firstOfEachKey_apply hc
  refine ⟨added, hext, hreport, ?_, fun q hq => ?_, fun s hs => ?_⟩
  · rintro rfl
    obtain ⟨s, hs⟩ := List.exists_mem_of_ne_nil _ hne
    obtain ⟨q, hq, -⟩ := hext.exists_key_eq hshapes hs
    exact List.not_mem_nil hq
  · have hmem : q.shape ∈ Shape.firstOfEachKey c.additions := hshapes ▸ List.mem_map_of_mem hq
    exact (Shape.firstOfEachKey_sublist c.additions).subset hmem
  · obtain ⟨q, hq, -, hkey⟩ := hext.exists_key_eq hshapes hs
    exact (hext.hasKey_iff_or s.key).mpr (Or.inr ⟨q, hq, hkey⟩)

/-! ### Steps -/

/-- The proposal that a growth that runs takes, if it finds one, and what is left of the
generator. -/
def choice (g : Growth) : Option Proposal × Generator :=
  let (proposals, generator) := g.search g.policy.sampling (g.policy.limit g.limit)
  let (i, generator) := g.policy.choose proposals generator
  (i.bind fun i => proposals[i]?, generator)

/-- The proposal that is picked by pointing. -/
def picked (g : Growth) (p : Point) : Option Proposal :=
  (Selection.under g.refresh.proposals p).bind fun i => g.refresh.proposals[i]?

/-- There is a choice as long as something is found. -/
lemma choice_cases (g : Growth) :
    ((g.search g.policy.sampling (g.policy.limit g.limit)).1 = [] ∧ g.choice.1 = none) ∨
      ∃ c ∈ (g.search g.policy.sampling (g.policy.limit g.limit)).1, g.choice.1 = some c := by
  unfold choice
  rcases g.search g.policy.sampling (g.policy.limit g.limit) with ⟨cs, gen⟩
  dsimp only
  rcases g.policy.choose_cases cs gen with ⟨rfl, hnone⟩ | ⟨i, hi, hsome⟩
  · rw [hnone]
    exact Or.inl ⟨rfl, rfl⟩
  · rw [hsome, Option.bind_some]
    exact Or.inr ⟨cs[i], List.getElem_mem hi, List.getElem?_eq_getElem hi⟩

/-- What is picked was found by an exhaustive search. -/
lemma mem_search_of_picked {p : Point} (h : g.picked p = some c) :
    c ∈ (g.search .exhaustive g.limit).1 := by
  obtain ⟨i, -, hi⟩ := Option.bind_eq_some_iff.mp h
  exact List.mem_of_getElem? hi

lemma runningTick_eq (g : Growth) :
    g.runningTick =
      match g.choice.1 with
      | none => (.exhausted, { g with generator := g.choice.2, phase := .idle, proposals := [] })
      | some c =>
        (.applied (g.apply c).1,
          { (g.apply c).2 with generator := g.choice.2, ticks := g.ticks + 1 }) := by
  rcases hsearch : g.search g.policy.sampling (g.policy.limit g.limit) with ⟨cs, gen⟩
  rcases hchoose : g.policy.choose cs gen with ⟨i, generator⟩
  have hchoice : g.choice = (i.bind fun i => cs[i]?, generator) := by
    simp only [choice, hsearch, hchoose]
  rw [hchoice, runningTick, hsearch]
  dsimp only
  rw [hchoose]
  cases i.bind fun i => cs[i]? with
  | none => rfl
  | some c => rfl

lemma applyAt_eq {g : Growth} (h : ¬ g.isRunning = true) (p : Point) :
    g.applyAt p =
      match g.picked p with
      | none => (none, g.refresh)
      | some c => (some (g.refresh.apply c).1, (g.refresh.apply c).2.refresh) := by
  rw [applyAt, if_neg h]
  rfl

/-- A growth that runs applies one of the proposals it finds.  If there is none, the run is over,
and nothing else has changed but the generator. -/
lemma runningTick_cases (g : Growth) :
    ∃ generator,
      ((g.search g.policy.sampling (g.policy.limit g.limit)).1 = [] ∧
        g.runningTick =
          (.exhausted, { g with generator := generator, phase := .idle, proposals := [] })) ∨
      ∃ c ∈ (g.search g.policy.sampling (g.policy.limit g.limit)).1,
        g.runningTick =
          (.applied (g.apply c).1,
            { (g.apply c).2 with generator := generator, ticks := g.ticks + 1 }) := by
  refine ⟨g.choice.2, ?_⟩
  rw [runningTick_eq]
  rcases g.choice_cases with ⟨hempty, hnone⟩ | ⟨c, hc, hsome⟩
  · rw [hnone]
    exact Or.inl ⟨hempty, rfl⟩
  · rw [hsome]
    exact Or.inr ⟨c, hc, rfl⟩

/-- A tick does nothing, as the growth is idle; or the growth runs and its run is over; or it
applies one of the proposals it finds. -/
lemma tick_cases (g : Growth) :
    (g.phase = .idle ∧ g.tick = (.idle, g)) ∨
      g.phase = .running ∧ ∃ generator,
        ((g.search g.policy.sampling (g.policy.limit g.limit)).1 = [] ∧
          g.tick =
            (.exhausted, { g with generator := generator, phase := .idle, proposals := [] })) ∨
        ∃ c ∈ (g.search g.policy.sampling (g.policy.limit g.limit)).1,
          g.tick =
            (.applied (g.apply c).1,
              { (g.apply c).2 with generator := generator, ticks := g.ticks + 1 }) := by
  unfold tick isRunning
  cases hphase : g.phase with
  | idle => exact Or.inl ⟨rfl, rfl⟩
  | running => exact Or.inr ⟨rfl, g.runningTick_cases⟩

/-- An application by hand applies one of the proposals of an exhaustive search, or it leaves the
store as it is. -/
lemma applyAt_cases (g : Growth) (p : Point) :
    ((g.applyAt p).1 = none ∧ (g.applyAt p).2.store = g.store) ∨
      ∃ c ∈ (g.search .exhaustive g.limit).1,
        (g.applyAt p).1 = some (g.apply c).1 ∧ (g.applyAt p).2.store = (g.apply c).2.store := by
  by_cases hrun : g.isRunning = true
  · rw [applyAt, if_pos hrun]
    exact Or.inl ⟨rfl, rfl⟩
  · rw [applyAt_eq hrun]
    cases hpicked : g.picked p with
    | none => exact Or.inl ⟨rfl, rfl⟩
    | some c => exact Or.inr ⟨c, mem_search_of_picked hpicked, rfl, rfl⟩

end Growth

end ShapeGrammar
