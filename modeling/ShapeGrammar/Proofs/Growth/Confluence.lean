import ShapeGrammar.Proofs.Growth.History
import ShapeGrammar.Proofs.Search.Rewriting

/-!
# Growth until nothing can be applied

A run may be stopped and started again, with policies that try everything, and previews may be shown
and hidden in between: what happens to the store is a sequence of rewritings
(`Growth.rewritings_after`).  When such a run is over, the store is closed
(`Growth.closed_of_exhausted`).

So two runs that start with the same shapes and productions in one region end with the same keys, in
whatever order they applied what, if they represent equal keys by equal vertices.
-/

namespace ShapeGrammar

open Relation (ReflTransGen)

namespace Growth

/-! ### Runs that try everything -/

/-- The command drives a run that tries everything: it starts one, stops it, lets it tick, or is
about previews only. -/
inductive Command.Drives : Command → Prop
  | start {policy : Policy} (h : policy.sampling = .exhaustive) : Drives (.start policy)
  | stop : Drives .stop
  | tick : Drives .tick
  | refresh : Drives .refresh
  | setShowPreviews (shown : Bool) : Drives (.setShowPreviews shown)

/-- If the growth runs, it tries everything. -/
def Thorough (g : Growth) : Prop := g.phase = .running → g.policy.sampling = .exhaustive

/-- The growth is driven by the commands, trying everything, and the next tick finds that nothing
can be applied any more. -/
structure RunsDry (g : Growth) (cs : List Command) : Prop where
  thorough : g.Thorough
  drives : ∀ c ∈ cs, c.Drives
  exhausted : (g.after cs).tick.1 = .exhausted

variable {g : Growth} {c : Command} {cs : List Command}

lemma Command.Drives.keepsProductions (h : c.Drives) : c.KeepsProductions := by
  cases h <;> trivial

/-- A thorough growth stays so while it is driven. -/
lemma thorough_perform (h : g.Thorough) (hc : c.Drives) : (g.perform c).Thorough := by
  cases hc with
  | start hpolicy =>
    simp only [perform, start]
    split
    · exact h
    · exact fun _ => hpolicy
  | tick =>
    simp only [perform]
    rcases g.tick_cases with ⟨-, heq⟩ | ⟨-, generator, ⟨-, heq⟩ | ⟨c, -, heq⟩⟩
    · rw [heq]
      exact h
    · rw [heq]
      intro hrunning
      cases hrunning
    · rw [heq]
      exact h
  | setShowPreviews shown =>
    simp only [perform, setShowPreviews]
    split <;> exact h
  | stop =>
    intro hrunning
    cases hrunning
  | refresh => exact h

lemma thorough_after (h : g.Thorough) (hcs : ∀ c ∈ cs, c.Drives) : (g.after cs).Thorough := by
  induction cs generalizing g with
  | nil => exact h
  | cons c cs ih =>
    refine ih (thorough_perform h (hcs c List.mem_cons_self)) ?_
    exact fun d hd => hcs d (List.mem_cons_of_mem _ hd)

/-- A tick rewrites the store, or leaves it as it is. -/
lemma rewritings_tick (g : Growth) :
    ReflTransGen (Store.Rewrites g.region.admits g.productions) g.store g.tick.2.store := by
  rcases g.tick_cases with ⟨-, heq⟩ | ⟨-, generator, ⟨-, heq⟩ | ⟨c, hc, heq⟩⟩
  · rw [heq]
  · rw [heq]
  · rw [heq]
    obtain ⟨p, hp, anchor, hanchor, hpropose⟩ := exists_propose_of_mem_search hc
    exact .single ⟨p, hp, anchor, hanchor, c, hpropose, rfl⟩

/-- A command that drives a run rewrites the store, or leaves it as it is. -/
lemma rewritings_perform (g : Growth) (hc : c.Drives) :
    ReflTransGen (Store.Rewrites g.region.admits g.productions) g.store (g.perform c).store := by
  cases hc with
  | tick => exact g.rewritings_tick
  | start hpolicy => rw [perform, store_start]
  | setShowPreviews shown => rw [perform, store_setShowPreviews]
  | stop => exact .refl
  | refresh => exact .refl

/-- What a run does to the store is a sequence of rewritings. -/
lemma rewritings_after (g : Growth) (hcs : ∀ c ∈ cs, c.Drives) :
    ReflTransGen (Store.Rewrites g.region.admits g.productions) g.store (g.after cs).store := by
  induction cs generalizing g with
  | nil => exact .refl
  | cons c cs ih =>
    have hc : c.Drives := hcs c List.mem_cons_self
    have hrest := ih (g.perform c) fun d hd => hcs d (List.mem_cons_of_mem _ hd)
    rw [region_perform, (sameRules_perform hc.keepsProductions g).productions] at hrest
    exact (g.rewritings_perform hc).trans hrest

/-! ### The end of a run -/

/-- A policy that tries everything keeps at least one proposal. -/
lemma limit_ne_zero {policy : Policy} (h : policy.sampling = .exhaustive) (limit : Option ℕ) :
    policy.limit limit ≠ some 0 := by
  cases policy with
  | weighted => exact (Option.some_ne_none 0).symm
  | first => exact fun hone => Nat.one_ne_zero (Option.some.inj hone)
  | stochastic count => cases h

/-- If a growth that tries everything finds nothing to apply, its store is closed, and the tick that
found this left it as it was. -/
lemma closed_of_exhausted (h : g.Thorough) (hx : g.tick.1 = .exhausted) :
    Store.Closed g.region.admits g.productions g.store ∧ g.tick.2.store = g.store := by
  rcases g.tick_cases with ⟨-, heq⟩ | ⟨hrunning, generator, ⟨hnil, heq⟩ | ⟨c, -, heq⟩⟩
  · rw [heq] at hx
    cases hx
  · have hsampling := h hrunning
    rw [hsampling, search, Search.run_exhaustive, Search.cut_eq_nil_iff] at hnil
    have hnone := hnil.resolve_left (limit_ne_zero hsampling g.limit)
    refine ⟨?_, by rw [heq]⟩
    intro p hp anchor hanchor
    rw [Option.eq_none_iff_forall_ne_some]
    intro c hc
    have hmem := Search.mem_allProposals_iff.mpr ⟨p, hp, anchor, hanchor, hc⟩
    rw [hnone] at hmem
    exact List.not_mem_nil hmem
  · rw [heq] at hx
    cases hx

/-- At the end of a run that tried everything the store is closed, and all that has happened to it
is a sequence of rewritings. -/
lemma RunsDry.rewritings_and_closed (h : g.RunsDry cs) :
    ReflTransGen (Store.Rewrites g.region.admits g.productions) g.store
        (g.after cs).tick.2.store ∧
      Store.Closed g.region.admits g.productions (g.after cs).tick.2.store := by
  have hkeeps : ∀ c ∈ cs, c.KeepsProductions := fun c hc => (h.drives c hc).keepsProductions
  obtain ⟨hclosed, hstore⟩ := closed_of_exhausted (thorough_after h.thorough h.drives) h.exhausted
  rw [region_after, productions_after hkeeps] at hclosed
  rw [hstore]
  exact ⟨rewritings_after g h.drives, hclosed⟩

/-! ### Two runs -/

/-- Two growths with any histories, in one region, with the same productions and the same shapes in
their stores, are driven until nothing can be applied any more.  Each tries everything; otherwise
policies, starts, stops and random choices are free.  If polygons of one key, one in each final
store, always have equal coordinates, vertex by vertex, then the final stores have the same keys. -/
theorem exhausted_runs_end_with_the_same_keys {a b : Growth} {as bs : List Command}
    (ha : a.Reachable) (hb : b.Reachable) (hregion : a.region = b.region)
    (hproductions : ∀ p, p ∈ a.productions ↔ p ∈ b.productions)
    (hshapes : a.store.SameShapes b.store) (hdryA : a.RunsDry as) (hdryB : b.RunsDry bs)
    (hequal : ∀ p ∈ (a.after as).tick.2.store.toList, ∀ q ∈ (b.after bs).tick.2.store.toList,
      p.key = q.key → List.Forall₂ Point.Equal p.shape.vertices q.shape.vertices) (k : Key) :
    (∃ p ∈ (a.after as).tick.2.store.toList, p.key = k) ↔
      ∃ q ∈ (b.after bs).tick.2.store.toList, q.key = k := by
  obtain ⟨hrunA, hclosedA⟩ := hdryA.rewritings_and_closed
  obtain ⟨hrunB, hclosedB⟩ := hdryB.rewritings_and_closed
  rw [← hregion] at hrunB hclosedB
  have hA := Store.consistent_of_rewritings hrunA ha.consistent
  have hB := Store.consistent_of_rewritings hrunB hb.consistent
  have hvertices : ∀ k p q, (a.after as).tick.2.store.lookup k = some p →
      (b.after bs).tick.2.store.lookup k = some q → p.shape.vertices = q.shape.vertices := by
    intro k p q hp hq
    obtain ⟨hpmem, hpkey⟩ := (hA.lookup_iff k p).mp hp
    obtain ⟨hqmem, hqkey⟩ := (hB.lookup_iff k q).mp hq
    have hagree := hequal p hpmem q hqmem (hpkey.trans hqkey.symm)
    exact Store.vertices_eq_of_rewritings ha.consistent hb.consistent hshapes hrunA hrunB hp hq
      hagree
  rw [← hA.hasKey_iff_mem, ← hB.hasKey_iff_mem]
  constructor
  · refine Store.hasKey_of_rewritings hrunA hB ha.consistent ?_ ?_ ?_ k
    · exact hclosedB.mono fun p hp => (hproductions p).mp hp
    · intro k hk
      exact Store.hasKey_of_rewritings_mono hrunB (hshapes.hasKey ha.consistent hb.consistent hk)
    · exact fun k p q hp hq => (hvertices k q p hq hp).symm
  · refine Store.hasKey_of_rewritings hrunB hA hb.consistent ?_ ?_ ?_ k
    · exact hclosedA.mono fun p hp => (hproductions p).mpr hp
    · intro k hk
      exact Store.hasKey_of_rewritings_mono hrunA
        (hshapes.symm.hasKey hb.consistent ha.consistent hk)
    · exact hvertices

/-! ### Three squares -/

/-- A growth that adds squares to the right and to the left, running, with a square in the middle of
a canvas for three. -/
def threeSquares : Growth :=
  (new (.canvas 3 1) [squareBeside 1 1 0, squareBeside 2 (-1) 0] 1 none).after
    [.plant (square 1 0 1), .start .weighted]

/-- The same with the productions the other way round and another generator, not running yet. -/
def threeSquares' : Growth :=
  (new (.canvas 3 1) [squareBeside 2 (-1) 0, squareBeside 1 1 0] 2 none).after
    [.plant (square 1 0 1)]

/-- A run that is interrupted. -/
def interruptedRun : List Command := [.start .first, .tick, .stop, .start .weighted, .tick]

theorem exhausted_runs_of_threeSquares :
    threeSquares.RunsDry [.tick, .tick] ∧ threeSquares'.RunsDry interruptedRun ∧
    ∀ k, (∃ p ∈ (threeSquares.after [.tick, .tick]).tick.2.store.toList, p.key = k) ↔
      ∃ q ∈ (threeSquares'.after interruptedRun).tick.2.store.toList, q.key = k := by
  have hruns : (threeSquares.after [.tick, .tick]).tick.1 = .exhausted ∧
      (threeSquares'.after interruptedRun).tick.1 = .exhausted ∧
      ∀ p ∈ (threeSquares.after [.tick, .tick]).tick.2.store.toList,
        ∀ q ∈ (threeSquares'.after interruptedRun).tick.2.store.toList,
          p.key = q.key → List.Forall₂ Point.Equal p.shape.vertices q.shape.vertices := by
    decide +kernel
  obtain ⟨hx, hx', hequal⟩ := hruns
  have hdry : threeSquares.RunsDry [.tick, .tick] := by
    refine ⟨fun _ => rfl, ?_, hx⟩
    intro c hc
    simp only [List.mem_pair, or_self] at hc
    exact hc ▸ .tick
  have hdry' : threeSquares'.RunsDry interruptedRun := by
    refine ⟨?_, ?_, hx'⟩
    · intro hrunning
      cases hrunning
    · simp only [interruptedRun, List.mem_cons, List.not_mem_nil, or_false]
      rintro c (rfl | rfl | rfl | rfl | rfl) <;> constructor <;> rfl
  have hproductions : ∀ p, p ∈ threeSquares.productions ↔ p ∈ threeSquares'.productions := by
    intro p
    rw [threeSquares, threeSquares', productions_after (by simp [Command.KeepsProductions]),
      productions_after (by simp [Command.KeepsProductions])]
    simp only [new, List.mem_pair]
    exact or_comm
  have hregion : threeSquares.region = threeSquares'.region := by
    rw [threeSquares, threeSquares', region_after, region_after]
    rfl
  have hstore : threeSquares.store = threeSquares'.store := rfl
  refine ⟨hdry, hdry', ?_⟩
  exact exhausted_runs_end_with_the_same_keys ⟨_, _, _, _, _, rfl⟩ ⟨_, _, _, _, _, rfl⟩ hregion
    hproductions (hstore ▸ fun _ => Iff.rfl) hdry hdry' hequal

end Growth

end ShapeGrammar
