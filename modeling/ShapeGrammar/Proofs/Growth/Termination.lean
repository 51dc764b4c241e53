import Mathlib
import ShapeGrammar.Proofs.Growth.History
import ShapeGrammar.Proofs.Shape.Rotation
import ShapeGrammar.Worker

/-!
# Every run ends

Nothing counts the ticks of a run, but each of them uses something up.  What a tick adds has as many
vertices as the result it is an image of, and there are only finitely many keys of that size,
because there are only finitely many doubles.  So the free keys that are as long as some result,
`Growth.freeKeys`, are a finite set, and a tick that applies a proposal takes at least one of them
(`Growth.freeKeys_tick_ssubset`), whichever proposal it is.  Their number `Growth.room` bounds the
length of the run, and with it the number of times that a worker has to wake up
(`Shared.patience_wake_lt`).
-/

namespace ShapeGrammar

/-! ### There are finitely many keys of a size -/

instance finiteFloat : Finite Float :=
  Finite.of_injective Float.toBits fun _ _ => Key.toBits_injective

instance : Finite Point := by
  refine Finite.of_injective (fun p : Point => (p.x, p.y)) ?_
  rintro ⟨x, y⟩ ⟨x', y'⟩ h
  obtain ⟨rfl, rfl⟩ := Prod.mk.inj h
  rfl

namespace Key

/-- A key has all vertices of its outline. -/
@[simp] lemma length_ofSnapped (ps : List Point) :
    (ofSnapped ps).vertices.length = ps.length := (ofSnapped_perm ps).length_eq

/-- There are finitely many keys up to any number of vertices. -/
lemma finite_length_le (n : ℕ) : {k : Key | k.vertices.length ≤ n}.Finite := by
  have hlists := List.finite_length_le Point n
  refine Set.Finite.of_finite_image (f := vertices) (hlists.subset ?_) ?_
  · rintro _ ⟨k, hk, rfl⟩
    exact hk
  · rintro ⟨ps⟩ - ⟨qs⟩ - rfl
    rfl

end Key

/-- The image of a shape has as many vertices in its key as the shape. -/
lemma Shape.length_key_under (s : Shape) (t : Similarity) :
    (s.under t).key.vertices.length = s.vertices.length := by
  rw [key, Key.length_ofSnapped, List.length_map]
  exact List.length_map _

namespace Growth

variable {g g' : Growth} {report : Report}

/-! ### What a tick uses up -/

/-- The free keys that an image of a result can have: those with as many vertices as a result. -/
def freeKeys (g : Growth) : Set Key :=
  {k | g.store.hasKey k = false ∧
    ∃ p ∈ g.productions, ∃ r ∈ p.result, k.vertices.length = r.vertices.length}

/-- The number of keys that are left to be taken. -/
noncomputable def room (g : Growth) : ℕ := g.freeKeys.ncard

/-- There are finitely many free keys of the size of a result. -/
lemma finite_freeKeys (g : Growth) : g.freeKeys.Finite := by
  have hsizes := g.productions.finite_toSet.biUnion fun p _ =>
    p.result.finite_toSet.biUnion fun r _ => Key.finite_length_le r.vertices.length
  refine hsizes.subset ?_
  rintro k ⟨-, p, hp, r, hr, hlength⟩
  exact Set.mem_biUnion hp (Set.mem_biUnion hr (Nat.le_of_eq hlength))

/-- A tick that applies a proposal takes a key of the size of a result, and frees none. -/
lemma freeKeys_tick_ssubset (h : g.tick.1 = .applied report) :
    g.tick.2.freeKeys ⊂ g.freeKeys := by
  rcases g.tick_cases with ⟨-, heq⟩ | ⟨-, generator, ⟨-, heq⟩ | ⟨c, hc, heq⟩⟩
  · rw [heq] at h
    cases h
  · rw [heq] at h
    cases h
  · obtain ⟨p, hp, anchor, -, hpropose⟩ := exists_propose_of_mem_search hc
    obtain ⟨added, hext, -, hne, hshapes, -⟩ := exists_extends_apply hpropose
    have hstore : g.tick.2.store = (g.apply c).2.store := by rw [heq]
    have hproductions : g.tick.2.productions = g.productions := g.sameRules_tick.productions
    constructor
    · rintro k ⟨hfree, hsize⟩
      rw [hproductions] at hsize
      refine ⟨?_, hsize⟩
      rw [Bool.eq_false_iff] at hfree ⊢
      intro htaken
      rw [hstore] at hfree
      exact hfree (hext.hasKey_mono htaken)
    · intro hsub
      obtain ⟨q, hq⟩ := List.exists_mem_of_ne_nil _ hne
      obtain ⟨-, -, r, hr, hshape⟩ := Search.of_mem_additions hpropose (hshapes q hq)
      have hlength : q.key.vertices.length = r.vertices.length := by
        rw [hext.key_eq q hq, hshape, r.length_key_under]
      have hmem := hsub ⟨hext.keys_fresh q hq, p, hp, r, hr, hlength⟩
      have htaken : (g.apply c).2.store.hasKey q.key = true :=
        (hext.hasKey_iff_or q.key).mpr (Or.inr ⟨q, hq, rfl⟩)
      have hfree := hmem.1
      rw [hstore, htaken] at hfree
      exact Bool.noConfusion hfree

/-- A tick that applies a proposal leaves less room. -/
lemma room_tick_lt (h : g.tick.1 = .applied report) : g.tick.2.room < g.room :=
  Set.ncard_lt_ncard (freeKeys_tick_ssubset h) g.finite_freeKeys

/-! ### Runs -/

/-- A growth that runs applies something in a tick and runs on, or its run is over and it is
idle. -/
lemma tick_of_running (hrun : g.phase = .running) :
    (∃ report, g.tick.1 = .applied report ∧ g.tick.2.phase = .running) ∨
      g.tick.1 = .exhausted ∧ g.tick.2.phase = .idle := by
  rcases g.tick_cases with ⟨hidle, -⟩ | ⟨-, generator, ⟨-, heq⟩ | ⟨c, -, heq⟩⟩
  · rw [hrun] at hidle
    cases hidle
  · rw [heq]
    exact Or.inr ⟨rfl, rfl⟩
  · rw [heq]
    exact Or.inl ⟨_, rfl, hrun⟩

/-- A run goes on after a tick that applies something. -/
lemma run_succ_of_applied (h : g.tick.1 = .applied report) (n : ℕ) :
    g.run (n + 1) = (.applied report :: (g.tick.2.run n).1, (g.tick.2.run n).2) := by
  have htick : g.tick = (.applied report, g.tick.2) := Prod.ext h rfl
  rw [run, htick]

/-- A run is over after a tick that finds nothing. -/
lemma run_succ_of_exhausted (h : g.tick.1 = .exhausted) (n : ℕ) :
    g.run (n + 1) = ([.exhausted], g.tick.2) := by
  have htick : g.tick = (.exhausted, g.tick.2) := Prod.ext h rfl
  rw [run, htick]

/-- Whatever its store, its productions, its region, its policy, its limit and its generator, a
growth that runs comes to an end: ticks apply proposals, no more of them than there are free keys of
the size of a result, and the next tick after them reports that nothing is left, whereupon the
growth is idle. -/
theorem run_ends (hrun : g.phase = .running) :
    ∃ (reports : List Report) (final : Growth), reports.length ≤ g.room ∧ final.phase = .idle ∧
      ∀ n, reports.length < n → g.run n = (reports.map Outcome.applied ++ [.exhausted], final) := by
  induction hroom : g.room using Nat.strong_induction_on generalizing g with
  | _ room ih =>
    rcases tick_of_running hrun with ⟨report, happlied, hrun'⟩ | ⟨hexhausted, hidle⟩
    · have hlt : g.tick.2.room < room := hroom ▸ room_tick_lt happlied
      obtain ⟨reports, final, hlength, hfinal, hall⟩ := ih _ hlt hrun' rfl
      refine ⟨report :: reports, final, ?_, hfinal, ?_⟩
      · rw [List.length_cons]
        omega
      · rintro (_ | n) hn
        · exact absurd hn (Nat.not_lt_zero _)
        · have hrest := hall n (Nat.lt_of_succ_lt_succ hn)
          rw [run_succ_of_applied happlied, hrest]
          rfl
    · refine ⟨[], g.tick.2, Nat.zero_le _, hidle, ?_⟩
      rintro (_ | n) hn
      · exact absurd hn (Nat.lt_irrefl 0)
      · exact run_succ_of_exhausted hexhausted n

/-- A running growth on a canvas for four squares, with room for three more of them. -/
def growingRow : Growth :=
  (new (.canvas 4 1) [squareBeside 1 1 0] 7 none).after [.plant (square 0 0 1), .start .weighted]

theorem growingRow_ends :
    growingRow.phase = .running ∧ (growingRow.run 4).1.length = 4 ∧
    ∃ (reports : List Report) (final : Growth), final.phase = .idle ∧
      ∀ n, reports.length < n →
        growingRow.run n = (reports.map Outcome.applied ++ [.exhausted], final) := by
  have hrow : growingRow.phase = .running ∧ (growingRow.run 4).1.length = 4 := by
    decide +kernel
  obtain ⟨reports, final, -, hfinal, hall⟩ := run_ends hrow.1
  exact ⟨hrow.1, hrow.2, reports, final, hfinal, hall⟩

end Growth

/-! ### Waiting for a worker -/

namespace Shared

/-- How often the worker can still find the growth running. -/
noncomputable def patience (s : Shared) : ℕ := if s.isRunning then s.growth.room + 1 else 0

/-- A worker that finds the growth running ticks it. -/
lemma wake_of_running {s : Shared} (h : (s.alive && s.isRunning) = true) :
    s.wake.alive = true ∧ s.wake.growth = s.growth.tick.2 := by
  have hrun : (s.alive && s.growth.isRunning) = true := h
  rw [wake, if_pos hrun]
  exact ⟨(Bool.and_eq_true_iff.mp h).1, rfl⟩

lemma patience_wake_lt (s : Shared) (h : (s.alive && s.isRunning) = true) :
    s.wake.patience < s.patience := by
  have hrun : s.isRunning = true := (Bool.and_eq_true_iff.mp h).2
  obtain ⟨-, hwake⟩ := wake_of_running h
  rw [patience, patience, if_pos hrun, isRunning, hwake]
  rcases Growth.tick_of_running (of_decide_eq_true hrun) with ⟨report, happlied, -⟩ | ⟨-, hidle⟩
  · have hless := Growth.room_tick_lt happlied
    split <;> omega
  · have hover : ¬ s.growth.tick.2.isRunning = true := by
      rw [Growth.isRunning, hidle]
      decide
    rw [if_neg hover]
    exact Nat.succ_pos _

end Shared

end ShapeGrammar
