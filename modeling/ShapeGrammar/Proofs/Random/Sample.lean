import Mathlib.Data.List.Nodup
import Mathlib.Data.List.Perm.Subperm
import ShapeGrammar.Proofs.Selection
import ShapeGrammar.Random.Sample

/-!
# Samples are without repetition

Both ways of drawing a sample keep a list of different numbers.  Shuffling exchanges places of the
list of all numbers, so that its front has no repetition.  Collecting adds one number at a time: the
one drawn, or, if that is there already, the newest candidate, which is larger than all numbers so
far.  So a sample of any size is what it should be (`Generator.isSample_sample`), and a sample as
large as the population is a permutation of it (`Generator.IsSample.perm_range`).

Nothing else is needed of a way to draw samples (`Sampler.Exact`): a `Cycle` that is at the end of a
pass draws one and goes through it (`Cycle.exists_draw_sample`).
-/

namespace ShapeGrammar

open scoped List

namespace Generator

/-- The list consists of `amount` different numbers below `length`. -/
structure IsSample (length amount : ℕ) (xs : List ℕ) : Prop where
  nodup : xs.Nodup
  length_eq : xs.length = amount
  lt : ∀ x ∈ xs, x < length

/-- A sample as large as its population is a permutation of it. -/
lemma IsSample.perm_range {n : ℕ} {xs : List ℕ} (h : IsSample n n xs) :
    xs.Perm (List.range n) := by
  have hsub : xs ⊆ List.range n := fun x hx => List.mem_range.mpr (h.lt x hx)
  have hlength : (List.range n).length = xs.length := List.length_range.trans h.length_eq.symm
  exact (h.nodup.subperm hsub).perm_of_length_le (Nat.le_of_eq hlength)

/-! ### Shuffling -/

/-- A step of the shuffle exchanges two places. -/
lemma shuffleStep_perm (length : ℕ) (acc : Array ℕ × Generator) (i : ℕ) :
    (shuffleStep length acc i).1.toList.Perm acc.1.toList := by
  unfold shuffleStep Array.swapIfInBounds
  dsimp only
  split
  · split
    · exact (Array.swap_perm _ _).toList
    · exact List.Perm.refl _
  · exact List.Perm.refl _

/-- The shuffle permutes the list it is started on. -/
lemma foldl_shuffleStep_perm (length : ℕ) (is : List ℕ) (acc : Array ℕ × Generator) :
    (is.foldl (shuffleStep length) acc).1.toList.Perm acc.1.toList := by
  induction is generalizing acc with
  | nil => exact List.Perm.refl _
  | cons i is ih => exact (ih _).trans (shuffleStep_perm length acc i)

/-- The front of a shuffled list of all numbers is a sample. -/
lemma isSample_shuffled {length amount : ℕ} (h : amount ≤ length) (g : Generator) :
    IsSample length amount (g.shuffled length amount).1 := by
  have hperm := foldl_shuffleStep_perm length (List.range amount) (Array.range length, g)
  rw [Array.toList_range] at hperm
  refine ⟨?_, ?_, ?_⟩
  · have hnodup := hperm.nodup_iff.mpr List.nodup_range
    exact hnodup.sublist (List.take_sublist _ _)
  · have hlength := hperm.length_eq
    rw [List.length_range] at hlength
    change (List.take amount _).length = amount
    rw [List.length_take, hlength, Nat.min_eq_left h]
  · intro x hx
    exact List.mem_range.mp (hperm.mem_iff.mp (List.mem_of_mem_take hx))

/-! ### Collecting -/

/-- Replacing `t` by `j` in a list that has it, and adding `t`, is adding `j`. -/
lemma cons_replace_perm {t j : ℕ} {xs : List ℕ} (h : t ∈ xs) :
    (t :: xs.replace t j).Perm (j :: xs) := by
  induction xs with
  | nil => exact absurd h List.not_mem_nil
  | cons x xs ih =>
    rw [List.replace_cons]
    by_cases htx : t = x
    · subst htx
      rw [beq_self_eq_true]
      exact List.Perm.swap j t xs
    · have hmem : t ∈ xs := (List.mem_cons.mp h).resolve_left htx
      rw [beq_eq_false_iff_ne.mpr htx]
      calc
        t :: x :: xs.replace t j ~ x :: t :: xs.replace t j := List.Perm.swap x t _
        _ ~ x :: j :: xs := (ih hmem).cons x
        _ ~ j :: x :: xs := List.Perm.swap j x xs

/-- A number drawn up to `j` makes a sample of numbers below `j` a sample of one more number. -/
lemma isSample_collectStep {j k : ℕ} {acc : List ℕ × Generator} (h : IsSample j k acc.1) :
    IsSample (j + 1) (k + 1) (collectStep acc j).1 := by
  have hdrawn : (acc.2.below (j + 1)).1 < j + 1 := acc.2.below_lt (Nat.succ_pos j)
  have heq : (collectStep acc j).1 =
      acc.1.replace (acc.2.below (j + 1)).1 j ++ [(acc.2.below (j + 1)).1] := rfl
  rw [heq]
  generalize (acc.2.below (j + 1)).1 = t at hdrawn
  -- What is added is `t` if it is new, and otherwise `j`, which is above all numbers so far.
  have hadded : ∃ x, x ∉ acc.1 ∧ x < j + 1 ∧ (acc.1.replace t j ++ [t]) ~ x :: acc.1 := by
    by_cases ht : t ∈ acc.1
    · have hj : j ∉ acc.1 := fun hj => absurd (h.lt j hj) (Nat.lt_irrefl j)
      exact ⟨j, hj, Nat.lt_succ_self j,
        (List.perm_append_singleton t _).trans (cons_replace_perm ht)⟩
    · rw [List.replace_of_not_mem ht]
      exact ⟨t, ht, hdrawn, List.perm_append_singleton t _⟩
  obtain ⟨x, hx, hlt, hperm⟩ := hadded
  refine ⟨?_, ?_, ?_⟩
  · exact hperm.nodup_iff.mpr (h.nodup.cons hx)
  · rw [hperm.length_eq, List.length_cons, h.length_eq]
  · intro y hy
    rcases List.mem_cons.mp (hperm.mem_iff.mp hy) with rfl | hmem
    · exact hlt
    · exact Nat.lt_succ_of_lt (h.lt y hmem)

/-- Collecting `k` numbers with the candidates from `b` on gives a sample of the numbers below
`b + k`. -/
lemma isSample_foldl_collectStep (b k : ℕ) (g : Generator) :
    IsSample (b + k) k (((List.range k).map (b + ·)).foldl collectStep ([], g)).1 := by
  induction k with
  | zero => exact ⟨List.nodup_nil, rfl, by simp⟩
  | succ k ih =>
    rw [List.range_succ, List.map_append, List.foldl_append]
    exact isSample_collectStep ih

/-- Numbers collected one by one are a sample. -/
lemma isSample_collected {length amount : ℕ} (h : amount ≤ length) (g : Generator) :
    IsSample length amount (g.collected length amount).1 := by
  have hsample := isSample_foldl_collectStep (length - amount) amount g
  rwa [Nat.sub_add_cancel h] at hsample

/-- However it is drawn, a sample consists of as many different numbers as it should, below its
bound. -/
lemma isSample_sample {length amount : ℕ} (h : amount ≤ length) (g : Generator) :
    IsSample length amount (sample length amount g).1 := by
  unfold sample
  split
  · exact isSample_shuffled h g
  · exact isSample_collected h g

end Generator

/-- What the sampler draws are samples: as many different numbers as are wanted, all of them of the
population. -/
def Sampler.Exact (sampler : Sampler) : Prop :=
  ∀ length amount g, amount ≤ length → Generator.IsSample length amount (sampler length amount g).1

lemma Generator.exact_sample : Sampler.Exact Generator.sample := fun _ _ g h => isSample_sample h g

/-! ### Passes of a cycle -/

namespace Cycle

/-- Within a pass, a cycle gives its next number and draws nothing. -/
lemma draw_of_pass {population i wanted : ℕ} {pass : List ℕ} {sampler : Sampler}
    (hpopulation : population ≠ 0) (hwanted : wanted ≠ 0) (g : Generator) :
    (Cycle.mk population (i :: pass) sampler).draw wanted g =
      (some (i, ⟨population, pass, sampler⟩), g) := by
  simp [draw, hpopulation, hwanted]

/-- At the end of a pass, a cycle draws a sample, as large as the population if so much is wanted,
and starts to go through it. -/
lemma exists_draw_sample {population wanted : ℕ} {sampler : Sampler} (hsampler : sampler.Exact)
    (hpopulation : population ≠ 0) (hwanted : wanted ≠ 0) (g : Generator) :
    ∃ i pass g', (ofSize population sampler).draw wanted g =
        (some (i, ⟨population, pass, sampler⟩), g') ∧
      Generator.IsSample population (min wanted population) (i :: pass) := by
  have hsample := hsampler population (min wanted population) g (Nat.min_le_right _ _)
  rcases hdraw : sampler population (min wanted population) g with ⟨xs, g'⟩
  rw [hdraw] at hsample
  cases xs with
  | nil =>
    have hlength := hsample.length_eq
    rw [List.length_nil] at hlength
    omega
  | cons i pass =>
    refine ⟨i, pass, g', ?_, hsample⟩
    simp [draw, ofSize, hpopulation, hwanted, hdraw]

end Cycle

end ShapeGrammar
