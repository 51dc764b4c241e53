import Mathlib.Algebra.Order.Floor.Div
import ShapeGrammar.Proofs.Random.Sample

/-!
# Cycles draw evenly

`Cycle.Gives` says which numbers a cycle gives when it is asked for them one after the other and
told each time how many are still wanted.  What others draw from the generator in between is left
open.

A cycle in the middle of a pass first gives the rest of the pass, and then a sample as large as its
population, or as large as what is still wanted (`Cycle.Gives.refill`).  So the numbers given fall
into blocks without repetition (`Cycle.Gives.inBlocks`), and no number is given more often than
another by more than one (`InBlocks.spreadEvenly`).
-/

namespace ShapeGrammar

open scoped List

/-! ### Numbers in blocks without repetition -/

/-- The numbers are below `n`, and those from one multiple of `n` up to the next are different. -/
structure InBlocks (n : ℕ) (xs : List ℕ) : Prop where
  lt : ∀ x ∈ xs, x < n
  block_nodup : ∀ b, ((xs.drop (b * n)).take n).Nodup

namespace InBlocks

variable {n : ℕ} {xs ys : List ℕ}

/-- What follows a block is in blocks. -/
lemma drop (h : InBlocks n xs) : InBlocks n (xs.drop n) where
  lt x hx := h.lt x (List.mem_of_mem_drop hx)
  block_nodup b := by
    have hnodup := h.block_nodup (b + 1)
    rwa [Nat.succ_mul, Nat.add_comm, ← List.drop_drop] at hnodup

/-- A whole block consists of all numbers below `n`. -/
lemma take_perm (h : InBlocks n xs) (hlength : n ≤ xs.length) : xs.take n ~ List.range n := by
  have hnodup := h.block_nodup 0
  rw [Nat.zero_mul, List.drop_zero] at hnodup
  refine Generator.IsSample.perm_range ⟨hnodup, List.length_take_of_le hlength, ?_⟩
  exact fun x hx => h.lt x (List.mem_of_mem_take hx)

/-- A list with a whole block has every number below `n`. -/
lemma mem_of_lt (h : InBlocks n xs) (hlength : n ≤ xs.length) {i : ℕ} (hi : i < n) : i ∈ xs :=
  List.mem_of_mem_take ((h.take_perm hlength).mem_iff.mpr (List.mem_range.mpr hi))

/-- A sample, followed by nothing unless it is as large as the population, and then by what is in
blocks, is in blocks. -/
lemma append (hsample : Generator.IsSample n (min (xs ++ ys).length n) xs) (h : InBlocks n ys) :
    InBlocks n (xs ++ ys) := by
  have hlength := hsample.length_eq
  rw [List.length_append] at hlength
  refine ⟨?_, fun b => ?_⟩
  · intro x hx
    rcases List.mem_append.mp hx with hx | hx
    · exact hsample.lt x hx
    · exact h.lt x hx
  · rcases Nat.lt_or_ge xs.length n with hshort | hlong
    · -- There is nothing after a sample that is smaller than the population.
      obtain rfl : ys = [] := List.length_eq_zero_iff.mp (by omega)
      rw [List.append_nil]
      exact hsample.nodup.sublist ((List.take_sublist _ _).trans (List.drop_sublist _ _))
    · obtain rfl : xs.length = n := by omega
      cases b with
      | zero =>
        rw [Nat.zero_mul, List.drop_zero, List.take_left]
        exact hsample.nodup
      | succ b =>
        rw [Nat.succ_mul, Nat.add_comm, ← List.drop_drop, List.drop_left]
        exact h.block_nodup b

end InBlocks

/-- The numbers are spread evenly over those below `n`: they are in blocks without repetition, and
each number below `n` is among them as often as the length of the list divided by `n` says, rounded
down or up. -/
structure SpreadEvenly (n : ℕ) (xs : List ℕ) : Prop extends InBlocks n xs where
  count_eq : ∀ i < n, xs.count i = xs.length / n ∨ xs.count i = xs.length ⌈/⌉ n

/-- Numbers in blocks are spread evenly. -/
lemma InBlocks.spreadEvenly {n : ℕ} {xs : List ℕ} (h : InBlocks n xs) : SpreadEvenly n xs := by
  refine ⟨h, fun i hi => ?_⟩
  have hn : 0 < n := Nat.zero_lt_of_lt hi
  rw [Nat.ceilDiv_eq_add_pred_div]
  induction hlength : xs.length using Nat.strong_induction_on generalizing xs with
  | _ k ih =>
    subst hlength
    rcases Nat.lt_or_ge xs.length n with hshort | hlong
    · -- A list shorter than a block has every number at most once.
      have hnodup := h.block_nodup 0
      rw [Nat.zero_mul, List.drop_zero, List.take_of_length_le hshort.le] at hnodup
      have hcount := List.nodup_iff_count_le_one.mp hnodup i
      rw [Nat.div_eq_of_lt hshort]
      rcases Nat.eq_zero_or_pos (xs.count i) with hzero | hpos
      · exact Or.inl hzero
      · right
        have hsome : 0 < xs.length := hpos.trans_le List.count_le_length
        rw [Nat.le_antisymm hcount hpos]
        exact (Nat.div_eq_of_lt_le (by omega) (by omega)).symm
    · have hsplit := List.take_append_drop n xs
      have hdrop : (xs.drop n).length = xs.length - n := List.length_drop
      have hblock : (xs.take n).count i = 1 := by
        rw [(h.take_perm hlong).count_eq]
        exact List.count_eq_one_of_mem List.nodup_range (List.mem_range.mpr hi)
      have hrest := ih (xs.length - n) (by omega) h.drop hdrop
      have hcount : xs.count i = (xs.drop n).count i + 1 := by
        conv_lhs => rw [← hsplit]
        rw [List.count_append, hblock, Nat.add_comm]
      have hfloor : xs.length / n = (xs.length - n) / n + 1 := Nat.div_eq_sub_div hn hlong
      have hceil : (xs.length + n - 1) / n = (xs.length - n + n - 1) / n + 1 := by
        rw [Nat.div_eq_sub_div hn (by omega)]
        congr 2
        omega
      omega

/-! ### What a cycle gives -/

namespace Cycle

/-- Asked for as many numbers as the list has, and told each time how many are still wanted, the
cycle gives the numbers of the list.  The generator may be used by others in between. -/
inductive Gives : Cycle → List ℕ → Prop
  | nil (c : Cycle) : Gives c []
  | cons {c c' : Cycle} {i : ℕ} {is : List ℕ} {g g' : Generator}
      (hdraw : c.draw (is.length + 1) g = (some (i, c'), g')) (hrest : Gives c' is) :
      Gives c (i :: is)

/-- A cycle through a population that is not empty always gives a number. -/
lemma exists_draw {c : Cycle} {wanted : ℕ} (hsampler : c.sampler.Exact)
    (hpopulation : c.population ≠ 0) (hwanted : wanted ≠ 0) (g : Generator) :
    ∃ i c' g', c.draw wanted g = (some (i, c'), g') ∧ c'.population = c.population ∧
      c'.sampler = c.sampler := by
  obtain ⟨population, _ | ⟨i, pass⟩, sampler⟩ := c
  · obtain ⟨i, pass, g', hdraw, -⟩ := exists_draw_sample hsampler hpopulation hwanted g
    exact ⟨i, _, g', hdraw, rfl, rfl⟩
  · exact ⟨i, _, g, draw_of_pass hpopulation hwanted g, rfl, rfl⟩

section Gives

variable {population : ℕ} {sampler : Sampler} (hpopulation : population ≠ 0) {pass xs : List ℕ}

include hpopulation

/-- A cycle first gives the rest of its pass. -/
lemma Gives.of_pass (h : Gives ⟨population, pass, sampler⟩ xs) (hlength : pass.length ≤ xs.length) :
    ∃ ys, xs = pass ++ ys ∧ Gives (ofSize population sampler) ys := by
  induction pass generalizing xs with
  | nil => exact ⟨xs, rfl, h⟩
  | cons i pass ih =>
    cases h with
    | nil => exact absurd hlength (Nat.not_succ_le_zero _)
    | @cons _ c' j js g g' hdraw hrest =>
      rw [draw_of_pass hpopulation (Nat.succ_ne_zero _)] at hdraw
      obtain ⟨⟨rfl, rfl⟩, rfl⟩ : (i = j ∧ Cycle.mk population pass sampler = c') ∧ g = g' := by
        simpa using hdraw
      obtain ⟨ys, rfl, hys⟩ := ih hrest (Nat.le_of_succ_le_succ hlength)
      exact ⟨ys, rfl, hys⟩

variable (hsampler : sampler.Exact)

include hsampler

/-- At the end of a pass, a cycle gives a sample, as large as its population or as what is wanted,
and after that it is at the end of a pass again. -/
lemma Gives.refill (h : Gives (ofSize population sampler) xs) :
    ∃ sample ys, xs = sample ++ ys ∧
      Generator.IsSample population (min xs.length population) sample ∧
      Gives (ofSize population sampler) ys := by
  cases h with
  | nil => exact ⟨[], [], rfl, ⟨List.nodup_nil, by simp, by simp⟩, .nil _⟩
  | @cons _ c' j js g g' hdraw hrest =>
    obtain ⟨i, pass, g'', hdraw', hsample⟩ :=
      exists_draw_sample hsampler hpopulation (Nat.succ_ne_zero js.length) g
    rw [hdraw'] at hdraw
    obtain ⟨⟨rfl, rfl⟩, rfl⟩ : (i = j ∧ Cycle.mk population pass sampler = c') ∧ g'' = g' := by
      simpa using hdraw
    have hpass : pass.length ≤ js.length := by
      have hlength := hsample.length_eq
      rw [List.length_cons] at hlength
      omega
    obtain ⟨ys, rfl, hys⟩ := hrest.of_pass hpopulation hpass
    exact ⟨i :: pass, ys, rfl, hsample, hys⟩

/-- What a cycle gives from the beginning of a pass on is in blocks without repetition. -/
lemma Gives.inBlocks (h : Gives (ofSize population sampler) xs) : InBlocks population xs := by
  induction hlength : xs.length using Nat.strong_induction_on generalizing xs with
  | _ k ih =>
    obtain ⟨sample, ys, rfl, hsample, hys⟩ := h.refill hpopulation hsampler
    refine InBlocks.append hsample ?_
    have hsize := hsample.length_eq
    rw [List.length_append] at hsize hlength
    rcases Nat.eq_zero_or_pos ys.length with hnone | hsome
    · obtain rfl := List.length_eq_zero_iff.mp hnone
      exact ⟨by simp, by simp⟩
    · exact ih ys.length (by omega) hys rfl

end Gives

end Cycle

end ShapeGrammar
