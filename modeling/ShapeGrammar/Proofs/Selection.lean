import Mathlib.Data.Nat.Notation
import Mathlib.Tactic.Lemma
import ShapeGrammar.Growth

/-!
# What a choice answers

A number drawn below `n` is below `n`, for every `n` above zero and every state of the generator
(`Generator.below_lt`).  So every way of choosing among proposals answers with a position in their
list, and answers with nothing only if the list is empty (`Policy.choose_cases`), whatever the
scores are.
-/

namespace ShapeGrammar

/-- Adding `c` to the low word of `a`, with its carry, leaves the high word of `a + c`. -/
lemma Generator.add_carry (a c : ℕ) :
    a / UInt32.size + (a % UInt32.size + c) / UInt32.size = (a + c) / UInt32.size := by
  rw [Nat.add_comm, ← Nat.add_mul_div_left _ _ (by decide : 0 < UInt32.size)]
  have hsplit := Nat.mod_add_div a UInt32.size
  congr 1
  omega

/-- A number drawn below `n` is below `n`. -/
lemma Generator.below_lt {n : ℕ} (hn : 0 < n) (g : Generator) : (g.below n).1 < n := by
  have hbound : ∀ w : UInt32, w.toNat * n / UInt32.size < n := by
    intro w
    rw [Nat.div_lt_iff_lt_mul (by decide), Nat.mul_comm n]
    exact Nat.mul_lt_mul_of_pos_right w.toNat_lt hn
  unfold below
  dsimp only
  split
  · have hfirst : g.word.1.toNat * n + n ≤ UInt32.size * n := by
      rw [← Nat.succ_mul]
      exact Nat.mul_le_mul_right n g.word.1.toNat_lt
    have hsecond := hbound g.word.2.word.1
    rw [add_carry]
    refine Nat.div_lt_of_lt_mul ?_
    omega
  · exact hbound g.word.1

namespace Selection

/-- A uniform choice is a position, unless there is nothing to choose. -/
lemma uniform_cases (n : ℕ) (g : Generator) :
    n = 0 ∧ uniform n g = (none, g) ∨ ∃ i < n, (uniform n g).1 = some i := by
  unfold uniform
  by_cases hn : n = 0
  · rw [if_pos hn]
    exact Or.inl ⟨hn, rfl⟩
  · rw [if_neg hn]
    exact Or.inr ⟨_, g.below_lt (Nat.pos_of_ne_zero hn), rfl⟩

/-- A walk through weights ends at one of them. -/
lemma walk_lt {ws : List Float} (h : ws ≠ []) (rest : Float) (i : ℕ) :
    walk rest i ws < i + ws.length := by
  induction ws generalizing rest i with
  | nil => exact absurd rfl h
  | cons w ws ih =>
    rw [walk, List.length_cons]
    split
    · omega
    · cases ws with
      | nil =>
        rw [walk]
        omega
      | cons w' ws =>
        have hlt := ih (List.cons_ne_nil w' ws) (rest - w) (i + 1)
        omega

/-- A weighted choice is a position, unless there is nothing to choose. -/
lemma weighted_cases (ws : List Float) (g : Generator) :
    ws = [] ∧ weighted ws g = (none, g) ∨ ∃ i < ws.length, (weighted ws g).1 = some i := by
  unfold weighted
  cases ws with
  | nil => exact Or.inl ⟨rfl, rfl⟩
  | cons w ws =>
    right
    rw [if_neg (by simp)]
    dsimp only
    split
    · rcases uniform_cases (w :: ws).length g with ⟨hzero, -⟩ | hsome
      · exact absurd hzero (Nat.succ_ne_zero ws.length)
      · exact hsome
    · refine ⟨_, ?_, rfl⟩
      have hlt := walk_lt (List.cons_ne_nil w ws) (g.unit.1 * total (w :: ws)) 0
      rwa [Nat.zero_add] at hlt

end Selection

/-- A policy chooses a position of the list, unless the list is empty. -/
lemma Policy.choose_cases (policy : Policy) (proposals : List Proposal) (g : Generator) :
    proposals = [] ∧ policy.choose proposals g = (none, g) ∨
      ∃ i < proposals.length, (policy.choose proposals g).1 = some i := by
  cases policy with
  | weighted =>
    simpa [choose] using Selection.weighted_cases (proposals.map Proposal.score) g
  | first =>
    cases proposals with
    | nil => exact Or.inl ⟨rfl, rfl⟩
    | cons c cs => exact Or.inr ⟨0, Nat.succ_pos _, rfl⟩
  | stochastic count =>
    rcases Selection.uniform_cases proposals.length g with ⟨hzero, hnone⟩ | hsome
    · exact Or.inl ⟨List.length_eq_zero_iff.mp hzero, hnone⟩
    · exact Or.inr hsome

end ShapeGrammar
