import ShapeGrammar.Proofs.Number.Error
import ShapeGrammar.Proofs.Shape.Exact

/-!
# Comparing values

Doubles that are finite are compared as their values are (`Number.HasValue.le_iff`).  So a region
whose edges are finite holds a point exactly if the value of the point lies between those of the
edges (`Region.holds_iff`), and it holds every shape in the box around three of its points.
-/

namespace ShapeGrammar

namespace Number

/-- Of two numbers with canonical mantissas, the smaller one has the smaller exponent, or the same
exponent and the smaller mantissa. -/
lemma Canonical.toLex_lt {m n : ℕ} {e f : ℤ} (hm : Canonical m e) (hn : Canonical n f)
    (h : scaled m e < scaled n f) : toLex (e, (m : ℤ)) < toLex (f, (n : ℤ)) := by
  rw [Prod.Lex.toLex_lt_toLex]
  rcases (hm.exponent_mono hn h.le).lt_or_eq with hlt | rfl
  · exact Or.inl hlt
  · unfold scaled at h
    have hmant : (m : ℚ) < n := lt_of_mul_lt_mul_right h (by positivity)
    exact Or.inr ⟨rfl, Nat.cast_lt.mpr (by exact_mod_cast hmant)⟩

/-- A smaller value has a lower place. -/
lemma HasValue.level_lt {x y : Float} {a b : ℚ} (hx : HasValue x a) (hy : HasValue y b)
    (h : a < b) : level x < level y := by
  obtain ⟨s, hunpack, rfl⟩ | ⟨s, m, e, hm, hunpack, hcan, rfl⟩ := hx.cases <;>
    obtain ⟨t, hunpack', rfl⟩ | ⟨t, n, f, hn, hunpack', hcan', rfl⟩ := hy.cases <;>
    rw [level, level, hunpack, hunpack']
  · exact absurd h (lt_irrefl 0)
  · cases t with
    | positive => exact Prod.Lex.toLex_lt_toLex.mpr (Or.inl Int.zero_lt_one)
    | negative => exact absurd h (neg_neg_of_pos (scaled_pos hn f)).not_gt
  · cases s with
    | positive => exact absurd h (scaled_pos hm e).not_gt
    | negative => exact Prod.Lex.toLex_lt_toLex.mpr (Or.inl (Int.neg_neg_of_pos Int.zero_lt_one))
  · cases s with
    | positive =>
      cases t with
      | positive => exact Prod.Lex.toLex_lt_toLex.mpr (Or.inr ⟨rfl, hcan.toLex_lt hcan' h⟩)
      | negative =>
        have hneg := (neg_neg_of_pos (scaled_pos hn f)).trans (scaled_pos hm e)
        exact absurd h hneg.not_gt
    | negative =>
      cases t with
      | positive =>
        have hclass : (-1 : ℤ) < 1 := by decide
        exact Prod.Lex.toLex_lt_toLex.mpr (Or.inl hclass)
      | negative =>
        -- Below zero, exponents and mantissas go the other way round.
        have hlex := Prod.Lex.toLex_lt_toLex.mp (hcan'.toLex_lt hcan (neg_lt_neg_iff.mp h))
        refine Prod.Lex.toLex_lt_toLex.mpr (Or.inr ⟨rfl, Prod.Lex.toLex_lt_toLex.mpr ?_⟩)
        rcases hlex with hlt | ⟨heq, hlt⟩
        · exact Or.inl (neg_lt_neg hlt)
        · exact Or.inr ⟨congrArg Neg.neg heq.symm, neg_lt_neg hlt⟩

/-- Finite doubles are compared as their values are. -/
lemma HasValue.le_iff {x y : Float} {a b : ℚ} (hx : HasValue x a) (hy : HasValue y b) :
    x ≤ y ↔ a ≤ b := by
  rw [Number.le_iff (isNaN_of_isFinite hx.isFinite) (isNaN_of_isFinite hy.isFinite)]
  rcases lt_trichotomy a b with hlt | rfl | hgt
  · exact iff_of_true (hx.level_lt hy hlt).le hlt.le
  · exact iff_of_true (hx.level_eq hy).le le_rfl
  · exact iff_of_false (hy.level_lt hx hgt).not_ge hgt.not_ge

lemma HasValue.lt_iff {x y : Float} {a b : ℚ} (hx : HasValue x a) (hy : HasValue y b) :
    x < y ↔ a < b := by
  have hnan := isNaN_of_isFinite hx.isFinite
  have hnan' := isNaN_of_isFinite hy.isFinite
  rw [Number.lt_iff hnan hnan', ← not_le, ← Number.le_iff hnan' hnan, hy.le_iff hx, not_le]

end Number

open Number (HasValue)

/-- What is related to a member of a list, one by one. -/
lemma exists_of_forall₂ {α β : Type} {R : α → β → Prop} {as : List α} {bs : List β}
    (h : List.Forall₂ R as bs) {a : α} (ha : a ∈ as) : ∃ b ∈ bs, R a b := by
  induction h with
  | nil => exact absurd ha List.not_mem_nil
  | @cons a' b as bs hab _ ih =>
    rcases List.mem_cons.mp ha with rfl | ha
    · exact ⟨b, List.mem_cons_self, hab⟩
    · obtain ⟨b', hb', hrel⟩ := ih ha
      exact ⟨b', List.mem_cons_of_mem b hb', hrel⟩

namespace Region

/-- The edges of a region, moved outwards by the slack, have these values. -/
structure HasEdges (r : Region) (left low right high : ℚ) : Prop where
  left : HasValue (r.minX - r.slack) left
  low : HasValue (r.minY - r.slack) low
  right : HasValue (r.maxX + r.slack) right
  high : HasValue (r.maxY + r.slack) high

variable {r : Region} {left low right high : ℚ} (h : r.HasEdges left low right high)

include h

/-- A region holds the points between its edges. -/
lemma HasEdges.holds_iff {p : Point} {v : ℚ × ℚ} (hp : p.HasValue v) :
    r.holds p = true ↔ (left ≤ v.1 ∧ low ≤ v.2) ∧ v.1 ≤ right ∧ v.2 ≤ high := by
  unfold holds
  simp only [Bool.and_eq_true, decide_eq_true_iff]
  rw [h.left.le_iff hp.x, h.low.le_iff hp.y, hp.x.le_iff h.right, hp.y.le_iff h.high, and_assoc]

/-- With the points `(x, y')`, `(x, y)` and `(x', y)`, a region holds every shape in the box between
them. -/
lemma HasEdges.admits_of_mem_box {s : Shape} {vs : List (ℚ × ℚ)} {x y x' y' : ℚ}
    (hs : s.HasValues vs) (hlow : left ≤ x ∧ low ≤ y) (hhigh : x' ≤ right ∧ y' ≤ high)
    (hbox : ∀ v ∈ vs, (x ≤ v.1 ∧ y ≤ v.2) ∧ v.1 ≤ x' ∧ v.2 ≤ y') : r.admits s = true := by
  unfold admits
  rw [List.all_eq_true]
  intro p hp
  obtain ⟨v, hv, hvalue⟩ := exists_of_forall₂ hs hp
  obtain ⟨hbelow, habove⟩ := hbox v hv
  exact (h.holds_iff hvalue).mpr
    ⟨⟨hlow.1.trans hbelow.1, hlow.2.trans hbelow.2⟩, habove.1.trans hhigh.1,
      habove.2.trans hhigh.2⟩

end Region

end ShapeGrammar
