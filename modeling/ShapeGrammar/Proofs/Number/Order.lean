import Mathlib
import ShapeGrammar.Number.Exact

/-!
# The order of the doubles that are numbers

Comparisons of doubles are no order: nothing compares with not-a-number, and the two zeros are equal
without being the same.  Away from not-a-number they are the comparisons of a linear order, read off
a double by `Number.level`: first the class (negative infinity, negative, zero, positive, positive
infinity), then the exponent, then the mantissa, the latter two the other way round for negative
numbers.  A law about comparisons is then a law about `Number.level`.
-/

namespace ShapeGrammar.Number

open Float.Model (UnpackedFloat)

/-- A place on the line of the extended reals: class, exponent and mantissa. -/
abbrev Level : Type := ℤ ×ₗ ℤ ×ₗ ℤ

/-- The place of an unpacked double, meaningless for not-a-number. -/
def unpackedLevel : UnpackedFloat → Level
  | .infinity .negative => toLex (-2, toLex (0, 0))
  | .finite .negative m e _ => toLex (-1, toLex (-e, -m))
  | .zero _ => toLex (0, toLex (0, 0))
  | .finite .positive m e _ => toLex (1, toLex (e, m))
  | .infinity .positive => toLex (2, toLex (0, 0))
  | .notANumber => toLex (0, toLex (0, 0))

/-- The place of a double on the line of the extended reals, meaningless for not-a-number. -/
def level (x : Float) : Level := unpackedLevel x.toModel.unpack

/-! ### Comparing places -/

/-- Places of one class are compared by exponent, then by mantissa. -/
lemma compare_toLex (c e e' m m' : ℤ) :
    compare (toLex (c, toLex (e, m)) : Level) (toLex (c, toLex (e', m'))) =
      (compare e e').then (compare m m') := by
  simp [Prod.Lex.compare_def, compareLex, compareOn]

/-- Negation turns a comparison around. -/
lemma compare_neg_neg (a b : ℤ) : compare (-a) (-b) = (compare a b).swap := by
  rcases lt_trichotomy a b with h | h | h
  · rw [compare_gt_iff_gt.mpr (Int.neg_lt_neg h), compare_lt_iff_lt.mpr h]
    rfl
  · rw [h, compare_eq_iff_eq.mpr rfl, compare_eq_iff_eq.mpr rfl]
    rfl
  · rw [compare_lt_iff_lt.mpr (Int.neg_lt_neg h), compare_gt_iff_gt.mpr h]
    rfl

/-- Natural numbers are compared as whole numbers. -/
lemma compare_natCast (a b : ℕ) : compare (a : ℤ) (b : ℤ) = compare a b := by
  rcases lt_trichotomy a b with h | h | h
  · rw [compare_lt_iff_lt.mpr h, compare_lt_iff_lt.mpr (Int.ofNat_lt.mpr h)]
  · rw [h, compare_eq_iff_eq.mpr rfl, compare_eq_iff_eq.mpr rfl]
  · rw [compare_gt_iff_gt.mpr h, compare_gt_iff_gt.mpr (Int.ofNat_lt.mpr h)]

/-- Comparing unpacked doubles is comparing their places. -/
lemma unpacked_compare {u v : UnpackedFloat} (hu : u.isNaN = false) (hv : v.isNaN = false) :
    u.compare v = some (compare (unpackedLevel u) (unpackedLevel v)) := by
  rcases u with (_ | _) | _ | _ | ⟨_ | _, m, e, _⟩ <;>
    rcases v with (_ | _) | _ | _ | ⟨_ | _, m', e', _⟩ <;>
    simp only [unpackedLevel, UnpackedFloat.compare, compare_toLex, compare_neg_neg,
      compare_natCast, Ordering.swap_then]
  -- What is left are places of different classes, or not-a-number against the assumptions.
  all_goals
    first
    | rfl
    | exact absurd rfl (Bool.eq_false_iff.mp hu)
    | exact absurd rfl (Bool.eq_false_iff.mp hv)

/-! ### Comparing doubles -/

section Comparison

variable {x y : Float} (hx : x.isNaN = false) (hy : y.isNaN = false)

include hx hy

/-- Comparing doubles is comparing their places. -/
lemma model_compare : x.toModel.unpack.compare y.toModel.unpack =
    some (compare (level x) (level y)) :=
  unpacked_compare hx hy

lemma lt_iff : x < y ↔ level x < level y := by
  have hlt : x < y ↔ x.toModel.unpack.lt y.toModel.unpack = true := decide_eq_true_iff
  rw [hlt, UnpackedFloat.lt, model_compare hx hy, beq_iff_eq, Option.some_inj, compare_lt_iff_lt]

lemma le_iff : x ≤ y ↔ level x ≤ level y := by
  have hle : x ≤ y ↔ x.toModel.unpack.le y.toModel.unpack = true := decide_eq_true_iff
  rw [hle, UnpackedFloat.le, model_compare hx hy, Option.any_some, ← Ordering.ne_gt_iff_isLE]
  exact compare_le_iff_le

lemma beq_iff : (x == y) = true ↔ level x = level y := by
  have hbeq : (x == y) = x.toModel.unpack.beq y.toModel.unpack := rfl
  rw [hbeq, UnpackedFloat.beq, model_compare hx hy, beq_iff_eq, Option.some_inj, compare_eq_iff_eq]

end Comparison

/-- Only numbers are below each other. -/
lemma isNaN_of_lt {x y : Float} (h : x < y) : x.isNaN = false ∧ y.isNaN = false := by
  have hlt : x.toModel.unpack.lt y.toModel.unpack = true := of_decide_eq_true h
  change x.toModel.unpack.isNaN = false ∧ y.toModel.unpack.isNaN = false
  generalize x.toModel.unpack = u at hlt ⊢
  generalize y.toModel.unpack = v at hlt ⊢
  cases u <;> cases v <;> first | exact ⟨rfl, rfl⟩ | cases hlt

/-- What is at most `y` is not above it. -/
lemma not_lt_of_le {x y : Float} (h : x ≤ y) : ¬ y < x := by
  intro hlt
  obtain ⟨hy, hx⟩ := isNaN_of_lt hlt
  rw [le_iff hx hy] at h
  rw [lt_iff hy hx] at hlt
  exact h.not_gt hlt

end ShapeGrammar.Number
