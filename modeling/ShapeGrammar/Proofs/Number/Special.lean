import Mathlib
import ShapeGrammar.Number.Exact

/-!
# Where not-a-number and negative zero come from

Rounding and packing never produce not-a-number, so an operation on doubles does so only where its
rule for infinities, zeros and not-a-number says it.  The lemmas of this file are for the cases in
which one operand is known to be finite and not zero, or zero.  The other way round, a sum or a
product that is finite has finite operands.

Adding zero never gives a negative zero, which is the only double that is equal to another one
without being the same.
-/

namespace ShapeGrammar.Number

open Float.Model (UnpackedFloat Format)
open Float.Model.UnpackedFloat

/-! ### Packing and rounding -/

/-- Packed components are not-a-number only under the largest exponent. -/
lemma isNaN_unpack_packComponents (s : Sign) {e : BitVec 11} (m : BitVec 52) (he : e ≠ -1#11) :
    (UnpackedFloat.unpack .binary64 (packComponents .binary64 s e m)).isNaN = false := by
  simp only [UnpackedFloat.unpack, unpackExponent_packComponents, unpackMantissa_packComponents]
  rw [if_neg he]
  split
  · split <;> rfl
  · rfl

/-- Packing keeps apart what is a number and what is not. -/
lemma isNaN_ofModel_pack (u : UnpackedFloat) : (Float.ofModel (.pack u)).isNaN = u.isNaN := by
  change (UnpackedFloat.unpack .binary64 (UnpackedFloat.pack .binary64 u)).isNaN = u.isNaN
  cases u with
  | infinity s => cases s <;> decide
  | notANumber => decide
  | zero s => cases s <;> decide
  | finite s m e hm =>
    change _ = false
    unfold UnpackedFloat.pack
    dsimp only
    split
    · cases s <;> decide
    · split
      · refine isNaN_unpack_packComponents s _ ?_
        intro he
        have hexp := congrArg BitVec.toNat he
        simp only [BitVec.toNat_ofNat, BitVec.toNat_neg] at hexp
        omega
      · exact isNaN_unpack_packComponents s _ (by decide)

lemma isNaN_roundWithAccuracy (spec : Format) (s : Sign) (m : ℕ) (e : ℤ) (a : Accuracy) :
    (roundWithAccuracy spec s m e a).isNaN = false := by
  unfold roundWithAccuracy
  dsimp only
  split <;> rfl

lemma isNaN_nearest (s : Sign) (m : ℕ) (e : ℤ) : (nearest s m e).isNaN = false := by
  rw [nearest, isNaN_ofModel_pack]
  exact isNaN_roundWithAccuracy _ _ _ _ _

/-! ### Operations -/

/-- Rounding to a whole number does not change what is a number. -/
lemma isNaN_roundHalfAway (x : Float) : (roundHalfAway x).isNaN = x.isNaN := by
  unfold roundHalfAway
  split
  · next s m k hm hx =>
    rw [isNaN_nearest]
    change false = x.toModel.unpack.isNaN
    rw [hx]
    rfl
  · rfl

section FiniteOperand

variable {y : Float} {s : Sign} {m : ℕ} {e : ℤ} {hm : 0 < m}

/-- A quotient by a finite double that is not zero is a number exactly when the dividend is. -/
lemma isNaN_div (x : Float) (hy : y.toModel.unpack = .finite s m e hm) :
    (x / y).isNaN = x.isNaN := by
  change (Float.ofModel (.pack (UnpackedFloat.div .binary64 _ _))).isNaN = x.toModel.unpack.isNaN
  rw [isNaN_ofModel_pack, hy]
  cases x.toModel.unpack with
  | finite s' m' e' hm' => exact isNaN_roundWithAccuracy _ _ _ _ _
  | _ => rfl

/-- A product with a finite double that is not zero is a number exactly when the other factor
is. -/
lemma isNaN_mul (x : Float) (hy : y.toModel.unpack = .finite s m e hm) :
    (x * y).isNaN = x.isNaN := by
  change (Float.ofModel (.pack (UnpackedFloat.mul .binary64 _ _))).isNaN = x.toModel.unpack.isNaN
  rw [isNaN_ofModel_pack, hy]
  cases x.toModel.unpack with
  | finite s' m' e' hm' => exact isNaN_roundWithAccuracy _ _ _ _ _
  | _ => rfl

end FiniteOperand

/-- Adding zero does not change what is a number. -/
lemma isNaN_add_zero (x : Float) : (x + 0).isNaN = x.isNaN := by
  have hzero : (0 : Float).toModel.unpack = .zero .positive := rfl
  change (Float.ofModel (.pack (UnpackedFloat.add .binary64 _ _))).isNaN = x.toModel.unpack.isNaN
  rw [isNaN_ofModel_pack, hzero]
  cases x.toModel.unpack with
  | zero s => cases s <;> rfl
  | _ => rfl

/-- A finite double is a number. -/
lemma isNaN_of_isFinite {x : Float} (h : x.isFinite = true) : x.isNaN = false := by
  change x.toModel.unpack.isNaN = false
  have hfin : x.toModel.unpack.isFinite = true := h
  cases hx : x.toModel.unpack with
  | notANumber =>
    rw [hx] at hfin
    exact absurd hfin Bool.false_ne_true
  | _ => rfl

/-! ### Infinities -/

/-- Packing makes nothing finite. -/
lemma isFinite_of_pack {u : UnpackedFloat} (h : (Float.ofModel (.pack u)).isFinite = true) :
    u.isFinite = true := by
  cases u with
  | infinity s => cases s <;> exact absurd h (by decide)
  | notANumber => exact absurd h (by decide)
  | zero s => rfl
  | finite s m e hm => rfl

/-- Only finite doubles have a finite sum. -/
lemma isFinite_of_add {x y : Float} (h : (x + y).isFinite = true) :
    x.isFinite = true ∧ y.isFinite = true := by
  have hsum : (UnpackedFloat.add .binary64 x.toModel.unpack y.toModel.unpack).isFinite = true :=
    isFinite_of_pack h
  change x.toModel.unpack.isFinite = true ∧ y.toModel.unpack.isFinite = true
  generalize x.toModel.unpack = u at hsum ⊢
  generalize y.toModel.unpack = v at hsum ⊢
  rcases u with (_ | _) | _ | _ | _ <;> rcases v with (_ | _) | _ | _ | _ <;>
    first
    | exact ⟨rfl, rfl⟩
    | cases hsum

/-- Only finite doubles have a finite product. -/
lemma isFinite_of_mul {x y : Float} (h : (x * y).isFinite = true) :
    x.isFinite = true ∧ y.isFinite = true := by
  have hprod : (UnpackedFloat.mul .binary64 x.toModel.unpack y.toModel.unpack).isFinite = true :=
    isFinite_of_pack h
  change x.toModel.unpack.isFinite = true ∧ y.toModel.unpack.isFinite = true
  generalize x.toModel.unpack = u at hprod ⊢
  generalize y.toModel.unpack = v at hprod ⊢
  rcases u with _ | _ | _ | _ <;> rcases v with _ | _ | _ | _ <;>
    first
    | exact ⟨rfl, rfl⟩
    | cases hprod

/-! ### Negative zero -/

/-- Packing undoes unpacking. -/
lemma ofModel_pack_unpack (x : Float) : Float.ofModel (.pack x.toModel.unpack) = x :=
  Float.ofBits_toBits x

/-- Adding zero changes nothing but a zero. -/
lemma add_zero_eq_self {x : Float} (h : ∀ s, x.toModel.unpack ≠ .zero s) : x + 0 = x := by
  have hzero : (0 : Float).toModel.unpack = .zero .positive := rfl
  have hadd : UnpackedFloat.add .binary64 x.toModel.unpack (.zero .positive) =
      x.toModel.unpack := by
    cases hx : x.toModel.unpack with
    | zero s => exact absurd hx (h s)
    | _ => rfl
  change Float.ofModel (.pack (UnpackedFloat.add .binary64 _ _)) = x
  rw [hzero, hadd, ofModel_pack_unpack]

/-- A sum with zero is never a negative zero. -/
lemma add_zero_ne_neg_zero (x : Float) : x + 0 ≠ -0 := by
  by_cases h : ∃ s, x.toModel.unpack = .zero s
  · obtain ⟨s, hs⟩ := h
    rw [← ofModel_pack_unpack x, hs]
    cases s <;> decide
  · rw [add_zero_eq_self (not_exists.mp h)]
    rintro rfl
    exact h ⟨.negative, rfl⟩

/-- After zero has been added to both, doubles that are equal are the same. -/
lemma eq_of_add_zero_beq {x y : Float} (h : (x + 0 == y + 0) = true) : x + 0 = y + 0 := by
  obtain ⟨-, -, heq | ⟨-, hy⟩ | ⟨hx, -⟩⟩ := Float.beq_iff_ne_nan_and_eq.mp h
  · exact heq
  · exact absurd hy (add_zero_ne_neg_zero y)
  · exact absurd hx (add_zero_ne_neg_zero x)

end ShapeGrammar.Number
