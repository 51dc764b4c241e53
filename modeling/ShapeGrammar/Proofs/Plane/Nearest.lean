import ShapeGrammar.Proofs.Number.Error
import ShapeGrammar.Proofs.Plane.Exact

/-!
# The nearest point of the coordinate grid

Moving a double onto the grid moves it by at most half a grid step (`exists_near_snap`).  Rounding
adds nothing to this: the grid step is a power of two, so that counting grid steps is exact, and
whole numbers of grid steps have a double.  So a double less than half a step away from a point of
the grid is moved there (`hasValue_snap_of_near`), and whatever is moved to a point of the grid was
at most half a step away (`abs_sub_le_of_hasValue_snap`).
-/

namespace ShapeGrammar

namespace Number

open Float.Model (UnpackedFloat)
open Float.Model.UnpackedFloat

/-- To multiply by a power of two is to move the exponent. -/
lemma withSign_scaled_mul (s : Sign) (m : ℕ) (e k : ℤ) :
    withSign s (scaled m e) * 2 ^ k = withSign s (scaled m (e + k)) := by
  unfold scaled
  rw [zpow_add₀ two_ne_zero]
  cases s <;> simp only [withSign] <;> ring

/-- A double can be doubled any number of times, unless it becomes too large. -/
lemma representable_mul_two_pow {x : Float} (hx : x.isFinite = true) (k : ℕ)
    (hsize : |value x * 2 ^ k| < 2 ^ (971 : ℤ)) : Representable (value x * 2 ^ k) := by
  rw [← zpow_natCast] at hsize ⊢
  obtain ⟨s, -, hzero⟩ | ⟨s, m, e, hm, -, hcan, hval⟩ := (hasValue_value hx).cases
  · rw [hzero, zero_mul]
    exact representable_zero
  · have hlow := hcan.log2_le.2.1
    rw [hval, withSign_scaled_mul] at hsize ⊢
    rw [abs_withSign (scaled_pos hm _).le] at hsize
    have hexp : e + k < 971 := by
      have hone : (1 : ℚ) ≤ m := by exact_mod_cast hm
      have hpow : (2 : ℚ) ^ (e + k) ≤ scaled m (e + k) :=
        le_mul_of_one_le_left (by positivity) hone
      exact (zpow_lt_zpow_iff_right₀ one_lt_two).mp (hpow.trans_lt hsize)
    exact representable_scaled hcan.lt_two_pow (by omega) hexp.le s

/-- Rounding a small whole number gives this number. -/
lemma hasValue_nearest {s : Sign} {n : ℕ} (hn : n < 2 ^ 53) :
    HasValue (nearest s n 0) (withSign s n) := by
  rcases Nat.eq_zero_or_pos n with rfl | hpos
  · cases s
    · exact ⟨rfl, by rw [withSign, Nat.cast_zero, neg_zero]; rfl⟩
    · exact ⟨rfl, by rw [withSign, Nat.cast_zero]; rfl⟩
  · have hval : (n : ℚ) = scaled n 0 := by rw [scaled, zpow_zero, mul_one]
    rw [hval]
    exact hasValue_nearest_of_pos hpos hn (by decide) (by decide)

/-- The bits in front of the point, a half counted as one more, are at most a half away. -/
lemma abs_sub_shiftRight_le (m k : ℕ) :
    |(m : ℚ) / (2 : ℚ) ^ (k + 1) - ((m + 1 <<< k) >>> (k + 1) : ℕ)| ≤ 1 / 2 := by
  rw [Nat.shiftLeft_eq, one_mul, Nat.shiftRight_eq_div_pow]
  have hpow : 0 < 2 ^ (k + 1) := by positivity
  have hlow : (m + 2 ^ k) / 2 ^ (k + 1) * 2 ^ (k + 1) ≤ m + 2 ^ k := Nat.div_mul_le_self _ _
  have hhigh : m + 2 ^ k < 2 ^ (k + 1) * ((m + 2 ^ k) / 2 ^ (k + 1) + 1) :=
    Nat.lt_mul_div_succ _ hpow
  generalize (m + 2 ^ k) / 2 ^ (k + 1) = q at hlow hhigh ⊢
  have hlow' : (q : ℚ) * 2 ^ (k + 1) ≤ m + 2 ^ k := by exact_mod_cast hlow
  have hhigh' : (m : ℚ) + 2 ^ k < 2 ^ (k + 1) * (q + 1) := by exact_mod_cast hhigh
  have hpow' : (0 : ℚ) < 2 ^ (k + 1) := by exact_mod_cast hpow
  have hhalf : (2 : ℚ) ^ (k + 1) = 2 * 2 ^ k := pow_succ' 2 k
  rw [div_sub' hpow'.ne', abs_div, abs_of_pos hpow', div_le_iff₀ hpow', abs_le]
  constructor <;> linarith

/-- A finite double without digits behind the point is a whole number. -/
lemma exists_int_of_no_fraction {x : Float} (hx : x.isFinite = true)
    (h : ∀ s m k hm, x.toModel.unpack = .finite s m (.negSucc k) hm → False) :
    ∃ z : ℤ, HasValue x z := by
  obtain ⟨s, -, hzero⟩ | ⟨s, m, k | k, hm, hunpack, -, hval⟩ := (hasValue_value hx).cases
  · exact ⟨0, hx, hzero.trans Int.cast_zero.symm⟩
  · refine ⟨s.apply (m * 2 ^ k : ℕ), hx, ?_⟩
    rw [hval, cast_apply, scaled]
    push_cast
    rfl
  · exact (h s m k hm hunpack).elim

/-- A finite double is rounded to a whole number, which is at most a half away. -/
lemma exists_int_roundHalfAway {x : Float} (hx : x.isFinite = true) :
    ∃ z : ℤ, HasValue (roundHalfAway x) z ∧ |value x - z| ≤ 1 / 2 := by
  unfold roundHalfAway
  split
  · next s m k hm hunpack =>
    have hden := hasValue_iff_denotes.mp (hasValue_value hx)
    rw [hunpack] at hden
    obtain ⟨hcan, hval⟩ := hden
    have hsmall : (m + 1 <<< k) >>> (k + 1) < 2 ^ 53 := by
      rw [Nat.shiftRight_eq_div_pow, Nat.shiftLeft_eq, one_mul,
        Nat.div_lt_iff_lt_mul (by positivity)]
      have hlt := hcan.lt_two_pow
      have hpow : 1 ≤ 2 ^ k := Nat.one_le_two_pow
      calc m + 2 ^ k < 2 ^ 53 * 2 ^ k + 2 ^ 53 * 2 ^ k := by nlinarith
        _ = 2 ^ 53 * 2 ^ (k + 1) := by rw [pow_succ 2 k]; ring
    have hscaled : scaled m (.negSucc k) = m / 2 ^ (k + 1) := by
      rw [scaled, zpow_negSucc, div_eq_mul_inv]
    refine ⟨s.apply ((m + 1 <<< k) >>> (k + 1) : ℕ), ?_, ?_⟩
    · rw [cast_apply]
      exact hasValue_nearest hsmall
    · rw [hval, cast_apply, abs_withSign_sub, hscaled]
      exact abs_sub_shiftRight_le m k
  · next hother =>
    obtain ⟨z, hz⟩ := exists_int_of_no_fraction hx hother
    refine ⟨z, hz, ?_⟩
    rw [hz.value_eq, sub_self, abs_zero]
    exact one_half_pos.le

/-- What is not finite stays so. -/
lemma isFinite_of_roundHalfAway {x : Float} (h : (roundHalfAway x).isFinite = true) :
    x.isFinite = true := by
  unfold roundHalfAway at h
  split at h
  · next s m k hm hunpack => exact congrArg UnpackedFloat.isFinite hunpack
  · exact h

end Number

/-! ### The grid -/

/-- A whole number of grid steps has a double if the whole number has one. -/
lemma representable_steps {n : ℤ} (hn : Number.Representable n) :
    Number.Representable (n * 2 ^ (-20 : ℤ)) := by
  obtain ⟨x, hx⟩ := hn
  obtain ⟨s, -, hzero⟩ | ⟨s, m, e, hm, hunpack, hcan, hval⟩ := hx.cases
  · rw [hzero, zero_mul]
    exact Number.representable_zero
  · -- A whole number that is not zero is at least one, so that its exponent is not very small.
    have hone : (1 : ℚ) ≤ Number.scaled m e := by
      have habs : |(n : ℚ)| = Number.scaled m e := by
        rw [hval, Number.abs_withSign (Number.scaled_pos hm e).le]
      have hpos : (0 : ℚ) < |(n : ℚ)| := habs ▸ Number.scaled_pos hm e
      rw [← habs, ← Int.cast_abs]
      rw [← Int.cast_abs] at hpos
      exact_mod_cast Int.cast_pos.mp hpos
    have hexp : -53 < e := by
      have hbound : (2 : ℚ) ^ (0 : ℤ) < 2 ^ (53 + e) := by
        rw [zpow_zero, zpow_add₀ two_ne_zero]
        refine hone.trans_lt ?_
        unfold Number.scaled
        exact mul_lt_mul_of_pos_right (by exact_mod_cast hcan.lt_two_pow) (by positivity)
      have hcmp := (zpow_lt_zpow_iff_right₀ one_lt_two).mp hbound
      omega
    have hhigh := Number.exponent_le_of_unpack hunpack
    rw [hval, Number.withSign_scaled_mul]
    exact Number.representable_scaled hcan.lt_two_pow (by omega) (by omega) s

/-- What was moved to the grid is a whole number of grid steps, if it is finite. -/
lemma exists_int_snap {x : Float} (h : (snap x).isFinite = true) :
    ∃ n : ℤ, Number.HasValue (snap x) (n * 2 ^ (-20 : ℤ)) ∧ OnGrid (n * 2 ^ (-20 : ℤ)) := by
  unfold snap at h ⊢
  have hfinite : (Number.roundHalfAway (x / gridStep)).isFinite = true := by
    generalize Number.roundHalfAway (x / gridStep) = y at h
    cases hunpack : y.toModel.unpack with
    | zero s => exact congrArg Float.Model.UnpackedFloat.isFinite hunpack
    | finite s m e hm => exact congrArg Float.Model.UnpackedFloat.isFinite hunpack
    | infinity s =>
      rw [← Number.ofModel_pack_unpack y, hunpack] at h
      cases s <;> exact absurd h (by decide +kernel)
    | notANumber =>
      rw [← Number.ofModel_pack_unpack y, hunpack] at h
      exact absurd h (by decide +kernel)
  obtain ⟨n, hn, -⟩ := Number.exists_int_roundHalfAway (Number.isFinite_of_roundHalfAway hfinite)
  have hrep := representable_steps hn.representable
  exact ⟨n, hasValue_steps hn hrep, hrep, n, hn.representable, rfl⟩

/-- What was moved to the grid stays where it is, whether it is finite or not. -/
lemma snap_snap (v : Float) : snap (snap v) = snap v := by
  by_cases hfinite : (snap v).isFinite = true
  · obtain ⟨n, hn, hgrid⟩ := exists_int_snap hfinite
    exact snap_eq_of_beq ((hasValue_snap hn hgrid).beq hn)
  · generalize snap v = y at hfinite
    cases hunpack : y.toModel.unpack with
    | zero s => exact absurd (congrArg Float.Model.UnpackedFloat.isFinite hunpack) hfinite
    | finite s m e hm => exact absurd (congrArg Float.Model.UnpackedFloat.isFinite hunpack) hfinite
    | infinity s =>
      rw [← Number.ofModel_pack_unpack y, hunpack]
      cases s <;> decide +kernel
    | notANumber =>
      rw [← Number.ofModel_pack_unpack y, hunpack]
      decide +kernel

/-- A point of the grid stays where it is. -/
lemma Point.snapped_snapped (p : Point) : p.snapped.snapped = p.snapped := by
  unfold snapped
  rw [snap_snap, snap_snap]

section Snap

variable {x : Float} (hx : x.isFinite = true) (hsize : |Number.real x| ≤ 2 ^ (900 : ℤ))

include hx hsize

/-- What is moved to the grid moves by at most half a grid step. -/
lemma exists_near_snap :
    ∃ n : ℤ, Number.HasValue (snap x) (n * 2 ^ (-20 : ℤ)) ∧
      |Number.real x * 2 ^ 20 - n| ≤ 1 / 2 := by
  have hsize' : |Number.value x * 2 ^ 20| < 2 ^ (971 : ℤ) := by
    have hcast : |Number.value x| ≤ 2 ^ (900 : ℤ) := by
      unfold Number.real at hsize
      exact_mod_cast hsize
    calc |Number.value x * 2 ^ 20| = |Number.value x| * 2 ^ (20 : ℤ) := by
          rw [abs_mul]
          rfl
      _ ≤ 2 ^ (900 : ℤ) * 2 ^ (20 : ℤ) := mul_le_mul_of_nonneg_right hcast (by positivity)
      _ = 2 ^ (920 : ℤ) := (zpow_add₀ two_ne_zero _ _).symm
      _ < 2 ^ (971 : ℤ) := zpow_lt_zpow_right₀ one_lt_two (by decide)
  have hsteps : Number.value x / 2 ^ (-20 : ℤ) = Number.value x * 2 ^ 20 := by
    rw [zpow_neg, div_inv_eq_mul]
    rfl
  have hrep : Number.Representable (Number.value x / 2 ^ (-20 : ℤ)) :=
    hsteps ▸ Number.representable_mul_two_pow hx 20 hsize'
  have hquot : Number.HasValue (x / gridStep) (Number.value x / 2 ^ (-20 : ℤ)) :=
    (Number.hasValue_value hx).div hasValue_gridStep (by positivity) hrep
  obtain ⟨n, hn, hnear⟩ := Number.exists_int_roundHalfAway hquot.isFinite
  rw [hquot.value_eq, hsteps] at hnear
  refine ⟨n, hasValue_steps hn (representable_steps hn.representable), ?_⟩
  have hcast : ((|Number.value x * 2 ^ 20 - n| : ℚ) : ℝ) ≤ ((1 / 2 : ℚ) : ℝ) := by
    exact_mod_cast hnear
  push_cast at hcast
  exact hcast

/-- A double that is less than half a grid step away from a point of the grid is moved there. -/
lemma hasValue_snap_of_near {n : ℤ} (hnear : |Number.real x * 2 ^ 20 - n| < 1 / 2) :
    Number.HasValue (snap x) (n * 2 ^ (-20 : ℤ)) := by
  obtain ⟨z, hz, hround⟩ := exists_near_snap hx hsize
  have hlt : |((z - n : ℤ) : ℝ)| < 1 := by
    rw [abs_sub_comm] at hround
    rw [Int.cast_sub]
    calc |(z : ℝ) - n| ≤ |z - Number.real x * 2 ^ 20| + |Number.real x * 2 ^ 20 - n| :=
          abs_sub_le _ _ _
      _ < 1 / 2 + 1 / 2 := add_lt_add_of_le_of_lt hround hnear
      _ = 1 := add_halves 1
  obtain rfl : z = n := sub_eq_zero.mp (Int.abs_lt_one_iff.mp (by exact_mod_cast hlt))
  exact hz

/-- What is moved to a point of the grid was at most half a grid step away from it. -/
lemma abs_sub_le_of_hasValue_snap {n : ℤ} (h : Number.HasValue (snap x) (n * 2 ^ (-20 : ℤ))) :
    |Number.real x * 2 ^ 20 - n| ≤ 1 / 2 := by
  obtain ⟨z, hz, hround⟩ := exists_near_snap hx hsize
  have heq := hz.value_eq.symm.trans h.value_eq
  obtain rfl : z = n := by exact_mod_cast mul_right_cancel₀ (zpow_ne_zero _ two_ne_zero) heq
  exact hround

end Snap

end ShapeGrammar
