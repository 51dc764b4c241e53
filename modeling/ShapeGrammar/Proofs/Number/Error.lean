import ShapeGrammar.Proofs.Number.Value

/-!
# How far rounding goes

`Number.Approximates x r` says that the double `x` is finite and misses the real number `r` by at
most one unit in the last place, or by the smallest double where `r` is too small for that
(`Number.roundoff`).  Sums, differences, products, quotients and hypotenuses of doubles approximate
the exact results, unless these are too large.

All of them come down to one lemma about the rounding of mantissas
(`Number.exists_near_roundWithAccuracy`): the number to be rounded lies between two neighbouring
mantissas of some length, and whichever way it is rounded, it goes to one of two neighbours of the
length that the format has.
-/

namespace ShapeGrammar.Number

open Float.Model (UnpackedFloat Format totalExponent)
open Float.Model.UnpackedFloat

/-- How far a rounded number can be from `r`. -/
noncomputable def roundoff (r : ℝ) : ℝ := 2 ^ (-52 : ℤ) * |r| + 2 ^ (-1074 : ℤ)

/-- The double is finite and differs from the number by rounding only. -/
structure Approximates (x : Float) (r : ℝ) : Prop where
  isFinite : x.isFinite = true
  near : |(value x : ℝ) - r| ≤ roundoff r

/-- The unpacked double stands for a number that differs from `r` by rounding only. -/
def Nears (u : UnpackedFloat) (r : ℝ) : Prop :=
  ∃ w : ℚ, Denotes u w ∧ Representable w ∧ |(w : ℝ) - r| ≤ roundoff r

lemma roundoff_pos (r : ℝ) : 0 < roundoff r := by
  unfold roundoff
  positivity

lemma Nears.approximates {u : UnpackedFloat} {r : ℝ} (h : Nears u r) :
    Approximates (.ofModel (.pack u)) r := by
  obtain ⟨w, hden, hrep, hnear⟩ := h
  have hval := HasValue.of_denotes hden hrep
  exact ⟨hval.isFinite, hval.value_eq ▸ hnear⟩

/-- A number that the unpacked double stands for is nothing away from it. -/
lemma Denotes.nears {u : UnpackedFloat} {w : ℚ} (h : Denotes u w) (hw : Representable w) :
    Nears u w := by
  refine ⟨w, h, hw, ?_⟩
  rw [sub_self, abs_zero]
  exact (roundoff_pos w).le

/-! ### Mantissas -/

lemma mantissa_shiftRight (em : ExtendedMantissa) (k : ℕ) :
    (em >>> k).mantissa = em.mantissa / 2 ^ k := by
  change (Nat.repeat ExtendedMantissa.shiftRightOne k em).mantissa = _
  induction k with
  | zero => exact (Nat.div_one _).symm
  | succ k ih =>
    change (Nat.repeat ExtendedMantissa.shiftRightOne k em).mantissa / 2 = _
    rw [ih, Nat.div_div_eq_div_mul, Nat.pow_succ]

lemma mantissa_ofMantissaAndAccuracy (m : ℕ) (a : Accuracy) :
    (ExtendedMantissa.ofMantissaAndAccuracy m a).mantissa = m := by
  rcases a with _ | (_ | _ | _) <;> rfl

/-- A mantissa is rounded down or up. -/
lemma roundedMantissa_eq_or (em : ExtendedMantissa) :
    em.roundedMantissa = em.mantissa ∨ em.roundedMantissa = em.mantissa + 1 := by
  obtain ⟨m, r, s⟩ := em
  cases r <;> cases s
  · exact Or.inl rfl
  · exact Or.inl rfl
  · change m + m % 2 = m ∨ m + m % 2 = m + 1
    omega
  · exact Or.inr rfl

/-- What rounding leaves of a mantissa is canonical, if need be after the exponent is increased by
one. -/
lemma exists_canonical_of_le {R : ℕ} {T : ℤ} (hpos : 0 < R) (hle : R ≤ 2 ^ 53) (hT : -1074 ≤ T)
    (hfull : 2 ^ 52 ≤ R ∨ T = -1074) :
    ∃ m e, Canonical m e ∧ scaled R T = scaled m e ∧ T ≤ e ∧ e ≤ T + 1 := by
  rcases Nat.lt_or_ge R (2 ^ 53) with hlt | hge
  · have hlog : R.log2 ≤ 52 := Nat.le_of_lt_succ ((Nat.log2_lt hpos.ne').mpr hlt)
    refine ⟨R, T, canonical_of_log2 hpos hlog hT ?_, rfl, le_rfl, (lt_add_one T).le⟩
    rcases hfull with hlong | hlow
    · exact Or.inl (log2_eq_of_normal hlong hlt)
    · exact Or.inr hlow
  · obtain rfl : R = 2 ^ 53 := le_antisymm hle hge
    have hlog : (2 ^ 52).log2 = 52 := Nat.log2_two_pow
    refine ⟨2 ^ 52, T + 1, canonical_of_log2 (by positivity) hlog.le (by omega) (Or.inl hlog), ?_,
      (lt_add_one T).le, le_rfl⟩
    unfold scaled
    rw [zpow_add_one₀ two_ne_zero]
    push_cast
    ring

/-- The length of a mantissa after bits are dropped so that the target exponent is reached. -/
lemma div_two_pow_lt {M : ℕ} {E T : ℤ} (hT : (M.log2 : ℤ) + E - 52 ≤ T) :
    M / 2 ^ (T - E).toNat < 2 ^ 53 := by
  rw [Nat.div_lt_iff_lt_mul (by positivity), ← pow_add]
  calc M < 2 ^ (M.log2 + 1) := Nat.lt_log2_self
    _ ≤ 2 ^ (53 + (T - E).toNat) := Nat.pow_le_pow_right two_pos (by omega)

lemma le_div_two_pow {M : ℕ} {E T : ℤ} (hM : M ≠ 0) (hE : E ≤ T)
    (hT : (M.log2 : ℤ) + E - 52 = T) : 2 ^ 52 ≤ M / 2 ^ (T - E).toNat := by
  rw [Nat.le_div_iff_mul_le (by positivity), ← pow_add]
  calc 2 ^ (52 + (T - E).toNat) ≤ 2 ^ M.log2 := Nat.pow_le_pow_right two_pos (by omega)
    _ ≤ M := Nat.log2_self_le hM

/-- The mantissa that is left when bits are dropped so that the target exponent is reached. -/
lemma mantissa_shiftToTargetExponent (M : ℕ) (E : ℤ) (a : Accuracy) :
    (shiftToTargetExponent .binary64 M E a).1.mantissa =
      M / 2 ^ (Format.binary64.targetExponent (totalExponent M E) - E).toNat := by
  unfold shiftToTargetExponent shiftToExponent
  dsimp only
  rw [mantissa_shiftRight, mantissa_ofMantissaAndAccuracy]

lemma exponent_shiftToTargetExponent {M : ℕ} {E : ℤ} (a : Accuracy)
    (hE : E ≤ Format.binary64.targetExponent (totalExponent M E)) :
    (shiftToTargetExponent .binary64 M E a).2 =
      Format.binary64.targetExponent (totalExponent M E) := by
  unfold shiftToTargetExponent shiftToExponent
  dsimp only
  omega

/-- The mantissa that is left has full length, unless the exponent is the smallest one. -/
lemma long_or_eq_lowest {M : ℕ} {E T : ℤ}
    (hT : Format.binary64.targetExponent (totalExponent M E) = T) (hE : E ≤ T) :
    2 ^ 52 ≤ M / 2 ^ (T - E).toNat ∨ T = -1074 := by
  rw [targetExponent_eq] at hT
  refine or_iff_not_imp_right.mpr fun hne => ?_
  have hM : M ≠ 0 := by
    rintro rfl
    rw [Nat.log2_zero] at hT
    omega
  exact le_div_two_pow hM hE (by omega)

/-- The mantissa that is left is rounded, with the target exponent `T`, and no bit is lost after
that. -/
lemma denotes_roundedMantissa {M : ℕ} {E T : ℤ} (a : Accuracy) (s : Sign)
    (hT : Format.binary64.targetExponent (totalExponent M E) = T) (hE : E ≤ T) :
    Denotes (roundWithAccuracy .binary64 s M E a)
        (withSign s (scaled (shiftToTargetExponent .binary64 M E a).1.roundedMantissa T)) ∧
      (T ≤ 970 → Representable
        (withSign s (scaled (shiftToTargetExponent .binary64 M E a).1.roundedMantissa T))) := by
  have hmant := mantissa_shiftToTargetExponent M E a
  have hexp := exponent_shiftToTargetExponent (M := M) a (hT.symm ▸ hE)
  have hfull := long_or_eq_lowest hT hE
  rw [hT] at hmant hexp
  unfold roundWithAccuracy
  generalize shiftToTargetExponent .binary64 M E a = shifted at hmant hexp ⊢
  obtain ⟨em, e⟩ := shifted
  obtain rfl : e = T := hexp
  have hround := roundedMantissa_eq_or em
  rw [hmant] at hround
  dsimp only
  generalize em.roundedMantissa = R at hround
  rw [targetExponent_eq] at hT
  rcases Nat.eq_zero_or_pos R with rfl | hpos
  · have hval : withSign s (scaled 0 e) = 0 := by
      rw [scaled, Nat.cast_zero, zero_mul]
      cases s
      · exact neg_zero
      · rfl
    rw [dif_pos (by rw [mantissa_shiftToTargetExponent, Nat.zero_div]), hval]
    exact ⟨rfl, fun _ => representable_zero⟩
  · have hlt : M / 2 ^ (e - E).toNat < 2 ^ 53 := div_two_pow_lt (by omega)
    obtain ⟨m, f, hcan, hval, hef, hfe⟩ :=
      exists_canonical_of_le hpos (by omega) (by omega) (hfull.imp_left (by omega))
    rw [shiftToTargetExponent_eq hcan hval hef]
    dsimp only
    rw [dif_neg hcan.pos.ne', hval]
    exact ⟨⟨hcan, rfl⟩, fun hhigh => hcan.representable (by omega) s⟩

/-- Rounding goes to a mantissa `R` next to that of the number, with the target exponent `T`. -/
lemma exists_roundWithAccuracy {M : ℕ} {E T : ℤ} (a : Accuracy) (s : Sign)
    (hT : Format.binary64.targetExponent (totalExponent M E) = T) (hE : E ≤ T) (hhigh : T ≤ 970) :
    ∃ R : ℕ, (R = M / 2 ^ (T - E).toNat ∨ R = M / 2 ^ (T - E).toNat + 1) ∧
      Denotes (roundWithAccuracy .binary64 s M E a) (withSign s (scaled R T)) ∧
      Representable (withSign s (scaled R T)) := by
  obtain ⟨hden, hrep⟩ := denotes_roundedMantissa a s hT hE
  have hround := roundedMantissa_eq_or (shiftToTargetExponent .binary64 M E a).1
  rw [mantissa_shiftToTargetExponent, hT] at hround
  exact ⟨_, hround, hden, hrep hhigh⟩

/-! ### One rounding -/

lemma cast_scaled (m : ℕ) (e : ℤ) : ((scaled m e : ℚ) : ℝ) = m * 2 ^ e := by
  unfold scaled
  push_cast
  rfl

/-- A number is at least as large as the leading bit of a mantissa below it. -/
lemma two_zpow_le_of_le {M : ℕ} {E : ℤ} {v : ℝ} (hM : M ≠ 0) (hlow : (M : ℝ) * 2 ^ E ≤ v) :
    (2 : ℝ) ^ ((M.log2 : ℤ) + E) ≤ v := by
  have hlead : ((2 : ℝ) ^ M.log2) ≤ M := by exact_mod_cast Nat.log2_self_le hM
  calc (2 : ℝ) ^ ((M.log2 : ℤ) + E) = 2 ^ M.log2 * 2 ^ E := by
        rw [zpow_add₀ two_ne_zero, zpow_natCast]
    _ ≤ M * 2 ^ E := mul_le_mul_of_nonneg_right hlead (by positivity)
    _ ≤ v := hlow

section Rounding

variable {M : ℕ} {E : ℤ} {v : ℝ} (hE : E ≤ Format.binary64.targetExponent (totalExponent M E))
  (hlow : (M : ℝ) * 2 ^ E ≤ v)

include hE hlow

/-- The target exponent is that of a normal double, or the smallest one. -/
lemma targetExponent_cases :
    (Format.binary64.targetExponent (totalExponent M E) = (M.log2 : ℤ) + E - 52 ∧
        (2 : ℝ) ^ ((M.log2 : ℤ) + E) ≤ v) ∨
      Format.binary64.targetExponent (totalExponent M E) = -1074 := by
  rw [targetExponent_eq] at hE ⊢
  rcases le_or_gt ((M.log2 : ℤ) + E - 52) (-1074) with hsmall | hlarge
  · exact Or.inr (max_eq_right hsmall)
  · left
    rw [max_eq_left hlarge.le] at hE ⊢
    refine ⟨rfl, two_zpow_le_of_le ?_ hlow⟩
    rintro rfl
    rw [Nat.log2_zero] at hE
    omega

/-- One unit of the target exponent is no more than rounding can change. -/
lemma two_zpow_targetExponent_le :
    (2 : ℝ) ^ Format.binary64.targetExponent (totalExponent M E) ≤ roundoff v := by
  have hsmallest : (0 : ℝ) ≤ 2 ^ (-1074 : ℤ) := by positivity
  unfold roundoff
  rcases targetExponent_cases hE hlow with ⟨htarget, hlead⟩ | htarget
  · rw [htarget, sub_eq_add_neg, zpow_add₀ two_ne_zero, mul_comm]
    have habs := hlead.trans (le_abs_self v)
    have hscaled := mul_le_mul_of_nonneg_left habs (by positivity : (0 : ℝ) ≤ 2 ^ (-52 : ℤ))
    linarith
  · rw [htarget]
    have hnonneg : (0 : ℝ) ≤ 2 ^ (-52 : ℤ) * |v| := by positivity
    linarith

/-- A number that is not too large is rounded to a double. -/
lemma targetExponent_le (hsize : v ≤ 2 ^ (1000 : ℤ)) :
    Format.binary64.targetExponent (totalExponent M E) ≤ 970 := by
  rcases targetExponent_cases hE hlow with ⟨htarget, hlead⟩ | htarget
  · have hexp := (zpow_le_zpow_iff_right₀ one_lt_two).mp (hlead.trans hsize)
    omega
  · omega

/-- A number between two neighbouring mantissas that are long enough is rounded to a number next to
it. -/
lemma exists_near_roundWithAccuracy (hhigh : v ≤ (M + 1) * 2 ^ E) (hsize : v ≤ 2 ^ (1000 : ℤ))
    (a : Accuracy) (s : Sign) :
    ∃ w : ℚ, Denotes (roundWithAccuracy .binary64 s M E a) (withSign s w) ∧
      Representable (withSign s w) ∧ |(w : ℝ) - v| ≤ roundoff v := by
  have hunit := two_zpow_targetExponent_le hE hlow
  have hmax := targetExponent_le hE hlow hsize
  generalize hT : Format.binary64.targetExponent (totalExponent M E) = T at hE hunit hmax
  obtain ⟨R, hR, hden, hrep⟩ := exists_roundWithAccuracy a s hT hE hmax
  refine ⟨scaled R T, hden, hrep, le_trans ?_ hunit⟩
  generalize hk : (T - E).toNat = k at hR
  have hpow : (2 : ℝ) ^ T = 2 ^ k * 2 ^ E := by
    rw [← zpow_natCast, ← zpow_add₀ two_ne_zero]
    congr 1
    omega
  -- The number lies between the two neighbours to which a mantissa can be rounded.
  have hdown : ((M / 2 ^ k : ℕ) : ℝ) * 2 ^ T ≤ v := by
    have hfloor : ((M / 2 ^ k : ℕ) : ℝ) * 2 ^ k ≤ M := by
      exact_mod_cast Nat.div_mul_le_self M (2 ^ k)
    rw [hpow, ← mul_assoc]
    exact (mul_le_mul_of_nonneg_right hfloor (by positivity)).trans hlow
  have hup : v ≤ (((M / 2 ^ k : ℕ) : ℝ) + 1) * 2 ^ T := by
    have hceil : (M : ℝ) + 1 ≤ (((M / 2 ^ k : ℕ) : ℝ) + 1) * 2 ^ k := by
      exact_mod_cast Nat.lt_div_mul_add (a := M) (by positivity : 0 < 2 ^ k) |>.trans_eq (by ring)
    rw [hpow, ← mul_assoc]
    exact hhigh.trans (mul_le_mul_of_nonneg_right hceil (by positivity))
  rw [cast_scaled, abs_le]
  rcases hR with rfl | rfl
  · constructor <;> linarith
  · push_cast
    constructor <;> linarith

end Rounding

/-- A mantissa of any length is rounded to a number next to it. -/
lemma exists_near_round {M : ℕ} {E : ℤ} (hM : 0 < M) (hsize : (scaled M E : ℝ) ≤ 2 ^ (1000 : ℤ))
    (s : Sign) :
    ∃ w : ℚ, Denotes (UnpackedFloat.round .binary64 s M E) (withSign s w) ∧
      Representable (withSign s w) ∧ |(w : ℝ) - scaled M E| ≤ roundoff (scaled M E) := by
  unfold UnpackedFloat.round decreaseExponent
  dsimp only
  generalize hk : (E - Format.binary64.targetExponent (totalExponent M E)).toNat = k
  have hval := scaled_shiftLeft M k E
  have hpos : 0 < M <<< k := by
    rw [Nat.shiftLeft_eq]
    positivity
  have hE : E - k ≤ Format.binary64.targetExponent (totalExponent (M <<< k) (E - k)) := by
    rw [totalExponent_congr hpos hM hval]
    omega
  rw [← hval, cast_scaled] at hsize ⊢
  refine exists_near_roundWithAccuracy hE le_rfl ?_ hsize .exact s
  exact mul_le_mul_of_nonneg_right (by linarith) (by positivity)

/-- With a sign in front, a number next to another one is next to it. -/
lemma nears_withSign {u : UnpackedFloat} {s : Sign} {v : ℚ}
    (h : ∃ w : ℚ, Denotes u (withSign s w) ∧ Representable (withSign s w) ∧
      |(w : ℝ) - v| ≤ roundoff v) : Nears u (withSign s v : ℚ) := by
  obtain ⟨w, hden, hrep, hnear⟩ := h
  refine ⟨withSign s w, hden, hrep, ?_⟩
  have hdist : |((withSign s w : ℚ) : ℝ) - (withSign s v : ℚ)| = |(w : ℝ) - v| := by
    exact_mod_cast abs_withSign_sub s w v
  have hsize : roundoff (withSign s v : ℚ) = roundoff v := by
    unfold roundoff
    cases s
    · rw [withSign, Rat.cast_neg, abs_neg]
    · rfl
  rw [hdist, hsize]
  exact hnear

/-- The size of a number with a sign. -/
lemma le_of_abs_withSign_le {s : Sign} {v : ℚ} {B : ℝ} (h : |((withSign s v : ℚ) : ℝ)| ≤ B) :
    (v : ℝ) ≤ B := by
  cases s
  · rw [withSign, Rat.cast_neg, abs_neg] at h
    exact (le_abs_self _).trans h
  · exact (le_abs_self _).trans h

/-! ### Arithmetic -/

lemma nears_normalize {K E : ℤ} (hsize : |((K * 2 ^ E : ℚ) : ℝ)| ≤ 2 ^ (1000 : ℤ)) (s : Sign) :
    Nears (UnpackedFloat.normalize .binary64 K E s) (K * 2 ^ E : ℚ) := by
  rcases eq_or_ne K 0 with rfl | hK
  · rw [normalize_zero, Int.cast_zero, zero_mul]
    exact Denotes.nears rfl representable_zero
  · obtain ⟨t, M, hM, hval, hround⟩ := exists_normalize_eq_round hK E s
    rw [hround]
    rw [hval] at hsize ⊢
    exact nears_withSign (exists_near_round hM (le_of_abs_withSign_le hsize) t)

/-- A division is carried out to more bits than the format has. -/
lemma divCore_le_targetExponent {m n : ℕ} {e f E : ℤ} (hm : 0 < m) (hn : 0 < n)
    (hE : E = min (e - f)
      (Format.binary64.targetExponent (totalExponent m e - totalExponent n f))) :
    E ≤ Format.binary64.targetExponent
      (totalExponent (m <<< (e - f - E).toNat / n) E) := by
  have htarget : Format.binary64.targetExponent (totalExponent m e - totalExponent n f) =
      max ((m.log2 : ℤ) + 1 + e - (n.log2 + 1 + f) - 53) (-1074) := rfl
  rw [htarget] at hE
  rw [targetExponent_eq]
  rcases le_or_gt E (-1074) with hsmall | hlarge
  · exact le_max_of_le_right hsmall
  · refine le_max_of_le_left ?_
    -- The dividend has at least 53 bits more than the divisor.
    have hlong : 2 ^ 52 ≤ m <<< (e - f - E).toNat / n := by
      rw [Nat.le_div_iff_mul_le hn, Nat.shiftLeft_eq]
      calc 2 ^ 52 * n ≤ 2 ^ 52 * 2 ^ (n.log2 + 1) := by
            exact Nat.mul_le_mul_left _ Nat.lt_log2_self.le
        _ = 2 ^ (52 + (n.log2 + 1)) := (pow_add 2 _ _).symm
        _ ≤ 2 ^ (m.log2 + (e - f - E).toNat) := Nat.pow_le_pow_right two_pos (by omega)
        _ = 2 ^ m.log2 * 2 ^ (e - f - E).toNat := pow_add 2 _ _
        _ ≤ m * 2 ^ (e - f - E).toNat := Nat.mul_le_mul_right _ (Nat.log2_self_le hm.ne')
    have hlog : 52 ≤ (m <<< (e - f - E).toNat / n).log2 :=
      (Nat.le_log2 (by omega)).mpr hlong
    omega

/-- The quotient of two numbers lies between neighbouring mantissas, the smaller of which is the
quotient of their mantissas. -/
lemma div_bounds {m n : ℕ} {e f E : ℤ} (hn : 0 < n) (hE : E ≤ e - f) :
    ((m <<< (e - f - E).toNat / n : ℕ) : ℝ) * 2 ^ E ≤ ((scaled m e / scaled n f : ℚ) : ℝ) ∧
      ((scaled m e / scaled n f : ℚ) : ℝ) ≤
        ((m <<< (e - f - E).toNat / n : ℕ) + 1) * 2 ^ E := by
  have hexp : e - ((e - f - E).toNat : ℕ) = E + f := by omega
  have hval := scaled_shiftLeft m (e - f - E).toNat e
  rw [hexp] at hval
  generalize m <<< (e - f - E).toNat = M at hval
  have hn' : (0 : ℝ) < n := by exact_mod_cast hn
  have hquot : ((scaled m e / scaled n f : ℚ) : ℝ) = M / n * 2 ^ E := by
    rw [← hval, Rat.cast_div, cast_scaled, cast_scaled, zpow_add₀ two_ne_zero]
    field_simp
  rw [hquot]
  constructor
  · exact mul_le_mul_of_nonneg_right Nat.cast_div_le (by positivity)
  · refine mul_le_mul_of_nonneg_right ?_ (by positivity)
    rw [div_le_iff₀ hn']
    have hlt : M < (M / n + 1) * n := by
      rw [Nat.mul_comm]
      exact Nat.lt_mul_div_succ M hn
    exact_mod_cast hlt.le

section Operations

variable {u v : UnpackedFloat} {a b : ℚ} (hu : Denotes u a) (hv : Denotes v b)

include hu hv

lemma Nears.add (ha : Representable a) (hb : Representable b)
    (hsize : |((a + b : ℚ) : ℝ)| ≤ 2 ^ (1000 : ℤ)) : Nears (.add .binary64 u v) (a + b : ℚ) := by
  obtain ⟨hzero, hden⟩ | ⟨K, E, hadd, hsum⟩ := hu.add_cases hv
  · refine hden.nears ?_
    rcases hzero with rfl | rfl
    · rwa [zero_add]
    · rwa [add_zero]
  · rw [hadd]
    rw [hsum] at hsize ⊢
    exact nears_normalize hsize .positive

lemma Nears.mul (hsize : |((a * b : ℚ) : ℝ)| ≤ 2 ^ (1000 : ℤ)) :
    Nears (.mul .binary64 u v) (a * b : ℚ) := by
  obtain ⟨hzero, hden⟩ | ⟨s, M, E, -, hE, hmul, hprod⟩ := hu.mul_cases hv
  · rw [hzero]
    exact hden.nears representable_zero
  · rw [hmul]
    rw [hprod] at hsize ⊢
    have hbound := le_of_abs_withSign_le hsize
    refine nears_withSign ?_
    rw [cast_scaled] at hbound ⊢
    refine exists_near_roundWithAccuracy hE le_rfl ?_ hbound .exact s
    exact mul_le_mul_of_nonneg_right (by linarith) (by positivity)

lemma Nears.div (hb : b ≠ 0) (hsize : |((a / b : ℚ) : ℝ)| ≤ 2 ^ (1000 : ℤ)) :
    Nears (.div .binary64 u v) (a / b : ℚ) := by
  obtain ⟨hzero, hden⟩ | ⟨s, m, e, n, f, hm, hn, hdiv, hquot⟩ := hu.div_cases hv hb
  · rw [hzero]
    exact hden.nears representable_zero
  · rw [hquot] at hsize ⊢
    have hbound := le_of_abs_withSign_le hsize
    generalize hE : min (e - f)
      (Format.binary64.targetExponent (totalExponent m e - totalExponent n f)) = E
    obtain ⟨hlow, hhigh⟩ := div_bounds (m := m) hn (hE.ge.trans (min_le_left _ _))
    have htarget := divCore_le_targetExponent hm hn hE.symm
    have hcore : divCore .binary64 m e n f = (m <<< (e - f - E).toNat / n, E,
        accuracyOfFraction (m <<< (e - f - E).toNat % n) n) := by
      unfold divCore
      dsimp only
      rw [hE]
    rw [hdiv _ _ _ hcore]
    exact nears_withSign (exists_near_roundWithAccuracy htarget hlow hhigh hbound _ _)

end Operations

/-! ### Square roots -/

/-- A root is taken to more bits than the format has. -/
lemma sqrtCore_le_targetExponent {m : ℕ} {e E : ℤ} (hm : 0 < m)
    (hE : E = min (e.ediv 2) (Format.binary64.targetExponent ((totalExponent m e + 1).ediv 2))) :
    E ≤ Format.binary64.targetExponent (totalExponent (m <<< (e - 2 * E).toNat).sqrt E) := by
  have htarget : Format.binary64.targetExponent ((totalExponent m e + 1).ediv 2) =
      max (((m.log2 : ℤ) + 1 + e + 1) / 2 - 53) (-1074) := rfl
  rw [htarget] at hE
  have hhalf : e.ediv 2 = e / 2 := rfl
  rw [hhalf] at hE
  rw [targetExponent_eq]
  rcases le_or_gt E (-1074) with hsmall | hlarge
  · exact le_max_of_le_right hsmall
  · refine le_max_of_le_left ?_
    have hlong : 2 ^ 52 ≤ (m <<< (e - 2 * E).toNat).sqrt := by
      rw [Nat.le_sqrt, ← pow_add, Nat.shiftLeft_eq]
      calc 2 ^ (52 + 52) ≤ 2 ^ (m.log2 + (e - 2 * E).toNat) :=
            Nat.pow_le_pow_right two_pos (by omega)
        _ = 2 ^ m.log2 * 2 ^ (e - 2 * E).toNat := pow_add 2 _ _
        _ ≤ m * 2 ^ (e - 2 * E).toNat := Nat.mul_le_mul_right _ (Nat.log2_self_le hm.ne')
    have hlog : 52 ≤ ((m <<< (e - 2 * E).toNat).sqrt).log2 := (Nat.le_log2 (by omega)).mpr hlong
    omega

/-- The root of a number lies between neighbouring mantissas, the smaller of which is the root of
its mantissa. -/
lemma sqrt_bounds {m : ℕ} {e E : ℤ} (hE : 2 * E ≤ e) :
    ((m <<< (e - 2 * E).toNat).sqrt : ℝ) * 2 ^ E ≤ √(scaled m e : ℝ) ∧
      √(scaled m e : ℝ) ≤ ((m <<< (e - 2 * E).toNat).sqrt + 1) * 2 ^ E := by
  have hexp : e - ((e - 2 * E).toNat : ℕ) = E + E := by omega
  have hval := scaled_shiftLeft m (e - 2 * E).toNat e
  rw [hexp] at hval
  generalize m <<< (e - 2 * E).toNat = M at hval
  have hroot : √(scaled m e : ℝ) = √(M : ℝ) * 2 ^ E := by
    rw [← hval, cast_scaled, zpow_add₀ two_ne_zero, Real.sqrt_mul (Nat.cast_nonneg M),
      Real.sqrt_mul_self (by positivity)]
  rw [hroot]
  constructor
  · exact mul_le_mul_of_nonneg_right Real.nat_sqrt_le_real_sqrt (by positivity)
  · exact mul_le_mul_of_nonneg_right Real.real_sqrt_le_nat_sqrt_succ (by positivity)

lemma nears_sqrt {m : ℕ} {e : ℤ} (hm : 0 < m) (hsize : √(scaled m e : ℝ) ≤ 2 ^ (1000 : ℤ)) :
    Nears (.sqrt .binary64 (.finite .positive m e hm)) √(scaled m e : ℝ) := by
  generalize hE : min (e.ediv 2)
    (Format.binary64.targetExponent ((totalExponent m e + 1).ediv 2)) = E
  have hhalf : E ≤ e / 2 := hE.ge.trans (min_le_left _ _)
  obtain ⟨hlow, hhigh⟩ := sqrt_bounds (m := m) (e := e) (E := E) (by omega)
  have htarget := sqrtCore_le_targetExponent hm hE.symm
  unfold UnpackedFloat.sqrt sqrtCore
  dsimp only
  rw [hE]
  exact exists_near_roundWithAccuracy htarget hlow hhigh hsize _ .positive

/-! ### Doubles -/

/-- The value of a finite double as a real number. -/
noncomputable def real (x : Float) : ℝ := value x

lemma HasValue.real_eq {x : Float} {r : ℚ} (h : HasValue x r) : real x = r :=
  congrArg Rat.cast h.value_eq

section Doubles

variable {x y : Float} (hx : x.isFinite = true) (hy : y.isFinite = true)

include hx hy

/-- A sum is rounded once. -/
lemma approximates_add (h : |real x + real y| ≤ 2 ^ (1000 : ℤ)) :
    Approximates (x + y) (real x + real y) := by
  have hx' := hasValue_value hx
  have hy' := hasValue_value hy
  have hcast : real x + real y = ((value x + value y : ℚ) : ℝ) := (Rat.cast_add _ _).symm
  rw [hcast] at h ⊢
  exact (Nears.add (hasValue_iff_denotes.mp hx') (hasValue_iff_denotes.mp hy') hx'.representable
    hy'.representable h).approximates

/-- A difference is rounded once. -/
lemma approximates_sub (h : |real x - real y| ≤ 2 ^ (1000 : ℤ)) :
    Approximates (x - y) (real x - real y) := by
  have hx' := hasValue_value hx
  have hy' := hasValue_value hy
  have hcast : real x - real y = ((value x + -value y : ℚ) : ℝ) := by
    rw [Rat.cast_add, Rat.cast_neg, ← sub_eq_add_neg]
    rfl
  rw [hcast] at h ⊢
  have hnears := Nears.add (hasValue_iff_denotes.mp hx') (hasValue_iff_denotes.mp hy').neg
    hx'.representable hy'.representable.neg h
  rw [← unpacked_sub] at hnears
  exact hnears.approximates

/-- A product is rounded once. -/
lemma approximates_mul (h : |real x * real y| ≤ 2 ^ (1000 : ℤ)) :
    Approximates (x * y) (real x * real y) := by
  have hx' := hasValue_value hx
  have hy' := hasValue_value hy
  have hcast : real x * real y = ((value x * value y : ℚ) : ℝ) := (Rat.cast_mul _ _).symm
  rw [hcast] at h ⊢
  exact (Nears.mul (hasValue_iff_denotes.mp hx') (hasValue_iff_denotes.mp hy') h).approximates

/-- A quotient is rounded once. -/
lemma approximates_div (hne : real y ≠ 0) (h : |real x / real y| ≤ 2 ^ (1000 : ℤ)) :
    Approximates (x / y) (real x / real y) := by
  have hx' := hasValue_value hx
  have hy' := hasValue_value hy
  have hcast : real x / real y = ((value x / value y : ℚ) : ℝ) := (Rat.cast_div _ _).symm
  have hne' : value y ≠ 0 := fun hzero => hne (by rw [real, hzero, Rat.cast_zero])
  rw [hcast] at h ⊢
  exact (Nears.div (hasValue_iff_denotes.mp hx') (hasValue_iff_denotes.mp hy') hne' h).approximates

end Doubles

/-! ### Hypotenuses -/

/-- Mantissa and exponent without a sign stand for the size of the number. -/
lemma scaled_magnitude {u : UnpackedFloat} {a : ℚ} (h : Denotes u a) :
    scaled (magnitude u).1 (magnitude u).2 = |a| := by
  obtain ⟨s, rfl, rfl⟩ | ⟨s, m, e, hm, rfl, -, rfl⟩ := h.cases
  · exact (zero_mul _).trans abs_zero.symm
  · exact (abs_withSign (scaled_pos hm e).le s).symm

/-- The sum of two squares, brought to one exponent. -/
lemma scaled_sum_squares (m n : ℕ) (e f : ℤ) :
    scaled (m <<< (e - min e f).toNat * m <<< (e - min e f).toNat +
        n <<< (f - min e f).toNat * n <<< (f - min e f).toNat) (2 * min e f) =
      scaled m e ^ 2 + scaled n f ^ 2 := by
  have hm := scaled_shiftLeft m (e - min e f).toNat e
  have hn := scaled_shiftLeft n (f - min e f).toNat f
  have he : e - ((e - min e f).toNat : ℕ) = min e f := by omega
  have hf : f - ((f - min e f).toNat : ℕ) = min e f := by omega
  rw [he] at hm
  rw [hf] at hn
  rw [← hm, ← hn, two_mul]
  unfold scaled
  rw [zpow_add₀ two_ne_zero]
  push_cast
  ring

/-- A root is rounded once. -/
lemma approximates_nearestRoot {n : ℕ} {e : ℤ} (h : √(scaled n (2 * e) : ℝ) ≤ 2 ^ (1000 : ℤ)) :
    Approximates (nearestRoot n e) √(scaled n (2 * e) : ℝ) := by
  unfold nearestRoot
  split
  · next hpos => exact (nears_sqrt hpos h).approximates
  · next hzero =>
    obtain rfl : n = 0 := by omega
    have hval : (scaled 0 (2 * e) : ℝ) = 0 := by
      rw [scaled, Nat.cast_zero, zero_mul, Rat.cast_zero]
    rw [hval, Real.sqrt_zero]
    have hreal : ((value 0 : ℚ) : ℝ) = 0 := hasValue_zero.real_eq.trans Rat.cast_zero
    refine ⟨rfl, ?_⟩
    rw [hreal, sub_zero, abs_zero]
    exact (roundoff_pos 0).le

lemma isInf_of_isFinite {x : Float} (h : x.isFinite = true) : x.isInf = false := by
  change x.toModel.unpack.isInf = false
  obtain ⟨s, hunpack, -⟩ | ⟨s, m, e, hm, hunpack, -, -⟩ := (hasValue_value h).cases <;>
    rw [hunpack] <;> rfl

/-- The length of a hypotenuse is rounded once. -/
lemma approximates_hypot {x y : Float} (hx : x.isFinite = true) (hy : y.isFinite = true)
    (h : √(real x ^ 2 + real y ^ 2) ≤ 2 ^ (1000 : ℤ)) :
    Approximates (hypot x y) √(real x ^ 2 + real y ^ 2) := by
  have hmag := scaled_magnitude (hasValue_iff_denotes.mp (hasValue_value hx))
  have hmag' := scaled_magnitude (hasValue_iff_denotes.mp (hasValue_value hy))
  unfold hypot
  rw [isInf_of_isFinite hx, isInf_of_isFinite hy, isNaN_of_isFinite hx, isNaN_of_isFinite hy]
  dsimp only [Bool.or_self, Bool.false_eq_true, if_false]
  generalize magnitude x.toModel.unpack = u at hmag
  generalize magnitude y.toModel.unpack = v at hmag'
  obtain ⟨m, e⟩ := u
  obtain ⟨n, f⟩ := v
  have hsquares : real x ^ 2 + real y ^ 2 = ((scaled m e ^ 2 + scaled n f ^ 2 : ℚ) : ℝ) := by
    rw [hmag, hmag', sq_abs, sq_abs, real, real]
    push_cast
    rfl
  rw [hsquares, ← scaled_sum_squares] at h ⊢
  exact approximates_nearestRoot h

end ShapeGrammar.Number
