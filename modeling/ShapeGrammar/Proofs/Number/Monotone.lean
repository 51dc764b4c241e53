import ShapeGrammar.Proofs.Number.Error

/-!
# Rounding keeps the order

`Number.Rounds r w` says that the number `r` is rounded to `w`, if the exponents of the format have
no upper end.  Of two numbers the smaller one is not rounded to a larger one (`Rounds.mono`), and a
number that is a double stays what it is, so that the results of sums and products are bounded by
whatever doubles bound the exact results.

On one scale a shifted mantissa, together with the bit behind it and the trace of all others, counts
quarters of a unit (`Number.quarters`), in an order that no shift disturbs; and where the scales
differ, a power of two lies in between.
-/

namespace ShapeGrammar.Number

open Float.Model (UnpackedFloat Format totalExponent)
open Float.Model.UnpackedFloat

/-! ### Mantissas -/

/-- What is left of a number after some shifts, in quarters of a unit: bits that were shifted out
before the last one count as one quarter altogether. -/
def quarters (em : ExtendedMantissa) : ℕ :=
  4 * em.mantissa + 2 * em.roundBit.toNat + em.stickyBit.toNat

lemma quarters_shiftRightOne (em : ExtendedMantissa) :
    quarters em.shiftRightOne = 2 * (quarters em / 4) + min 1 (quarters em % 4) := by
  obtain ⟨m, r, s⟩ := em
  have hbit : (m % 2 != 0).toNat = m % 2 := by
    rcases Nat.mod_two_eq_zero_or_one m with h | h <;> rw [h] <;> rfl
  unfold quarters ExtendedMantissa.shiftRightOne
  dsimp only
  rw [hbit]
  cases r <;> cases s <;>
    simp only [Bool.or_false, Bool.or_true, Bool.toNat_false, Bool.toNat_true] <;> omega

/-- Shifts keep the order. -/
lemma quarters_shiftRight_mono {a b : ExtendedMantissa} (h : quarters a ≤ quarters b) (k : ℕ) :
    quarters (a >>> k) ≤ quarters (b >>> k) := by
  change quarters (Nat.repeat ExtendedMantissa.shiftRightOne k a) ≤
    quarters (Nat.repeat ExtendedMantissa.shiftRightOne k b)
  induction k with
  | zero => exact h
  | succ k ih =>
    rw [Nat.repeat, Nat.repeat, quarters_shiftRightOne, quarters_shiftRightOne]
    omega

/-- So does rounding to a whole mantissa. -/
lemma roundedMantissa_mono {a b : ExtendedMantissa} (h : quarters a ≤ quarters b) :
    a.roundedMantissa ≤ b.roundedMantissa := by
  obtain ⟨m, r, s⟩ := a
  obtain ⟨n, r', s'⟩ := b
  unfold quarters at h
  cases r <;> cases s <;> cases r' <;> cases s' <;>
    simp only [ExtendedMantissa.roundedMantissa, ExtendedMantissa.accuracy,
      Accuracy.roundToNearestEven, Bool.toNat_false, Bool.toNat_true] at h ⊢ <;> omega

/-- The mantissa without its last `k` bits, rounded. -/
def roundOff (m k : ℕ) : ℕ := ((⟨m, false, false⟩ : ExtendedMantissa) >>> k).roundedMantissa

lemma roundOff_mono {m n : ℕ} (h : m ≤ n) (k : ℕ) : roundOff m k ≤ roundOff n k := by
  refine roundedMantissa_mono (quarters_shiftRight_mono ?_ k)
  unfold quarters
  dsimp only
  omega

lemma roundOff_eq_or (m k : ℕ) : roundOff m k = m / 2 ^ k ∨ roundOff m k = m / 2 ^ k + 1 := by
  have hround := roundedMantissa_eq_or ((⟨m, false, false⟩ : ExtendedMantissa) >>> k)
  rwa [mantissa_shiftRight] at hround

lemma shiftRight_add (em : ExtendedMantissa) (i k : ℕ) : em >>> (i + k) = (em >>> i) >>> k := by
  change Nat.repeat ExtendedMantissa.shiftRightOne (i + k) em =
    Nat.repeat ExtendedMantissa.shiftRightOne k (Nat.repeat ExtendedMantissa.shiftRightOne i em)
  induction k with
  | zero => rfl
  | succ k ih => exact congrArg ExtendedMantissa.shiftRightOne ih

/-- Zeros that are appended are removed without a trace. -/
lemma roundOff_shiftLeft (m i k : ℕ) : roundOff (m <<< i) (i + k) = roundOff m k := by
  rw [roundOff, shiftRight_add, shiftRight_shiftLeft]
  rfl

/-! ### Positive numbers -/

/-- The target exponent of the number with mantissa `m` and exponent `e`. -/
def target (m : ℕ) (e : ℤ) : ℤ := Format.binary64.targetExponent (totalExponent m e)

/-- The number with mantissa `m` and exponent `e`, rounded to its target exponent. -/
def rounded (m : ℕ) (e : ℤ) : ℚ := scaled (roundOff m (target m e - e).toNat) (target m e)

lemma rounded_nonneg (m : ℕ) (e : ℤ) : 0 ≤ rounded m e := by
  unfold rounded scaled
  positivity

section Scales

variable {M N : ℕ} {E F : ℤ}

/-- A number is not rounded beyond the next power of two. -/
lemma rounded_le (M : ℕ) (E : ℤ) : rounded M E ≤ 2 ^ 53 * 2 ^ target M E := by
  have hshort : M / 2 ^ (target M E - E).toNat < 2 ^ 53 :=
    div_two_pow_lt ((le_max_left _ _).trans_eq (targetExponent_eq M E).symm)
  have hround := roundOff_eq_or M (target M E - E).toNat
  have hle : roundOff M (target M E - E).toNat ≤ 2 ^ 53 := by omega
  exact mul_le_mul_of_nonneg_right (by exact_mod_cast hle) (zpow_pos two_pos _).le

/-- A number above the smallest exponent is not rounded below its power of two. -/
lemma le_rounded (hE : E ≤ target M E) (hlow : -1074 < target M E) :
    2 ^ 52 * 2 ^ target M E ≤ rounded M E := by
  have hlong : 2 ^ 52 ≤ M / 2 ^ (target M E - E).toNat :=
    (long_or_eq_lowest rfl hE).resolve_right hlow.ne'
  have hround := roundOff_eq_or M (target M E - E).toNat
  have hle : 2 ^ 52 ≤ roundOff M (target M E - E).toNat := by omega
  exact mul_le_mul_of_nonneg_right (by exact_mod_cast hle) (zpow_pos two_pos _).le

/-- On one scale the mantissas are compared. -/
lemma rounded_mono_of_target_eq (hE : E ≤ target M E) (hF : F ≤ target N F)
    (htarget : target M E = target N F) (h : scaled M E ≤ scaled N F) :
    rounded M E ≤ rounded N F := by
  unfold rounded
  rw [← htarget] at hF ⊢
  have hshift := shiftLeft_le_shiftLeft h (min_le_left E F) (min_le_right E F)
  have hround := roundOff_mono hshift (target M E - min E F).toNat
  have hME : (target M E - min E F).toNat = (E - min E F).toNat + (target M E - E).toNat := by
    omega
  have hNF : (target M E - min E F).toNat = (F - min E F).toNat + (target M E - F).toNat := by
    omega
  rw [hME, roundOff_shiftLeft, ← hME, hNF, roundOff_shiftLeft] at hround
  exact mul_le_mul_of_nonneg_right (Nat.cast_le.mpr hround) (zpow_pos two_pos _).le

/-- Rounding keeps the order. -/
lemma rounded_mono (hM : 0 < M) (hE : E ≤ target M E) (hF : F ≤ target N F)
    (h : scaled M E ≤ scaled N F) : rounded M E ≤ rounded N F := by
  have hmono : target M E ≤ target N F := targetExponent_mono hM h
  rcases hmono.eq_or_lt with htarget | htarget
  · exact rounded_mono_of_target_eq hE hF htarget h
  · -- There is a power of two in between.
    have hlow : -1074 ≤ target M E := by
      rw [target, targetExponent_eq]
      exact le_max_right _ _
    calc rounded M E ≤ 2 ^ 53 * 2 ^ target M E := rounded_le M E
      _ = 2 ^ 52 * 2 ^ (target M E + 1) := by
          rw [zpow_add_one₀ two_ne_zero]
          ring
      _ ≤ 2 ^ 52 * 2 ^ target N F :=
          mul_le_mul_of_nonneg_left (zpow_le_zpow_right₀ one_le_two htarget) (by positivity)
      _ ≤ rounded N F := le_rounded hF (hlow.trans_lt htarget)

end Scales

/-! ### All numbers -/

/-- The number `r` is rounded to `w`, if there is no largest exponent. -/
inductive Rounds : ℚ → ℚ → Prop
  | zero : Rounds 0 0
  | signed (s : Sign) {M : ℕ} {E : ℤ} (hM : 0 < M) (hE : E ≤ target M E) :
      Rounds (withSign s (scaled M E)) (withSign s (rounded M E))

namespace Rounds

variable {r r' w w' : ℚ}

lemma nonneg (h : Rounds r w) (hr : 0 ≤ r) : 0 ≤ w := by
  cases h with
  | zero => exact le_rfl
  | @signed s M E hM hE =>
    cases s with
    | positive => exact rounded_nonneg M E
    | negative =>
      have hpos := scaled_pos hM E
      exact absurd hr (neg_neg_of_pos hpos).not_ge

lemma nonpos (h : Rounds r w) (hr : r ≤ 0) : w ≤ 0 := by
  cases h with
  | zero => exact le_rfl
  | @signed s M E hM hE =>
    cases s with
    | positive => exact absurd hr (scaled_pos hM E).not_ge
    | negative => exact neg_nonpos_of_nonneg (rounded_nonneg M E)

/-- Rounding keeps the order. -/
lemma mono (h : Rounds r w) (h' : Rounds r' w') (hle : r ≤ r') : w ≤ w' := by
  cases h with
  | zero => exact h'.nonneg hle
  | @signed s M E hM hE =>
    cases h' with
    | zero => exact (signed s hM hE).nonpos hle
    | @signed t N F hN hF =>
      cases s <;> cases t
      case negative.negative =>
        exact neg_le_neg (rounded_mono hN hF hE (neg_le_neg_iff.mp hle))
      case negative.positive =>
        exact (neg_nonpos_of_nonneg (rounded_nonneg M E)).trans (rounded_nonneg N F)
      case positive.negative =>
        have hneg := neg_neg_of_pos (scaled_pos hN F)
        exact absurd (hneg.trans (scaled_pos hM E)) hle.not_gt
      case positive.positive =>
        exact rounded_mono hM hE hF hle

/-- A number is rounded to one number only. -/
lemma unique (h : Rounds r w) (h' : Rounds r w') : w = w' :=
  le_antisymm (h.mono h' le_rfl) (h'.mono h le_rfl)

end Rounds

/-- What a double stands for is not changed. -/
lemma Denotes.rounds {u : UnpackedFloat} {r : ℚ} (h : Denotes u r) : Rounds r r := by
  obtain ⟨s, -, rfl⟩ | ⟨s, m, e, hm, -, hcan, rfl⟩ := h.cases
  · exact .zero
  · have htarget : target m e = e := hcan.exponent_eq
    have hround := Rounds.signed s hm htarget.ge
    rwa [rounded, htarget, sub_self, Int.toNat_zero] at hround

lemma Representable.rounds {r : ℚ} (h : Representable r) : Rounds r r := by
  obtain ⟨x, hx⟩ := h
  exact (hasValue_iff_denotes.mp hx).rounds

/-- A number that is at most a double does not have a larger exponent. -/
lemma Canonical.exponent_le {m : ℕ} {e : ℤ} {r : ℚ} (h : Canonical m e) (hr : Representable r)
    (hle : scaled m e ≤ r) : e ≤ 971 := by
  have hpos : 0 < withSign .positive r := (scaled_pos h.pos e).trans_le hle
  obtain ⟨x, hx⟩ := hr
  obtain ⟨s, -, rfl⟩ | ⟨s, n, f, hn, hunpack, hcan, rfl⟩ := hx.cases
  · exact absurd hpos (lt_irrefl 0)
  · have hscaled : withSign s (scaled n f) = scaled n f := by
      cases s
      · exact absurd hpos (neg_neg_of_pos (scaled_pos hn f)).not_gt
      · rfl
    rw [hscaled] at hle
    exact (h.exponent_mono hcan hle).trans (exponent_le_of_unpack hunpack)

/-- Between two doubles there are no numbers that are too large to be one. -/
lemma Denotes.representable_of_le {u : UnpackedFloat} {w lo hi : ℚ} (h : Denotes u w)
    (hlo : Representable lo) (hhi : Representable hi) (hle : lo ≤ w) (hge : w ≤ hi) :
    Representable w := by
  obtain ⟨s, -, rfl⟩ | ⟨s, m, e, hm, -, hcan, rfl⟩ := h.cases
  · exact representable_zero
  · cases s with
    | positive => exact hcan.representable (hcan.exponent_le hhi hge) .positive
    | negative =>
      exact hcan.representable (hcan.exponent_le hlo.neg (le_neg_of_le_neg hle)) .negative

/-- What is too large to be a double becomes infinite. -/
lemma Denotes.representable_of_isFinite {u : UnpackedFloat} {w : ℚ} (h : Denotes u w)
    (hfinite : (Float.ofModel (.pack u)).isFinite = true) : Representable w := by
  obtain ⟨s, -, rfl⟩ | ⟨s, m, e, hm, rfl, hcan, rfl⟩ := h.cases
  · exact representable_zero
  · rcases le_or_gt e 971 with hle | hgt
    · exact hcan.representable hle s
    · change (UnpackedFloat.unpack .binary64
        (UnpackedFloat.pack .binary64 (.finite s m e hm))).isFinite = true at hfinite
      have hpack : UnpackedFloat.pack .binary64 (.finite s m e hm) =
          UnpackedFloat.packedInfinity .binary64 s := by
        have hbias : Format.binary64.exponentBias = 1023 := rfl
        have hbits : Format.binary64.mantissaBitsWithoutImplicit = 52 := rfl
        refine if_pos ?_
        rw [hbias, hbits]
        change 2 ^ 11 ≤ _
        omega
      rw [hpack] at hfinite
      cases s <;> exact absurd hfinite (by decide)

/-! ### Operations -/

lemma exists_rounds_roundWithAccuracy {M : ℕ} {E : ℤ} (hM : 0 < M) (hE : E ≤ target M E)
    (s : Sign) : ∃ w, Rounds (withSign s (scaled M E)) w ∧
      Denotes (roundWithAccuracy .binary64 s M E .exact) w :=
  ⟨_, .signed s hM hE, (denotes_roundedMantissa .exact s rfl hE).1⟩

lemma exists_rounds_round {M : ℕ} {E : ℤ} (hM : 0 < M) (s : Sign) :
    ∃ w, Rounds (withSign s (scaled M E)) w ∧
      Denotes (UnpackedFloat.round .binary64 s M E) w := by
  unfold UnpackedFloat.round decreaseExponent
  dsimp only
  generalize hk : (E - Format.binary64.targetExponent (totalExponent M E)).toNat = k
  have hval := scaled_shiftLeft M k E
  have hpos : 0 < M <<< k := by
    rw [Nat.shiftLeft_eq]
    positivity
  have hE : E - k ≤ target (M <<< k) (E - k) := by
    rw [target, totalExponent_congr hpos hM hval]
    omega
  rw [← hval]
  exact exists_rounds_roundWithAccuracy hpos hE s

section Operations

variable {u v : UnpackedFloat} {a b : ℚ} (hu : Denotes u a) (hv : Denotes v b)

include hu hv

lemma Denotes.exists_rounds_add :
    ∃ w, Rounds (a + b) w ∧ Denotes (.add .binary64 u v) w := by
  obtain ⟨-, hden⟩ | ⟨K, E, hadd, hsum⟩ := hu.add_cases hv
  · exact ⟨a + b, hden.rounds, hden⟩
  · rw [hadd, hsum]
    rcases eq_or_ne K 0 with rfl | hK
    · rw [normalize_zero, Int.cast_zero, zero_mul]
      exact ⟨0, .zero, rfl⟩
    · obtain ⟨t, M, hM, hval, hround⟩ := exists_normalize_eq_round hK E .positive
      rw [hround, hval]
      exact exists_rounds_round hM t

lemma Denotes.exists_rounds_mul :
    ∃ w, Rounds (a * b) w ∧ Denotes (.mul .binary64 u v) w := by
  obtain ⟨hzero, hden⟩ | ⟨s, M, E, hM, hE, hmul, hprod⟩ := hu.mul_cases hv
  · exact ⟨0, hzero ▸ .zero, hden⟩
  · rw [hmul, hprod]
    exact exists_rounds_roundWithAccuracy hM hE s

end Operations

section Doubles

variable {x y : Float} {a b : ℚ} (hx : HasValue x a) (hy : HasValue y b)

include hx hy

/-- A sum that does not overflow is rounded once. -/
lemma HasValue.exists_add (h : (x + y).isFinite = true) :
    ∃ w, Rounds (a + b) w ∧ HasValue (x + y) w := by
  obtain ⟨w, hw, hden⟩ :=
    (hasValue_iff_denotes.mp hx).exists_rounds_add (hasValue_iff_denotes.mp hy)
  exact ⟨w, hw, .of_denotes hden (hden.representable_of_isFinite h)⟩

/-- A product that does not overflow is rounded once. -/
lemma HasValue.exists_mul (h : (x * y).isFinite = true) :
    ∃ w, Rounds (a * b) w ∧ HasValue (x * y) w := by
  obtain ⟨w, hw, hden⟩ :=
    (hasValue_iff_denotes.mp hx).exists_rounds_mul (hasValue_iff_denotes.mp hy)
  exact ⟨w, hw, .of_denotes hden (hden.representable_of_isFinite h)⟩

variable {lo hi : ℚ} (hlo : Representable lo) (hhi : Representable hi)

include hlo hhi

/-- Between two doubles nothing overflows, and a difference is rounded once. -/
lemma HasValue.exists_sub (hle : lo ≤ a - b) (hge : a - b ≤ hi) :
    ∃ w, Rounds (a - b) w ∧ HasValue (x - y) w := by
  obtain ⟨w, hw, hden⟩ :=
    (hasValue_iff_denotes.mp hx).exists_rounds_add (hasValue_iff_denotes.mp hy).neg
  rw [← sub_eq_add_neg] at hw
  rw [← unpacked_sub] at hden
  exact ⟨w, hw, .of_denotes hden
    (hden.representable_of_le hlo hhi (hlo.rounds.mono hw hle) (hw.mono hhi.rounds hge))⟩

/-- So is a product. -/
lemma HasValue.exists_mul_of_le (hle : lo ≤ a * b) (hge : a * b ≤ hi) :
    ∃ w, Rounds (a * b) w ∧ HasValue (x * y) w := by
  obtain ⟨w, hw, hden⟩ :=
    (hasValue_iff_denotes.mp hx).exists_rounds_mul (hasValue_iff_denotes.mp hy)
  exact ⟨w, hw, .of_denotes hden
    (hden.representable_of_le hlo hhi (hlo.rounds.mono hw hle) (hw.mono hhi.rounds hge))⟩

end Doubles

end ShapeGrammar.Number
