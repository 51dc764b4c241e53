import Mathlib
import ShapeGrammar.Number.Exact

/-!
# Rounding what is a double already

A positive number `m * 2 ^ e` has many mantissas and one canonical one, namely the one whose
exponent is the target of the format (`Number.Canonical`).  Every finite double unpacks to its
canonical mantissa (`Number.canonical_of_unpack`).

Rounding first looks for the target exponent and then drops or adds bits to reach it.  Whatever
mantissa it starts from, only the number counts for the target (`Number.totalExponent_congr`), and a
number with a canonical mantissa loses no bit on the way (`Number.round_eq`).
-/

namespace ShapeGrammar.Number

open Float.Model (UnpackedFloat Format totalExponent)
open Float.Model.UnpackedFloat

/-- The number with mantissa `m` and exponent `e`. -/
def scaled (m : ℕ) (e : ℤ) : ℚ := m * 2 ^ e

/-- The exponent is the one that the 64-bit format wants for the number. -/
structure Canonical (m : ℕ) (e : ℤ) : Prop where
  pos : 0 < m
  exponent_eq : Format.binary64.targetExponent (totalExponent m e) = e

/-! ### Mantissas of one number -/

lemma scaled_pos {m : ℕ} (hm : 0 < m) (e : ℤ) : 0 < scaled m e := by
  unfold scaled
  positivity

/-- A longer mantissa for the same number. -/
lemma scaled_shiftLeft (m k : ℕ) (e : ℤ) : scaled (m <<< k) (e - k) = scaled m e := by
  unfold scaled
  rw [Nat.shiftLeft_eq, zpow_sub₀ two_ne_zero, zpow_natCast]
  push_cast
  field_simp

/-- Of two mantissas of one number, the one with the smaller exponent is the other one, followed by
zeros. -/
lemma eq_shiftLeft_of_scaled_eq {M m : ℕ} {E e : ℤ} (h : scaled M E = scaled m e) (hle : E ≤ e) :
    M = m <<< (e - E).toNat := by
  have hexp : e - ((e - E).toNat : ℕ) = E := by omega
  have hshift := scaled_shiftLeft m (e - E).toNat e
  rw [hexp, ← h] at hshift
  have hne : (2 : ℚ) ^ E ≠ 0 := zpow_ne_zero E two_ne_zero
  exact_mod_cast (mul_right_cancel₀ hne hshift).symm

/-- Zeros at the end count for the length of a mantissa. -/
lemma log2_shiftLeft {m : ℕ} (hm : 0 < m) (k : ℕ) : (m <<< k).log2 = m.log2 + k := by
  induction k with
  | zero => rfl
  | succ k ih =>
    have hne : m <<< k ≠ 0 := by
      rw [Nat.shiftLeft_eq]
      positivity
    rw [Nat.shiftLeft_succ, Nat.log2_two_mul hne, ih, Nat.add_assoc]

/-- Where the leading digit stands depends on the number alone. -/
lemma totalExponent_congr {M m : ℕ} {E e : ℤ} (hM : 0 < M) (hm : 0 < m)
    (h : scaled M E = scaled m e) : totalExponent M E = totalExponent m e := by
  unfold totalExponent
  rcases le_total E e with hle | hle
  · rw [eq_shiftLeft_of_scaled_eq h hle, log2_shiftLeft hm]
    omega
  · rw [eq_shiftLeft_of_scaled_eq h.symm hle, log2_shiftLeft hM]
    omega

/-- The exponent with which the mantissa has 53 bits, or the smallest one. -/
lemma targetExponent_eq (m : ℕ) (e : ℤ) :
    Format.binary64.targetExponent (totalExponent m e) = max ((m.log2 : ℤ) + e - 52) (-1074) := by
  have htarget : Format.binary64.targetExponent (totalExponent m e) =
      max ((m.log2 : ℤ) + 1 + e - 53) (-1074) := rfl
  rw [htarget]
  omega

section Comparison

variable {M N : ℕ} {E F : ℤ}

/-- Numbers compare as their mantissas with a common exponent. -/
lemma shiftLeft_le_shiftLeft (h : scaled M E ≤ scaled N F) {G : ℤ} (hE : G ≤ E) (hF : G ≤ F) :
    M <<< (E - G).toNat ≤ N <<< (F - G).toNat := by
  have hM := scaled_shiftLeft M (E - G).toNat E
  have hN := scaled_shiftLeft N (F - G).toNat F
  have hEG : E - ((E - G).toNat : ℕ) = G := by omega
  have hFG : F - ((F - G).toNat : ℕ) = G := by omega
  rw [hEG] at hM
  rw [hFG] at hN
  rw [← hM, ← hN] at h
  unfold scaled at h
  exact_mod_cast le_of_mul_le_mul_right h (zpow_pos two_pos G)

/-- The larger number does not have the smaller target. -/
lemma targetExponent_mono (hM : 0 < M) (h : scaled M E ≤ scaled N F) :
    Format.binary64.targetExponent (totalExponent M E) ≤
      Format.binary64.targetExponent (totalExponent N F) := by
  have hshift := shiftLeft_le_shiftLeft h (min_le_left E F) (min_le_right E F)
  have hpos : 0 < M <<< (E - min E F).toNat := by
    rw [Nat.shiftLeft_eq]
    positivity
  have hN : 0 < N := by
    rw [Nat.shiftLeft_eq, Nat.shiftLeft_eq] at hshift
    rw [Nat.shiftLeft_eq] at hpos
    exact Nat.pos_of_mul_pos_right (hpos.trans_le hshift)
  have hlog : (M <<< (E - min E F).toNat).log2 ≤ (N <<< (F - min E F).toNat).log2 :=
    (Nat.le_log2 (hpos.trans_le hshift).ne').mpr ((Nat.log2_self_le hpos.ne').trans hshift)
  rw [log2_shiftLeft hM, log2_shiftLeft hN] at hlog
  rw [targetExponent_eq, targetExponent_eq]
  omega

end Comparison

/-- The canonical mantissa and exponent of a number are unique. -/
lemma Canonical.unique {M m : ℕ} {E e : ℤ} (hM : Canonical M E) (hm : Canonical m e)
    (h : scaled M E = scaled m e) : M = m ∧ E = e := by
  have hexp : E = e := by
    rw [← hM.exponent_eq, ← hm.exponent_eq, totalExponent_congr hM.pos hm.pos h]
  subst hexp
  have hshift := eq_shiftLeft_of_scaled_eq h le_rfl
  rw [sub_self] at hshift
  exact ⟨hshift, rfl⟩

/-- The smaller of two numbers does not have the larger exponent. -/
lemma Canonical.exponent_mono {m n : ℕ} {e f : ℤ} (hm : Canonical m e) (hn : Canonical n f)
    (h : scaled m e ≤ scaled n f) : e ≤ f := by
  have htarget := targetExponent_mono hm.pos h
  rwa [hm.exponent_eq, hn.exponent_eq] at htarget

/-- A canonical mantissa has at most 53 bits, and exactly as many unless the exponent is the
smallest one. -/
lemma Canonical.log2_le {m : ℕ} {e : ℤ} (h : Canonical m e) :
    m.log2 ≤ 52 ∧ -1074 ≤ e ∧ (m.log2 = 52 ∨ e = -1074) := by
  have heq := h.exponent_eq
  rw [targetExponent_eq] at heq
  omega

lemma Canonical.lt_two_pow {m : ℕ} {e : ℤ} (h : Canonical m e) : m < 2 ^ 53 :=
  (Nat.log2_lt h.pos.ne').mp (Nat.lt_succ_of_le h.log2_le.1)

/-- Above the smallest exponent, a canonical mantissa has its leading bit. -/
lemma Canonical.two_pow_le {m : ℕ} {e : ℤ} (h : Canonical m e) (he : -1074 < e) : 2 ^ 52 ≤ m := by
  obtain ⟨-, -, hfull⟩ := h.log2_le
  exact ((Nat.log2_eq_iff h.pos.ne').mp (hfull.resolve_right he.ne')).1

/-- The other way round: so many bits make a mantissa canonical. -/
lemma canonical_of_log2 {m : ℕ} {e : ℤ} (hm : 0 < m) (hlog : m.log2 ≤ 52) (he : -1074 ≤ e)
    (hfull : m.log2 = 52 ∨ e = -1074) : Canonical m e := by
  refine ⟨hm, ?_⟩
  rw [targetExponent_eq]
  omega

/-! ### Rounding -/

/-- Zeros that are shifted out leave no trace. -/
lemma shiftRight_shiftLeft (m k : ℕ) :
    (⟨m <<< k, false, false⟩ : ExtendedMantissa) >>> k = ⟨m, false, false⟩ := by
  change Nat.repeat ExtendedMantissa.shiftRightOne k _ = _
  induction k generalizing m with
  | zero => rfl
  | succ k ih =>
    have hstep : (⟨2 * m, false, false⟩ : ExtendedMantissa).shiftRightOne = ⟨m, false, false⟩ := by
      simp [ExtendedMantissa.shiftRightOne]
    have hassoc : m <<< (k + 1) = (2 * m) <<< k := by
      rw [Nat.shiftLeft_eq, Nat.shiftLeft_eq, Nat.pow_succ]
      ring
    rw [hassoc, Nat.repeat, ih (2 * m), hstep]

/-- The shift to the target exponent reaches the canonical mantissa of a number. -/
lemma shiftToTargetExponent_eq {M m : ℕ} {E e : ℤ} (hm : Canonical m e)
    (h : scaled M E = scaled m e) (hle : E ≤ e) :
    shiftToTargetExponent .binary64 M E .exact = (⟨m, false, false⟩, e) := by
  have hM : 0 < M := by
    rw [eq_shiftLeft_of_scaled_eq h hle, Nat.shiftLeft_eq]
    have hpos := hm.pos
    positivity
  have hexp : E + ((e - E).toNat : ℕ) = e := by omega
  unfold shiftToTargetExponent shiftToExponent
  dsimp only [ExtendedMantissa.ofMantissaAndAccuracy]
  rw [totalExponent_congr hM hm.pos h, hm.exponent_eq, hexp]
  rw [eq_shiftLeft_of_scaled_eq h hle, shiftRight_shiftLeft]

/-- A number that has a canonical mantissa is rounded to it, from any longer mantissa. -/
lemma roundWithAccuracy_eq {M m : ℕ} {E e : ℤ} (hm : Canonical m e) (h : scaled M E = scaled m e)
    (hle : E ≤ e) (s : Sign) :
    roundWithAccuracy .binary64 s M E .exact = .finite s m e hm.pos := by
  unfold roundWithAccuracy
  rw [shiftToTargetExponent_eq hm h hle]
  dsimp only [ExtendedMantissa.roundedMantissa, ExtendedMantissa.accuracy,
    Accuracy.roundToNearestEven]
  rw [shiftToTargetExponent_eq hm rfl le_rfl]
  exact dif_neg hm.pos.ne'

/-- A number that has a canonical mantissa is rounded to it, from any mantissa. -/
lemma round_eq {M m : ℕ} {E e : ℤ} (hm : Canonical m e) (h : scaled M E = scaled m e) (s : Sign) :
    UnpackedFloat.round .binary64 s M E = .finite s m e hm.pos := by
  have hM : 0 < M := by
    have hpos := scaled_pos hm.pos e
    rw [← h] at hpos
    exact Nat.pos_of_ne_zero fun hzero => by simp [scaled, hzero] at hpos
  unfold UnpackedFloat.round decreaseExponent
  dsimp only
  rw [totalExponent_congr hM hm.pos h, hm.exponent_eq]
  refine roundWithAccuracy_eq hm ((scaled_shiftLeft M _ E).trans h) ?_ s
  omega

/-! ### Packing -/

/-- The bit in front of a normal mantissa counts `2 ^ 52`. -/
lemma toNat_one_append (v : BitVec 52) : (1#1 ++ v).toNat = 2 ^ 52 + v.toNat := by
  rw [BitVec.toNat_append, ← Nat.shiftLeft_add_eq_or_of_lt v.isLt]
  rfl

/-- A mantissa between `2 ^ 52` and its double has 53 bits. -/
lemma log2_eq_of_normal {m : ℕ} (hle : 2 ^ 52 ≤ m) (hlt : m < 2 ^ 53) : m.log2 = 52 :=
  (Nat.log2_eq_iff (by omega)).mpr ⟨hle, hlt⟩

/-- Mantissa and exponent of a finite double are canonical. -/
lemma canonical_of_unpack {x : Float} {s : Sign} {m : ℕ} {e : ℤ} {hm : 0 < m}
    (h : x.toModel.unpack = .finite s m e hm) : Canonical m e := by
  change UnpackedFloat.unpack .binary64 _ = _ at h
  unfold UnpackedFloat.unpack at h
  dsimp only at h
  split at h
  · split at h <;> cases h
  · split at h
    · split at h
      · cases h
      · -- Subnormal: fewer than 53 bits, and the smallest exponent.
        next hzero _ =>
        injection h with _ hmant hexp
        have hlt : m < 2 ^ 52 := hmant ▸ BitVec.isLt _
        rw [hzero] at hexp
        refine canonical_of_log2 hm ?_ hexp.le (Or.inr hexp.symm)
        exact ((Nat.log2_lt hm.ne').mpr hlt).le
    · -- Normal: the leading bit is there.
      next hzero =>
      injection h with _ hmant hexp
      rw [toNat_one_append] at hmant
      have hlt : (@unpackMantissa .binary64 x.toModel.toBits.toBitVec).toNat < 2 ^ 52 :=
        BitVec.isLt _
      have hne : (@unpackExponent .binary64 x.toModel.toBits.toBitVec).toNat ≠ 0 :=
        mt (fun h => BitVec.eq_of_toNat_eq h) hzero
      have hbias : Format.binary64.exponentBias = 1023 := rfl
      have hlog : m.log2 = 52 := log2_eq_of_normal (by omega) (by omega)
      exact canonical_of_log2 hm hlog.le (by omega) (Or.inl hlog)

/-- The exponent of a finite double is in the range of the format. -/
lemma exponent_le_of_unpack {x : Float} {s : Sign} {m : ℕ} {e : ℤ} {hm : 0 < m}
    (h : x.toModel.unpack = .finite s m e hm) : e ≤ 971 := by
  change UnpackedFloat.unpack .binary64 _ = _ at h
  unfold UnpackedFloat.unpack at h
  dsimp only at h
  split at h
  · split at h <;> cases h
  · next hones =>
    have hlt : (@unpackExponent .binary64 x.toModel.toBits.toBitVec).toNat < 2 ^ 11 := BitVec.isLt _
    have hne : (@unpackExponent .binary64 x.toModel.toBits.toBitVec).toNat ≠ 2047 :=
      mt (fun heq => BitVec.eq_of_toNat_eq heq) hones
    have hbias : Format.binary64.exponentBias = 1023 := rfl
    split at h
    · next hzero =>
      split at h
      · cases h
      · injection h with _ _ hexp
        rw [hzero, hbias] at hexp
        rw [← hexp]
        decide
    · injection h with _ _ hexp
      rw [hbias] at hexp
      omega

/-- The sign of packed components is the one that was packed. -/
lemma unpackSign_packComponents {spec : Format} (s : Sign) (e : BitVec spec.exponentBits)
    (m : BitVec spec.mantissaBitsWithoutImplicit) :
    unpackSign (packComponents spec s e m) = s.toBitVec := by
  refine BitVec.eq_of_getLsbD_eq fun i hi => ?_
  obtain rfl : i = 0 := Nat.lt_one_iff.mp hi
  simp [unpackSign, packComponents, BitVec.getLsbD_append, BitVec.getElem_append]

/-- Every 53-bit mantissa with an exponent in the range of the format is that of a double. -/
lemma exists_unpack_eq_normal (s : Sign) {m : ℕ} {e : ℤ} (hm : 0 < m) (hlog : m.log2 = 52)
    (hlow : -1074 ≤ e) (hhigh : e ≤ 971) : ∃ x : Float, x.toModel.unpack = .finite s m e hm := by
  refine ⟨.ofModel (.pack (.finite s m e hm)), ?_⟩
  change UnpackedFloat.unpack .binary64 (UnpackedFloat.pack .binary64 _) = _
  obtain ⟨hle, hlt⟩ := (Nat.log2_eq_iff hm.ne').mp hlog
  have hbiased : e + Format.binary64.exponentBias + Format.binary64.mantissaBitsWithoutImplicit =
      e + 1075 := by
    have hbias : Format.binary64.exponentBias = 1023 := rfl
    rw [hbias]
    push_cast
    ring
  have hpack : UnpackedFloat.pack .binary64 (.finite s m e hm) =
      packComponents .binary64 s (BitVec.ofNat 11 (e + 1075).toNat) (BitVec.ofNat 52 m) := by
    unfold UnpackedFloat.pack
    dsimp only
    rw [hbiased, if_neg (by omega), if_pos (by rw [hlog]; rfl)]
  have hexp : (BitVec.ofNat 11 (e + 1075).toNat).toNat = (e + 1075).toNat := by
    rw [BitVec.toNat_ofNat]
    omega
  have hmant : (1#1 ++ BitVec.ofNat 52 m).toNat = m := by
    rw [toNat_one_append, BitVec.toNat_ofNat]
    omega
  have hzero : BitVec.ofNat 11 (e + 1075).toNat ≠ 0#11 := by
    intro h
    have hnat := congrArg BitVec.toNat h
    rw [hexp, BitVec.toNat_zero] at hnat
    omega
  have hones : BitVec.ofNat 11 (e + 1075).toNat ≠ -1#11 := by
    intro h
    have hnat : _ = 2047 := congrArg BitVec.toNat h
    rw [hexp] at hnat
    omega
  have hsign : Sign.ofBitVec s.toBitVec = s := by cases s <;> rfl
  rw [hpack]
  unfold UnpackedFloat.unpack
  simp only [unpackExponent_packComponents, unpackMantissa_packComponents,
    unpackSign_packComponents, hones, hzero, hsign, hexp, hmant, if_false,
    UnpackedFloat.finite.injEq, true_and]
  have hrange : ((e + 1075).toNat : ℤ) = e + 1075 := Int.toNat_of_nonneg (by omega)
  rw [hrange]
  linarith only [hbiased]

/-- Every shorter mantissa with the smallest exponent is that of a double. -/
lemma exists_unpack_eq_subnormal (s : Sign) {m : ℕ} (hm : 0 < m) (hlt : m < 2 ^ 52) :
    ∃ x : Float, x.toModel.unpack = .finite s m (-1074) hm := by
  refine ⟨.ofModel (.pack (.finite s m (-1074) hm)), ?_⟩
  change UnpackedFloat.unpack .binary64 (UnpackedFloat.pack .binary64 _) = _
  have hlog : m.log2 + 1 ≠ Format.binary64.mantissaBits := by
    have hshort : m.log2 < 52 := (Nat.log2_lt hm.ne').mpr hlt
    change m.log2 + 1 ≠ 53
    omega
  have hpack : UnpackedFloat.pack .binary64 (.finite s m (-1074) hm) =
      packComponents .binary64 s (0#11) (BitVec.ofNat 52 m) := by
    unfold UnpackedFloat.pack
    dsimp only
    rw [if_neg (by decide), if_neg hlog]
  have hmant : (BitVec.ofNat 52 m).toNat = m := by
    rw [BitVec.toNat_ofNat]
    omega
  have hne : BitVec.ofNat 52 m ≠ 0#52 := by
    intro h
    have hnat := congrArg BitVec.toNat h
    rw [hmant, BitVec.toNat_zero] at hnat
    omega
  have hones : (0#11 : BitVec 11) ≠ -1#11 := by decide
  have hsign : Sign.ofBitVec s.toBitVec = s := by cases s <;> rfl
  rw [hpack]
  unfold UnpackedFloat.unpack
  simp only [unpackExponent_packComponents, unpackMantissa_packComponents,
    unpackSign_packComponents, hones, hne, hsign, hmant, if_false, dite_false, if_true,
    UnpackedFloat.finite.injEq, true_and]
  rfl

/-- Every canonical mantissa with an exponent in the range of the format is that of a double. -/
lemma Canonical.exists_unpack_eq {m : ℕ} {e : ℤ} (h : Canonical m e) (he : e ≤ 971) (s : Sign) :
    ∃ x : Float, x.toModel.unpack = .finite s m e h.pos := by
  obtain ⟨hle, hlow, hfull⟩ := h.log2_le
  rcases Nat.lt_or_ge m (2 ^ 52) with hshort | hlong
  · obtain rfl : e = -1074 := hfull.resolve_left ((Nat.log2_lt h.pos.ne').mpr hshort).ne
    exact exists_unpack_eq_subnormal s h.pos hshort
  · have hlog : 52 ≤ m.log2 := (Nat.le_log2 h.pos.ne').mpr hlong
    exact exists_unpack_eq_normal s h.pos (le_antisymm hle hlog) hlow he

end ShapeGrammar.Number
