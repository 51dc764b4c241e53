import ShapeGrammar.Proofs.Number.Order
import ShapeGrammar.Proofs.Number.Rounding
import ShapeGrammar.Proofs.Number.Special

/-!
# The values of doubles, and exact operations

`Number.HasValue x r` says that the double `x` is finite and stands for the rational number `r`.  An
operation on doubles whose exact result is a double gives that result: this is what the lemmas
`HasValue.add`, `HasValue.sub`, `HasValue.mul` and `HasValue.div` say.  Each of them follows from
the same statement about unpacked doubles, where the operations compute a mantissa and an exponent
of the exact result and round only then.

Two doubles of one value are the same, except that there are two zeros (`HasValue.unique`).
-/

namespace ShapeGrammar.Number

open Float.Model (UnpackedFloat Format totalExponent)
open Float.Model.UnpackedFloat

/-! ### Values -/

/-- The number with a sign in front. -/
def withSign (s : Sign) (r : ℚ) : ℚ :=
  match s with
  | .negative => -r
  | .positive => r

/-- The value of an unpacked double, meaningless if it is not finite. -/
def unpackedValue : UnpackedFloat → ℚ
  | .finite s m e _ => withSign s (scaled m e)
  | _ => 0

/-- The value of a double, meaningless if it is not finite. -/
def value (x : Float) : ℚ := unpackedValue x.toModel.unpack

/-- The double is finite and stands for the number. -/
structure HasValue (x : Float) (r : ℚ) : Prop where
  isFinite : x.isFinite = true
  value_eq : value x = r

/-- There is a double for the number. -/
def Representable (r : ℚ) : Prop := ∃ x, HasValue x r

/-- The unpacked double stands for the number, with a canonical mantissa. -/
def Denotes : UnpackedFloat → ℚ → Prop
  | .zero _, r => r = 0
  | .finite s m e _, r => Canonical m e ∧ r = withSign s (scaled m e)
  | _, _ => False

lemma hasValue_iff_denotes {x : Float} {r : ℚ} : HasValue x r ↔ Denotes x.toModel.unpack r := by
  have hfinite : x.isFinite = x.toModel.unpack.isFinite := rfl
  cases h : x.toModel.unpack with
  | zero s =>
    rw [h] at hfinite
    refine ⟨fun hx => ?_, fun hr => ⟨hfinite, ?_⟩⟩
    · have hval := hx.value_eq
      rw [value, h] at hval
      exact hval.symm
    · rw [value, h]
      exact hr.symm
  | finite s m e hm =>
    rw [h] at hfinite
    refine ⟨fun hx => ⟨canonical_of_unpack h, ?_⟩, fun hr => ⟨hfinite, ?_⟩⟩
    · have hval := hx.value_eq
      rw [value, h] at hval
      exact hval.symm
    · rw [value, h]
      exact hr.2.symm
  | infinity s =>
    rw [h] at hfinite
    exact ⟨fun hx => Bool.noConfusion (hx.isFinite.symm.trans hfinite), fun hr => hr.elim⟩
  | notANumber =>
    rw [h] at hfinite
    exact ⟨fun hx => Bool.noConfusion (hx.isFinite.symm.trans hfinite), fun hr => hr.elim⟩

/-- A finite double has a value. -/
lemma hasValue_value {x : Float} (h : x.isFinite = true) : HasValue x (value x) := ⟨h, rfl⟩

/-- An unpacked double that stands for a number is a zero or has a canonical mantissa. -/
lemma Denotes.cases {u : UnpackedFloat} {r : ℚ} (h : Denotes u r) :
    (∃ s, u = .zero s ∧ r = 0) ∨
      ∃ s m e hm, u = .finite s m e hm ∧ Canonical m e ∧ r = withSign s (scaled m e) := by
  cases u with
  | zero s => exact Or.inl ⟨s, rfl, h⟩
  | finite s m e hm => exact Or.inr ⟨s, m, e, hm, rfl, h⟩
  | infinity s => exact h.elim
  | notANumber => exact h.elim

/-- A double with a value is a zero or has a canonical mantissa. -/
lemma HasValue.cases {x : Float} {r : ℚ} (h : HasValue x r) :
    (∃ s, x.toModel.unpack = .zero s ∧ r = 0) ∨
      ∃ s m e hm, x.toModel.unpack = .finite s m e hm ∧ Canonical m e ∧
        r = withSign s (scaled m e) :=
  (hasValue_iff_denotes.mp h).cases

/-! ### Signs -/

lemma cast_apply (s : Sign) (m : ℕ) : ((s.apply m : ℤ) : ℚ) = withSign s m := by
  cases s <;> simp [Sign.apply, withSign]

lemma withSign_neg (s : Sign) (r : ℚ) : withSign (-s) r = -withSign s r := by
  cases s
  · exact (neg_neg r).symm
  · rfl

lemma withSign_mul (s t : Sign) (a b : ℚ) :
    withSign (s * t) (a * b) = withSign s a * withSign t b := by
  cases s <;> cases t
  · exact (neg_mul_neg a b).symm
  · exact (neg_mul a b).symm
  · exact (mul_neg a b).symm
  · rfl

lemma withSign_div (s t : Sign) (a b : ℚ) :
    withSign (s / t) (a / b) = withSign s a / withSign t b := by
  cases s <;> cases t
  · exact (neg_div_neg_eq a b).symm
  · exact (neg_div b a).symm
  · exact (div_neg a).symm
  · rfl

lemma withSign_ne_zero {r : ℚ} (hr : 0 < r) (s : Sign) : withSign s r ≠ 0 := by
  cases s
  · exact (neg_lt_zero.mpr hr).ne
  · exact hr.ne'

/-- A number that is not zero determines its sign. -/
lemma withSign_injective {s t : Sign} {a b : ℚ} (ha : 0 < a) (hb : 0 < b)
    (h : withSign s a = withSign t b) : s = t ∧ a = b := by
  cases s <;> cases t <;> simp only [withSign] at h
  · exact ⟨rfl, neg_injective h⟩
  · linarith
  · linarith
  · exact ⟨rfl, h⟩

/-! ### Uniqueness -/

/-- Unpacked doubles with canonical mantissas that stand for one number are the same, unless they
are zeros. -/
lemma Denotes.unique {u v : UnpackedFloat} {r : ℚ} (hu : Denotes u r) (hv : Denotes v r) :
    u = v ∨ r = 0 := by
  obtain ⟨s, rfl, hzero⟩ | ⟨s, m, e, hm, rfl, hcan, rfl⟩ := hu.cases
  · exact Or.inr hzero
  · obtain ⟨t, rfl, hzero⟩ | ⟨t, n, f, hn, rfl, hcan', hval⟩ := hv.cases
    · exact Or.inr hzero
    · left
      obtain ⟨rfl, hscaled⟩ := withSign_injective (scaled_pos hm e) (scaled_pos hn f) hval
      obtain ⟨rfl, rfl⟩ := hcan.unique hcan' hscaled
      rfl

/-- Only a zero stands for zero. -/
lemma Denotes.eq_zero {u : UnpackedFloat} (h : Denotes u 0) : ∃ s, u = .zero s := by
  obtain ⟨s, rfl, -⟩ | ⟨s, m, e, hm, -, -, hval⟩ := h.cases
  · exact ⟨s, rfl⟩
  · exact absurd hval.symm (withSign_ne_zero (scaled_pos hm e) s)

/-- Packing keeps the value, if there is a double for it. -/
lemma HasValue.of_denotes {u : UnpackedFloat} {r : ℚ} (h : Denotes u r) (hr : Representable r) :
    HasValue (.ofModel (.pack u)) r := by
  obtain ⟨z, hz⟩ := hr
  rcases h.unique (hasValue_iff_denotes.mp hz) with rfl | rfl
  · rwa [ofModel_pack_unpack]
  · obtain ⟨s, rfl⟩ := h.eq_zero
    cases s <;> exact ⟨rfl, rfl⟩

/-- Doubles of one value are equal, and they are the same unless they are zeros. -/
lemma HasValue.unique {x y : Float} {r : ℚ} (hx : HasValue x r) (hy : HasValue y r) :
    x = y ∨ (∃ s, x.toModel.unpack = .zero s) ∧ ∃ s, y.toModel.unpack = .zero s := by
  have hx' := hasValue_iff_denotes.mp hx
  have hy' := hasValue_iff_denotes.mp hy
  rcases hx'.unique hy' with heq | rfl
  · left
    rw [← ofModel_pack_unpack x, heq, ofModel_pack_unpack]
  · exact Or.inr ⟨hx'.eq_zero, hy'.eq_zero⟩

/-! ### Rounding -/

/-- A number with a double has a canonical mantissa. -/
lemma Representable.exists_canonical {s : Sign} {a : ℚ} (ha : 0 < a)
    (h : Representable (withSign s a)) : ∃ m e, Canonical m e ∧ a = scaled m e := by
  obtain ⟨z, hz⟩ := h
  obtain ⟨t, -, hzero⟩ | ⟨t, m, e, hm, -, hcan, hval⟩ := hz.cases
  · exact absurd hzero (withSign_ne_zero ha s)
  · exact ⟨m, e, hcan, (withSign_injective ha (scaled_pos hm e) hval).2⟩

/-- Rounding gives the number itself if there is a double for it. -/
lemma denotes_round {s : Sign} {M : ℕ} {E : ℤ} (hM : 0 < M)
    (h : Representable (withSign s (scaled M E))) :
    Denotes (UnpackedFloat.round .binary64 s M E) (withSign s (scaled M E)) := by
  obtain ⟨m, e, hcan, hval⟩ := h.exists_canonical (scaled_pos hM E)
  rw [round_eq hcan hval, hval]
  exact ⟨hcan, rfl⟩

/-- Rounding a mantissa that is long enough gives the number itself if there is a double for it. -/
lemma denotes_roundWithAccuracy {s : Sign} {M : ℕ} {E : ℤ} (hM : 0 < M)
    (hE : E ≤ Format.binary64.targetExponent (totalExponent M E))
    (h : Representable (withSign s (scaled M E))) :
    Denotes (roundWithAccuracy .binary64 s M E .exact) (withSign s (scaled M E)) := by
  obtain ⟨m, e, hcan, hval⟩ := h.exists_canonical (scaled_pos hM E)
  rw [totalExponent_congr hM hcan.pos hval, hcan.exponent_eq] at hE
  rw [roundWithAccuracy_eq hcan hval hE, hval]
  exact ⟨hcan, rfl⟩

/-- Normalizing a mantissa that is not zero rounds its size, under its sign. -/
lemma exists_normalize_eq_round {K : ℤ} (hK : K ≠ 0) (E : ℤ) (s : Sign) :
    ∃ t M, 0 < M ∧ (K * 2 ^ E : ℚ) = withSign t (scaled M E) ∧
      UnpackedFloat.normalize .binary64 K E s = UnpackedFloat.round .binary64 t M E := by
  unfold UnpackedFloat.normalize
  rcases lt_or_gt_of_ne hK with hneg | hpos
  · refine ⟨.negative, (-K).toNat, by omega, ?_, by rw [compare_lt_iff_lt.mpr hneg]⟩
    have hcast : (((-K).toNat : ℕ) : ℚ) = -K := by
      have hint : (((-K).toNat : ℕ) : ℤ) = -K := Int.toNat_of_nonneg (by omega)
      exact_mod_cast hint
    rw [withSign, scaled, hcast, neg_mul, neg_neg]
  · refine ⟨.positive, K.toNat, by omega, ?_, by rw [compare_gt_iff_gt.mpr hpos]⟩
    have hcast : ((K.toNat : ℕ) : ℚ) = K := by
      have hint : ((K.toNat : ℕ) : ℤ) = K := Int.toNat_of_nonneg hpos.le
      exact_mod_cast hint
    rw [withSign, scaled, hcast]

/-- A mantissa of zero is normalized to zero. -/
lemma normalize_zero (E : ℤ) (s : Sign) :
    UnpackedFloat.normalize .binary64 0 E s = .zero s := by
  unfold UnpackedFloat.normalize
  rw [compare_eq_iff_eq.mpr rfl]

/-- Normalizing gives the number itself if there is a double for it. -/
lemma denotes_normalize {K E : ℤ} (h : Representable (K * 2 ^ E)) (s : Sign) :
    Denotes (UnpackedFloat.normalize .binary64 K E s) (K * 2 ^ E) := by
  rcases eq_or_ne K 0 with rfl | hK
  · rw [normalize_zero, Int.cast_zero, zero_mul]
    rfl
  · obtain ⟨t, M, hM, hval, hround⟩ := exists_normalize_eq_round hK E s
    rw [hround]
    rw [hval] at h ⊢
    exact denotes_round hM h

/-! ### Sums and differences -/

/-- A mantissa with a smaller exponent, with its sign. -/
lemma apply_decreaseExponent (s : Sign) (m : ℕ) {e E : ℤ} (h : E ≤ e) :
    ((s.apply (decreaseExponent m e E).1 : ℤ) : ℚ) * 2 ^ E = withSign s (scaled m e) := by
  have hexp : e - ((e - E).toNat : ℕ) = E := by omega
  have hshift := scaled_shiftLeft m (e - E).toNat e
  rw [hexp] at hshift
  rw [← hshift, cast_apply]
  cases s
  · exact neg_mul _ _
  · rfl

lemma Denotes.neg {u : UnpackedFloat} {r : ℚ} (h : Denotes u r) : Denotes u.neg (-r) := by
  obtain ⟨s, rfl, rfl⟩ | ⟨s, m, e, hm, rfl, hcan, rfl⟩ := h.cases
  · exact neg_zero
  · exact ⟨hcan, (withSign_neg s _).symm⟩

/-- A sum is the one number if the other is zero, or it is the sum of two mantissas of one exponent,
normalized. -/
lemma Denotes.add_cases {u v : UnpackedFloat} {a b : ℚ} (hu : Denotes u a) (hv : Denotes v b) :
    ((a = 0 ∨ b = 0) ∧ Denotes (.add .binary64 u v) (a + b)) ∨
      ∃ K E : ℤ, .add .binary64 u v = UnpackedFloat.normalize .binary64 K E .positive ∧
        a + b = K * 2 ^ E := by
  obtain ⟨s, rfl, rfl⟩ | ⟨s, m, e, hm, rfl, hcan, rfl⟩ := hu.cases
  · refine Or.inl ⟨Or.inl rfl, ?_⟩
    rw [zero_add]
    obtain ⟨t, rfl, rfl⟩ | ⟨t, n, f, hn, rfl, -, rfl⟩ := hv.cases
    · cases s <;> cases t <;> exact hv
    · exact hv
  · obtain ⟨t, rfl, rfl⟩ | ⟨t, n, f, hn, rfl, -, rfl⟩ := hv.cases
    · refine Or.inl ⟨Or.inr rfl, ?_⟩
      rw [add_zero]
      exact hu
    · refine Or.inr ⟨s.apply (decreaseExponent m e (min e f)).1 +
        t.apply (decreaseExponent n f (min e f)).1, min e f, rfl, ?_⟩
      rw [Int.cast_add, add_mul, apply_decreaseExponent s m (min_le_left e f),
        apply_decreaseExponent t n (min_le_right e f)]

lemma Denotes.add {u v : UnpackedFloat} {a b : ℚ} (hu : Denotes u a) (hv : Denotes v b)
    (h : Representable (a + b)) : Denotes (.add .binary64 u v) (a + b) := by
  obtain ⟨-, hden⟩ | ⟨K, E, hadd, hsum⟩ := hu.add_cases hv
  · exact hden
  · rw [hadd]
    rw [hsum] at h ⊢
    exact denotes_normalize h .positive

/-- To subtract is to add the negative. -/
lemma unpacked_sub (u v : UnpackedFloat) :
    UnpackedFloat.sub .binary64 u v = .add .binary64 u v.neg := by
  rcases u with s | _ | s | ⟨s, m, e, hm⟩ <;> rcases v with t | _ | t | ⟨t, n, f, hn⟩ <;>
    simp only [UnpackedFloat.sub, UnpackedFloat.add, UnpackedFloat.neg]
  have happly : t.apply (decreaseExponent n f (min e f)).1 =
      -(-t).apply (decreaseExponent n f (min e f)).1 := by
    cases t
    · rfl
    · exact (neg_neg _).symm
  rw [happly, sub_neg_eq_add]

/-! ### Products and quotients -/

lemma scaled_mul (m n : ℕ) (e f : ℤ) : scaled m e * scaled n f = scaled (m * n) (e + f) := by
  unfold scaled
  rw [zpow_add₀ two_ne_zero]
  push_cast
  ring

lemma log2_add_log2_le {m n : ℕ} (hm : 0 < m) (hn : 0 < n) :
    m.log2 + n.log2 ≤ (m * n).log2 := by
  rw [Nat.le_log2 (Nat.mul_pos hm hn).ne', pow_add]
  exact Nat.mul_le_mul (Nat.log2_self_le hm.ne') (Nat.log2_self_le hn.ne')

lemma log2_mul_le {m n : ℕ} (hm : 0 < m) (hn : 0 < n) :
    (m * n).log2 ≤ m.log2 + n.log2 + 1 := by
  have hlt : (m * n).log2 < (m.log2 + 1) + (n.log2 + 1) := by
    rw [Nat.log2_lt (Nat.mul_pos hm hn).ne', pow_add]
    exact Nat.mul_lt_mul'' Nat.lt_log2_self Nat.lt_log2_self
  omega

/-- The mantissa of a product is long enough: one of the factors has 53 bits, or both have the
smallest exponent. -/
lemma Canonical.add_le_targetExponent {m n : ℕ} {e f : ℤ} (hm : Canonical m e)
    (hn : Canonical n f) :
    e + f ≤ Format.binary64.targetExponent (totalExponent (m * n) (e + f)) := by
  have hlog := log2_add_log2_le hm.pos hn.pos
  have hm' := hm.log2_le
  have hn' := hn.log2_le
  rw [targetExponent_eq]
  omega

/-- A product is zero, or the product of the mantissas is rounded. -/
lemma Denotes.mul_cases {u v : UnpackedFloat} {a b : ℚ} (hu : Denotes u a) (hv : Denotes v b) :
    (a * b = 0 ∧ Denotes (.mul .binary64 u v) 0) ∨
      ∃ s M E, 0 < M ∧ E ≤ Format.binary64.targetExponent (totalExponent M E) ∧
        .mul .binary64 u v = roundWithAccuracy .binary64 s M E .exact ∧
        a * b = withSign s (scaled M E) := by
  obtain ⟨s, rfl, rfl⟩ | ⟨s, m, e, hm, rfl, hcan, rfl⟩ := hu.cases
  · refine Or.inl ⟨zero_mul b, ?_⟩
    obtain ⟨t, rfl, rfl⟩ | ⟨t, n, f, hn, rfl, -, rfl⟩ := hv.cases <;> rfl
  · obtain ⟨t, rfl, rfl⟩ | ⟨t, n, f, hn, rfl, hcan', rfl⟩ := hv.cases
    · exact Or.inl ⟨mul_zero _, rfl⟩
    · have htarget := hcan.add_le_targetExponent hcan'
      refine Or.inr ⟨s * t, m * n, e + f, Nat.mul_pos hm hn, htarget, rfl, ?_⟩
      rw [← withSign_mul, scaled_mul]

lemma Denotes.mul {u v : UnpackedFloat} {a b : ℚ} (hu : Denotes u a) (hv : Denotes v b)
    (h : Representable (a * b)) : Denotes (.mul .binary64 u v) (a * b) := by
  obtain ⟨hzero, hden⟩ | ⟨s, M, E, hM, hE, hmul, hprod⟩ := hu.mul_cases hv
  · rwa [hzero]
  · rw [hmul]
    rw [hprod] at h ⊢
    exact denotes_roundWithAccuracy hM hE h

/-- A quotient is zero, or the quotient of the mantissas is rounded, to as many bits as it was
computed. -/
lemma Denotes.div_cases {u v : UnpackedFloat} {a b : ℚ} (hu : Denotes u a) (hv : Denotes v b)
    (hb : b ≠ 0) :
    (a / b = 0 ∧ Denotes (.div .binary64 u v) 0) ∨
      ∃ s m e n f, 0 < m ∧ 0 < n ∧
        (∀ q E acc, divCore .binary64 m e n f = (q, E, acc) →
          .div .binary64 u v = roundWithAccuracy .binary64 s q E acc) ∧
        a / b = withSign s (scaled m e / scaled n f) := by
  obtain ⟨t, rfl, rfl⟩ | ⟨t, n, f, hn, rfl, -, rfl⟩ := hv.cases
  · exact absurd rfl hb
  · obtain ⟨s, rfl, rfl⟩ | ⟨s, m, e, hm, rfl, -, rfl⟩ := hu.cases
    · exact Or.inl ⟨zero_div _, rfl⟩
    · refine Or.inr ⟨s / t, m, e, n, f, hm, hn, ?_, (withSign_div s t _ _).symm⟩
      intro q E acc hcore
      unfold UnpackedFloat.div
      dsimp only
      rw [hcore]

/-- The quotient of two mantissas comes out even if there is a double for the quotient of the
numbers. -/
lemma divCore_eq {m n k : ℕ} {e f g : ℤ} (hm : 0 < m) (hn : 0 < n) (hk : Canonical k g)
    (h : scaled m e = scaled k g * scaled n f) :
    ∃ E ≤ g, divCore .binary64 m e n f = (k <<< (g - E).toNat, E, .exact) := by
  rw [scaled_mul] at h
  have htotal := totalExponent_congr hm (Nat.mul_pos hk.pos hn) h
  set E := min (e - f) (Format.binary64.targetExponent (totalExponent m e - totalExponent n f))
    with hE
  have hEle : E ≤ e - f := min_le_left _ _
  have hEg : E ≤ g := by
    have hlog := log2_mul_le hk.pos hn
    have htarget : Format.binary64.targetExponent (totalExponent m e - totalExponent n f) =
        max (totalExponent m e - totalExponent n f - 53) (-1074) := rfl
    have hg : Format.binary64.targetExponent (totalExponent k g) =
        max (totalExponent k g - 53) (-1074) := rfl
    rw [hk.exponent_eq] at hg
    refine (min_le_right _ _).trans ?_
    rw [htarget, htotal]
    unfold totalExponent at hg ⊢
    omega
  refine ⟨E, hEg, ?_⟩
  have hshift : m <<< (e - f - E).toNat = k <<< (g - E).toNat * n := by
    have hexp : e - ((e - f - E).toNat : ℕ) = E + f := by omega
    have hval := scaled_shiftLeft m (e - f - E).toNat e
    rw [hexp, h] at hval
    have heq := eq_shiftLeft_of_scaled_eq hval (by omega)
    rw [add_sub_add_right_eq_sub] at heq
    rw [heq, Nat.shiftLeft_eq, Nat.shiftLeft_eq, Nat.mul_right_comm]
  unfold divCore
  dsimp only
  rw [← hE, hshift, Nat.mul_div_cancel _ hn, Nat.mul_mod_left]
  rfl

lemma Denotes.div {u v : UnpackedFloat} {a b : ℚ} (hu : Denotes u a) (hv : Denotes v b)
    (hb : b ≠ 0) (h : Representable (a / b)) : Denotes (.div .binary64 u v) (a / b) := by
  obtain ⟨hzero, hden⟩ | ⟨s, m, e, n, f, hm, hn, hdiv, hquot⟩ := hu.div_cases hv hb
  · rwa [hzero]
  · rw [hquot] at h ⊢
    obtain ⟨k, g, hk, hval⟩ := h.exists_canonical (div_pos (scaled_pos hm e) (scaled_pos hn f))
    have hmul : scaled m e = scaled k g * scaled n f := (div_eq_iff (scaled_pos hn f).ne').mp hval
    obtain ⟨E, hE, hcore⟩ := divCore_eq hm hn hk hmul
    have hexp : g - ((g - E).toNat : ℕ) = E := by omega
    have hshift := scaled_shiftLeft k (g - E).toNat g
    rw [hexp] at hshift
    rw [hdiv _ _ _ hcore, roundWithAccuracy_eq hk hshift hE s, hval]
    exact ⟨hk, rfl⟩

/-! ### Exact operations -/

section Exact

variable {x y : Float} {a b : ℚ} (hx : HasValue x a) (hy : HasValue y b)

include hx hy

/-- A sum that is a double is computed exactly. -/
lemma HasValue.add (h : Representable (a + b)) : HasValue (x + y) (a + b) :=
  .of_denotes ((hasValue_iff_denotes.mp hx).add (hasValue_iff_denotes.mp hy) h) h

/-- A difference that is a double is computed exactly. -/
lemma HasValue.sub (h : Representable (a - b)) : HasValue (x - y) (a - b) := by
  have hden := (hasValue_iff_denotes.mp hx).add (hasValue_iff_denotes.mp hy).neg
  rw [← sub_eq_add_neg, ← unpacked_sub] at hden
  exact .of_denotes (hden h) h

/-- A product that is a double is computed exactly. -/
lemma HasValue.mul (h : Representable (a * b)) : HasValue (x * y) (a * b) :=
  .of_denotes ((hasValue_iff_denotes.mp hx).mul (hasValue_iff_denotes.mp hy) h) h

/-- A quotient that is a double is computed exactly. -/
lemma HasValue.div (hb : b ≠ 0) (h : Representable (a / b)) : HasValue (x / y) (a / b) :=
  .of_denotes ((hasValue_iff_denotes.mp hx).div (hasValue_iff_denotes.mp hy) hb h) h

end Exact

/-! ### Numbers with a double -/

lemma representable_zero : Representable 0 := ⟨0, rfl, rfl⟩

/-- A number with a canonical mantissa has a double, unless the exponent is too large. -/
lemma Canonical.representable {m : ℕ} {e : ℤ} (h : Canonical m e) (he : e ≤ 971) (s : Sign) :
    Representable (withSign s (scaled m e)) := by
  obtain ⟨x, hx⟩ := h.exists_unpack_eq he s
  refine ⟨x, hasValue_iff_denotes.mpr ?_⟩
  rw [hx]
  exact ⟨h, rfl⟩

/-- A mantissa of at most 53 bits has a double at every exponent of the format. -/
lemma representable_scaled {m : ℕ} {e : ℤ} (hm : m < 2 ^ 53) (hlow : -1074 ≤ e) (hhigh : e ≤ 971)
    (s : Sign) : Representable (withSign s (scaled m e)) := by
  rcases Nat.eq_zero_or_pos m with rfl | hpos
  · have hzero : withSign s (scaled 0 e) = 0 := by
      cases s <;> simp [withSign, scaled]
    rw [hzero]
    exact representable_zero
  · have hlog : m.log2 ≤ 52 := Nat.le_of_lt_succ ((Nat.log2_lt hpos.ne').mpr hm)
    generalize hk : min (52 - m.log2) (e + 1074).toNat = k
    have hshift : 0 < m <<< k := by
      rw [Nat.shiftLeft_eq]
      positivity
    have hlen := log2_shiftLeft hpos k
    have hcan : Canonical (m <<< k) (e - k) :=
      canonical_of_log2 hshift (by omega) (by omega) (by omega)
    rw [← scaled_shiftLeft m k e]
    exact hcan.representable (by omega) s

/-- Such a mantissa is not rounded. -/
lemma hasValue_nearest_of_pos {s : Sign} {n : ℕ} {e : ℤ} (hpos : 0 < n) (hn : n < 2 ^ 53)
    (hlow : -1074 ≤ e) (hhigh : e ≤ 971) : HasValue (nearest s n e) (withSign s (scaled n e)) :=
  have hrep := representable_scaled hn hlow hhigh s
  .of_denotes (denotes_round hpos hrep) hrep

/-- A number that fits into 53 bits has a double, at every scale within the range of the format. -/
lemma representable_of_natAbs_lt {n e : ℤ} (hn : n.natAbs < 2 ^ 53) (hlow : -1074 ≤ e)
    (hhigh : e ≤ 971) : Representable (n * 2 ^ e) := by
  have hsign : ∃ s, (n * 2 ^ e : ℚ) = withSign s (scaled n.natAbs e) := by
    rcases le_total 0 n with hpos | hneg
    · refine ⟨.positive, ?_⟩
      rw [withSign, scaled, Nat.cast_natAbs, abs_of_nonneg hpos]
    · refine ⟨.negative, ?_⟩
      rw [withSign, scaled, Nat.cast_natAbs, abs_of_nonpos hneg, Int.cast_neg, neg_mul, neg_neg]
  obtain ⟨s, hs⟩ := hsign
  rw [hs]
  exact representable_scaled hn hlow hhigh s

/-- With a number, its negative has a double. -/
lemma Representable.neg {r : ℚ} (h : Representable r) : Representable (-r) := by
  obtain ⟨x, hx⟩ := h
  obtain ⟨s, -, rfl⟩ | ⟨s, m, e, hm, hunpack, hcan, rfl⟩ := hx.cases
  · rw [neg_zero]
    exact representable_zero
  · rw [← withSign_neg]
    exact hcan.representable (exponent_le_of_unpack hunpack) (-s)

/-! ### Whole numbers and comparisons -/

/-- The size of a number with a sign. -/
lemma abs_withSign {r : ℚ} (hr : 0 ≤ r) (s : Sign) : |withSign s r| = r := by
  cases s
  · exact (abs_neg r).trans (abs_of_nonneg hr)
  · exact abs_of_nonneg hr

lemma abs_withSign_sub (s : Sign) (a b : ℚ) : |withSign s a - withSign s b| = |a - b| := by
  cases s
  · rw [withSign, withSign, neg_sub_neg, abs_sub_comm]
  · rfl

/-- A whole number is rounded to itself. -/
lemma HasValue.roundHalfAway_eq {x : Float} {n : ℤ} (hx : HasValue x n) : roundHalfAway x = x := by
  unfold roundHalfAway
  split
  · next s m k hm hunpack =>
    have hden := hasValue_iff_denotes.mp hx
    rw [hunpack] at hden
    obtain ⟨hcan, hval⟩ := hden
    have hsize : scaled n.natAbs 0 = scaled m (.negSucc k) := by
      rw [← abs_withSign (scaled_pos hm _).le s, ← hval, scaled, zpow_zero, mul_one,
        Nat.cast_natAbs, Int.cast_abs]
    -- The bits behind the point are zeros, and a half does not carry over them.
    have hmant : m = n.natAbs <<< (k + 1) := by
      have hle : Int.negSucc k ≤ 0 := by omega
      have heq := eq_shiftLeft_of_scaled_eq hsize.symm hle
      have hexp : (0 - Int.negSucc k).toNat = k + 1 := by omega
      rwa [hexp] at heq
    have hhalf : (m + 1 <<< k) >>> (k + 1) = n.natAbs := by
      rw [hmant, Nat.shiftLeft_eq, Nat.shiftLeft_eq, one_mul, Nat.shiftRight_eq_div_pow,
        Nat.mul_comm, Nat.mul_add_div (by positivity), Nat.div_eq_of_lt, add_zero]
      exact Nat.pow_lt_pow_right one_lt_two (Nat.lt_succ_self k)
    rw [hhalf, nearest, round_eq hcan hsize, ← hunpack, ofModel_pack_unpack]
  · rfl

lemma HasValue.representable {x : Float} {r : ℚ} (hx : HasValue x r) : Representable r := ⟨x, hx⟩

lemma hasValue_zero : HasValue 0 0 := ⟨rfl, rfl⟩

lemma hasValue_one : HasValue 1 1 := by
  refine ⟨rfl, ?_⟩
  have hunpack : (1 : Float).toModel.unpack = .finite .positive (2 ^ 52) (-52) (by decide) := rfl
  rw [value, hunpack, unpackedValue, withSign, scaled]
  norm_num

/-- A product with one has the value of the other factor. -/
lemma HasValue.times_one {x : Float} {r : ℚ} (hx : HasValue x r) : HasValue (x * 1) r := by
  have hprod := hx.mul hasValue_one ((mul_one r).symm ▸ hx.representable)
  rwa [mul_one] at hprod

/-- The quotient of a number by itself is one. -/
lemma HasValue.div_self_eq_one {x : Float} {r : ℚ} (hx : HasValue x r) (hr : r ≠ 0) :
    x / x = 1 := by
  have hquot := hx.div hx hr ((div_self hr).symm ▸ hasValue_one.representable)
  rw [div_self hr] at hquot
  refine (hquot.unique hasValue_one).resolve_right ?_
  rintro ⟨-, s, hs⟩
  exact UnpackedFloat.noConfusion hs

/-- Comparisons see the value only. -/
lemma HasValue.level_eq {x y : Float} {r : ℚ} (hx : HasValue x r) (hy : HasValue y r) :
    level x = level y := by
  rcases hx.unique hy with rfl | ⟨⟨s, hs⟩, ⟨t, ht⟩⟩
  · rfl
  · rw [level, level, hs, ht]
    rfl

/-- Doubles of one value are equal. -/
lemma HasValue.beq {x y : Float} {r : ℚ} (hx : HasValue x r) (hy : HasValue y r) :
    (x == y) = true := by
  rw [beq_iff (isNaN_of_isFinite hx.isFinite) (isNaN_of_isFinite hy.isFinite)]
  exact hx.level_eq hy

/-- A finite double above zero has a value that is not zero. -/
lemma value_ne_zero_of_pos {x : Float} (hfinite : x.isFinite = true) (hpos : 0 < x) :
    value x ≠ 0 := by
  intro hzero
  have hlevel : level 0 = level x := hasValue_zero.level_eq ⟨hfinite, hzero⟩
  rw [lt_iff rfl (isNaN_of_isFinite hfinite), hlevel] at hpos
  exact lt_irrefl _ hpos

/-- A finite double is above zero exactly if it is not at most zero. -/
lemma pos_iff_of_isFinite {x : Float} (hx : x.isFinite = true) : 0 < x ↔ ¬ x ≤ 0 := by
  have hnan := isNaN_of_isFinite hx
  have hzero : (0 : Float).isNaN = false := rfl
  rw [le_iff hnan hzero, not_le, ← lt_iff hzero hnan]

/-- A double is above zero exactly if its value is. -/
lemma HasValue.pos_iff {x : Float} {r : ℚ} (hx : HasValue x r) : 0 < x ↔ 0 < r := by
  have hlt : (0 : Float) < x ↔
      (0 : Float).toModel.unpack.lt x.toModel.unpack = true := decide_eq_true_iff
  have hzero : (0 : Float).toModel.unpack = .zero .positive := rfl
  rw [hlt, hzero]
  obtain ⟨s, hunpack, rfl⟩ | ⟨s, m, e, hm, hunpack, -, rfl⟩ := hx.cases <;> rw [hunpack]
  · exact ⟨fun h => Bool.noConfusion h, fun h => absurd h (lt_irrefl _)⟩
  · cases s
    · exact ⟨fun h => Bool.noConfusion h,
        fun h => absurd h (neg_neg_of_pos (scaled_pos hm e)).not_gt⟩
    · exact ⟨fun _ => scaled_pos hm e, fun _ => rfl⟩

lemma HasValue.nonpos_iff {x : Float} {r : ℚ} (hx : HasValue x r) : x ≤ 0 ↔ r ≤ 0 := by
  rw [← not_lt, ← hx.pos_iff, pos_iff_of_isFinite hx.isFinite, not_not]

/-- Comparing is comparing the unpacked doubles. -/
lemma le_iff_unpack (x y : Float) : x ≤ y ↔ x.toModel.unpack.le y.toModel.unpack = true :=
  decide_eq_true_iff

section Congruence

variable {x y : Float} {r : ℚ} (hx : HasValue x r) (hy : HasValue y r) (z : Float)

include hx hy

/-- Whether a double is at least `z` depends on its value only. -/
lemma HasValue.le_congr_right : z ≤ x ↔ z ≤ y := by
  rcases hx.unique hy with rfl | ⟨⟨s, hs⟩, ⟨t, ht⟩⟩
  · rfl
  · rw [le_iff_unpack, le_iff_unpack, hs, ht]
    rcases z.toModel.unpack with (_ | _) | _ | _ | ⟨_ | _, m, e, hm⟩ <;> rfl

/-- Whether a double is at most `z` depends on its value only. -/
lemma HasValue.le_congr_left : x ≤ z ↔ y ≤ z := by
  rcases hx.unique hy with rfl | ⟨⟨s, hs⟩, ⟨t, ht⟩⟩
  · rfl
  · rw [le_iff_unpack, le_iff_unpack, hs, ht]
    rcases z.toModel.unpack with (_ | _) | _ | _ | ⟨_ | _, m, e, hm⟩ <;> rfl

end Congruence

/-- Equal doubles have one value. -/
lemma HasValue.of_beq {x y : Float} {r : ℚ} (hy : HasValue y r) (h : (x == y) = true) :
    HasValue x r := by
  obtain ⟨-, -, rfl | ⟨rfl, rfl⟩ | ⟨rfl, rfl⟩⟩ := Float.beq_iff_ne_nan_and_eq.mp h
  · exact hy
  · exact ⟨rfl, hy.value_eq⟩
  · exact ⟨rfl, hy.value_eq⟩

end ShapeGrammar.Number
