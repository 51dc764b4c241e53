import Mathlib
import ShapeGrammar.Proofs.Number.Order
import ShapeGrammar.Proofs.Number.Rounding

/-!
# The total order of bit patterns

Comparing doubles orders the numbers among them, with infinities, but takes the two zeros for the
same and leaves not-a-numbers out.  `Number.Precedes` is the order of all bit patterns that fills
this up: negative zero comes before zero, and the not-a-numbers stand at both ends by their signs,
those with the larger payload further out.

`Number.rank` gives the same order (`Number.rank_lt_iff`).  Without its sign a pattern is a natural
number, and the place of the double on the line of the numbers grows with it, exponent and mantissa
being read off its digits (`Number.sizeLevel_lt`).  A sign turns both around.
-/

namespace ShapeGrammar.Number

open Float.Model (Format UnpackedFloat)
open Float.Model.UnpackedFloat (Sign unpackExponent unpackMantissa unpackSign)

/-- The sign bit is set. -/
def Negative (bits : UInt64) : Prop := 2 ^ 63 ≤ bits.toNat

instance : DecidablePred Negative := fun bits => inferInstanceAs (Decidable (2 ^ 63 ≤ bits.toNat))

/-- The total order of bit patterns.  Numbers are in their order, negative zero before zero; the
negative not-a-numbers come before all of them and the positive ones after, and among
not-a-numbers of one sign the one with the smaller payload is nearer to the numbers. -/
def Precedes (a b : UInt64) : Prop :=
  match (Float.ofBits a).isNaN, (Float.ofBits b).isNaN with
  | false, false =>
    Float.ofBits a < Float.ofBits b ∨
      (Float.ofBits a == Float.ofBits b) = true ∧ Negative a ∧ ¬ Negative b
  | true, false => Negative a
  | false, true => ¬ Negative b
  | true, true => Negative a ∧ (¬ Negative b ∨ b < a) ∨ ¬ Negative a ∧ ¬ Negative b ∧ a < b

instance : DecidableRel Precedes := fun a b => by
  unfold Precedes
  split <;> infer_instance

/-! ### Places of bit patterns -/

/-- A pattern without its sign. -/
def size (bits : UInt64) : ℕ := bits.toNat % 2 ^ 63

lemma rank_eq (bits : UInt64) :
    rank bits = if Negative bits then -(size bits : ℤ) - 1 else (size bits : ℤ) := by
  have hsize : (bits &&& 0x7fffffffffffffff).toNat = size bits := by
    rw [UInt64.toNat_and]
    exact Nat.and_two_pow_sub_one_eq_mod _ 63
  have hsign : (bits >>> 63 == 1) = true ↔ Negative bits := by
    have hlt := bits.toNat_lt
    rw [beq_iff_eq, ← UInt64.toNat_inj, UInt64.toNat_shiftRight]
    change bits.toNat >>> 63 = 1 ↔ 2 ^ 63 ≤ bits.toNat
    rw [Nat.shiftRight_eq_div_pow]
    omega
  simp only [rank, hsize, hsign]

/-- Different patterns have different places. -/
lemma rank_inj {a b : UInt64} : rank a = rank b ↔ a = b := by
  refine ⟨fun h => ?_, fun h => congrArg rank h⟩
  have ha := a.toNat_lt
  have hb := b.toNat_lt
  rw [rank_eq, rank_eq] at h
  unfold size Negative at h
  rw [← UInt64.toNat_inj]
  split_ifs at h <;> omega

/-! ### Patterns that are numbers -/

/-- The largest pattern of a number without its sign, which is that of infinity. -/
def infiniteSize : ℕ := 2047 * 2 ^ 52

/-- The place on the line of the extended reals that a pattern without a sign has. -/
def sizeLevel (n : ℕ) : Level :=
  if n = 0 then toLex (0, toLex (0, 0))
  else if n < 2 ^ 52 then toLex (1, toLex (-1074, n))
  else if n < infiniteSize then toLex (1, toLex (n / 2 ^ 52 - 1075, 2 ^ 52 + n % 2 ^ 52))
  else toLex (2, toLex (0, 0))

/-- Places are compared by class, then by exponent, then by mantissa. -/
lemma toLex_lt {c c' e e' m m' : ℤ} (h : c < c' ∨ c = c' ∧ (e < e' ∨ e = e' ∧ m < m')) :
    (toLex (c, toLex (e, m)) : Level) < toLex (c', toLex (e', m')) := by
  rw [Prod.Lex.toLex_lt_toLex, Prod.Lex.toLex_lt_toLex]
  exact h

/-- Larger patterns are further up. -/
lemma sizeLevel_lt {m n : ℕ} (h : m < n) (hn : n ≤ infiniteSize) : sizeLevel m < sizeLevel n := by
  unfold sizeLevel infiniteSize at *
  -- The two are of one class and differ in their digits, or they are of different classes.
  split_ifs <;> first | omega | exact toLex_lt (by omega)

lemma sizeLevel_lt_iff {m n : ℕ} (hm : m ≤ infiniteSize) (hn : n ≤ infiniteSize) :
    sizeLevel m < sizeLevel n ↔ m < n := by
  refine ⟨fun h => ?_, fun h => sizeLevel_lt h hn⟩
  by_contra hle
  rcases (Nat.not_lt.mp hle).lt_or_eq with hlt | rfl
  · exact (sizeLevel_lt hlt hm).asymm h
  · exact lt_irrefl _ h

lemma zero_le_sizeLevel {n : ℕ} (hn : n ≤ infiniteSize) : 0 ≤ sizeLevel n := by
  rcases Nat.eq_zero_or_pos n with rfl | hpos
  · exact le_refl (sizeLevel 0)
  · exact (sizeLevel_lt hpos hn).le

/-! ### Patterns as doubles -/

section Fields

variable (bits : UInt64)

/-- The exponent field. -/
lemma toNat_unpackExponent :
    (@unpackExponent .binary64 bits.toBitVec).toNat = size bits / 2 ^ 52 := by
  have hlt := bits.toNat_lt
  have hfield : (@unpackExponent .binary64 bits.toBitVec).toNat =
      bits.toNat >>> 52 % 2 ^ 11 := BitVec.extractLsb_toNat _ _ _
  rw [hfield, Nat.shiftRight_eq_div_pow, size]
  omega

/-- The mantissa field. -/
lemma toNat_unpackMantissa :
    (@unpackMantissa .binary64 bits.toBitVec).toNat = size bits % 2 ^ 52 := by
  have hfield : (@unpackMantissa .binary64 bits.toBitVec).toNat =
      bits.toNat >>> 0 % 2 ^ 52 := BitVec.extractLsb_toNat _ _ _
  rw [hfield, Nat.shiftRight_zero, size]
  omega

/-- The sign field. -/
lemma ofBitVec_unpackSign :
    Sign.ofBitVec (@unpackSign .binary64 bits.toBitVec) =
      if Negative bits then .negative else .positive := by
  have hlt := bits.toNat_lt
  have hfield : (@unpackSign .binary64 bits.toBitVec).toNat =
      bits.toNat >>> 63 % 2 ^ 1 := BitVec.extractLsb_toNat _ _ _
  have hsign : @unpackSign .binary64 bits.toBitVec = 0#1 ↔ ¬ Negative bits := by
    rw [← BitVec.toNat_inj, hfield, Nat.shiftRight_eq_div_pow, Negative]
    change _ = 0 ↔ _
    omega
  simp only [Sign.ofBitVec, hsign, ite_not]

/-- All bits of the exponent field are set from the pattern of infinity on. -/
lemma unpackExponent_eq_ones_iff :
    @unpackExponent .binary64 bits.toBitVec = -1#11 ↔ infiniteSize ≤ size bits := by
  have hsize : size bits < 2 ^ 63 := Nat.mod_lt _ (by decide)
  rw [← BitVec.toNat_inj, toNat_unpackExponent, infiniteSize]
  change _ = 2047 ↔ _
  omega

lemma unpackExponent_eq_zero_iff :
    @unpackExponent .binary64 bits.toBitVec = 0#11 ↔ size bits < 2 ^ 52 := by
  rw [← BitVec.toNat_inj, toNat_unpackExponent]
  change _ = 0 ↔ _
  omega

lemma unpackMantissa_eq_zero_iff :
    @unpackMantissa .binary64 bits.toBitVec = 0#52 ↔ size bits % 2 ^ 52 = 0 := by
  rw [← BitVec.toNat_inj, toNat_unpackMantissa]
  rfl

end Fields

variable {bits : UInt64}

/-- Beyond infinity there are no numbers. -/
lemma unpack_eq_notANumber (h : infiniteSize < size bits) :
    UnpackedFloat.unpack .binary64 bits.toBitVec = .notANumber := by
  have hsize : size bits < 2 ^ 63 := Nat.mod_lt _ (by decide)
  unfold UnpackedFloat.unpack
  dsimp only
  rw [if_pos ((unpackExponent_eq_ones_iff bits).mpr h.le), if_neg]
  rw [unpackMantissa_eq_zero_iff]
  unfold infiniteSize at h
  omega

/-- A negative number is at the opposite place. -/
lemma unpackedLevel_finite (p : Prop) [Decidable p] {m : ℕ} (e : ℤ) (hm : 0 < m) :
    unpackedLevel (.finite (if p then .negative else .positive) m e hm) =
      if p then -toLex (1, toLex (e, (m : ℤ))) else toLex (1, toLex (e, (m : ℤ))) := by
  split <;> rfl

/-- A pattern up to that of infinity is a number, at the place of the pattern without its sign or at
the opposite one. -/
lemma unpackedLevel_unpack (h : size bits ≤ infiniteSize) :
    (UnpackedFloat.unpack .binary64 bits.toBitVec).isNaN = false ∧
      unpackedLevel (UnpackedFloat.unpack .binary64 bits.toBitVec) =
        if Negative bits then -sizeLevel (size bits) else sizeLevel (size bits) := by
  have hexp := toNat_unpackExponent bits
  have hmant := toNat_unpackMantissa bits
  have hbias : Format.binary64.exponentBias = 1023 := rfl
  have hinf : infiniteSize = 2047 * 2 ^ 52 := rfl
  unfold UnpackedFloat.unpack
  dsimp only
  rw [ofBitVec_unpackSign]
  split
  · next hones =>
    rw [unpackExponent_eq_ones_iff] at hones
    have hsize : size bits = infiniteSize := le_antisymm h hones
    have hzero : @unpackMantissa .binary64 bits.toBitVec = 0#52 := by
      rw [unpackMantissa_eq_zero_iff, hsize]
      rfl
    rw [if_pos hzero, hsize]
    refine ⟨rfl, ?_⟩
    split <;> rfl
  · next hones =>
    rw [unpackExponent_eq_ones_iff, not_le] at hones
    split
    · next hsub =>
      rw [unpackExponent_eq_zero_iff] at hsub
      split
      · next hzero =>
        have hsize : size bits = 0 := by
          rw [unpackMantissa_eq_zero_iff] at hzero
          omega
        rw [hsize]
        refine ⟨rfl, ?_⟩
        split <;> rfl
      · next hzero =>
        have hsize : size bits ≠ 0 := by
          rw [unpackMantissa_eq_zero_iff] at hzero
          omega
        have hmod : size bits % 2 ^ 52 = size bits := Nat.mod_eq_of_lt hsub
        have hlow : ((size bits / 2 ^ 52 : ℕ) : ℤ) - (1023 + 52) + 1 = -1074 := by omega
        refine ⟨rfl, ?_⟩
        rw [unpackedLevel_finite, hmant, hmod, hexp, hbias, sizeLevel, if_neg hsize, if_pos hsub]
        exact congrArg (fun l : Level => if Negative bits then -l else l)
          (congrArg (fun e : ℤ => toLex (1, toLex (e, (size bits : ℤ)))) hlow)
    · next hnormal =>
      rw [unpackExponent_eq_zero_iff] at hnormal
      have hsize : size bits ≠ 0 := by omega
      have hhigh : ((size bits / 2 ^ 52 : ℕ) : ℤ) - (1023 + 52) = size bits / 2 ^ 52 - 1075 := by
        omega
      have hlong : ((2 ^ 52 + size bits % 2 ^ 52 : ℕ) : ℤ) = 2 ^ 52 + size bits % 2 ^ 52 := by
        push_cast
        rfl
      refine ⟨rfl, ?_⟩
      rw [unpackedLevel_finite, toNat_one_append, hmant, hexp, hbias, sizeLevel, if_neg hsize,
        if_neg hnormal, if_pos hones, hlong]
      exact congrArg (fun l : Level => if Negative bits then -l else l)
        (congrArg (fun e : ℤ => toLex (1, toLex (e, (2 ^ 52 + size bits % 2 ^ 52 : ℤ)))) hhigh)

/-- Reading the bits of a number changes nothing in them. -/
lemma unpack_ofBits (h : size bits ≤ infiniteSize) :
    (Float.ofBits bits).toModel.unpack = UnpackedFloat.unpack .binary64 bits.toBitVec := by
  have hvalid : Format.binary64.Valid bits.toBitVec := by
    refine ⟨fun hones hmant => absurd ?_ hmant⟩
    have hsize := le_antisymm h ((unpackExponent_eq_ones_iff bits).mp hones)
    rw [unpackMantissa_eq_zero_iff, hsize]
    rfl
  have hself : Float.ofBits bits = ⟨⟨bits, hvalid⟩⟩ := Float.ofBits_toBits ⟨⟨bits, hvalid⟩⟩
  rw [hself]
  rfl

/-- The not-a-numbers are the patterns beyond that of infinity. -/
lemma isNaN_ofBits_iff : (Float.ofBits bits).isNaN = true ↔ infiniteSize < size bits := by
  constructor
  · intro hnan
    by_contra hle
    have hnumber := (unpackedLevel_unpack (Nat.not_lt.mp hle)).1
    rw [← unpack_ofBits (Nat.not_lt.mp hle)] at hnumber
    exact Bool.false_ne_true (hnumber.symm.trans hnan)
  · intro h
    have hself : Float.ofBits bits = notANumber :=
      congrArg (fun u => Float.ofModel (.pack u)) (unpack_eq_notANumber h)
    rw [hself]
    decide +kernel

/-- The place of a number, read off its bits. -/
lemma level_ofBits (h : size bits ≤ infiniteSize) :
    level (Float.ofBits bits) =
      if Negative bits then -sizeLevel (size bits) else sizeLevel (size bits) := by
  rw [level, unpack_ofBits h]
  exact (unpackedLevel_unpack h).2

/-! ### The order of places -/

/-- Among the patterns of numbers the order is that of the numbers, with negative zero before
zero. -/
lemma rank_lt_iff_of_number {a b : UInt64} (ha : size a ≤ infiniteSize)
    (hb : size b ≤ infiniteSize) :
    rank a < rank b ↔ Float.ofBits a < Float.ofBits b ∨
      (Float.ofBits a == Float.ofBits b) = true ∧ Negative a ∧ ¬ Negative b := by
  have hnumber : ∀ c : UInt64, size c ≤ infiniteSize → (Float.ofBits c).isNaN = false :=
    fun c hc => Bool.eq_false_iff.mpr (mt isNaN_ofBits_iff.mp (Nat.not_lt.mpr hc))
  have ha0 := zero_le_sizeLevel ha
  have hb0 := zero_le_sizeLevel hb
  rw [lt_iff (hnumber a ha) (hnumber b hb), beq_iff (hnumber a ha) (hnumber b hb),
    level_ofBits ha, level_ofBits hb, rank_eq, rank_eq]
  by_cases hna : Negative a
  · by_cases hnb : Negative b
    · rw [if_pos hna, if_pos hna, if_pos hnb, if_pos hnb, neg_lt_neg_iff, sizeLevel_lt_iff hb ha]
      simp only [hnb, not_true_eq_false, and_false, or_false]
      omega
    · rw [if_pos hna, if_pos hna, if_neg hnb, if_neg hnb]
      have hle : -sizeLevel (size a) ≤ sizeLevel (size b) := (neg_nonpos.mpr ha0).trans hb0
      refine iff_of_true (by omega) ?_
      rcases hle.lt_or_eq with hlt | heq
      · exact Or.inl hlt
      · exact Or.inr ⟨heq, hna, hnb⟩
  · by_cases hnb : Negative b
    · rw [if_neg hna, if_neg hna, if_pos hnb, if_pos hnb]
      have hle : -sizeLevel (size b) ≤ sizeLevel (size a) := (neg_nonpos.mpr hb0).trans ha0
      refine iff_of_false (by omega) ?_
      rintro (hlt | ⟨-, hna', -⟩)
      · exact hlt.not_ge hle
      · exact hna hna'
    · rw [if_neg hna, if_neg hna, if_neg hnb, if_neg hnb, sizeLevel_lt_iff ha hb]
      simp only [hna, false_and, and_false, or_false]
      omega

/-- Places are in the total order of bit patterns. -/
theorem rank_lt_iff (a b : UInt64) : rank a < rank b ↔ Precedes a b := by
  have hnan : ∀ c : UInt64, (Float.ofBits c).isNaN = true → infiniteSize < size c :=
    fun _ => isNaN_ofBits_iff.mp
  have hnumber : ∀ c : UInt64, (Float.ofBits c).isNaN = false → size c ≤ infiniteSize :=
    fun c hc => Nat.not_lt.mp (mt isNaN_ofBits_iff.mpr (Bool.eq_false_iff.mp hc))
  unfold Precedes
  cases ha : (Float.ofBits a).isNaN with
  | false =>
    have hsa := hnumber a ha
    cases hb : (Float.ofBits b).isNaN with
    | false => exact rank_lt_iff_of_number hsa (hnumber b hb)
    | true =>
      have hsb := hnan b hb
      change _ ↔ ¬ Negative b
      rw [rank_eq, rank_eq]
      unfold Negative
      split_ifs <;> omega
  | true =>
    have hsa := hnan a ha
    cases hb : (Float.ofBits b).isNaN with
    | false =>
      have hsb := hnumber b hb
      change _ ↔ Negative a
      rw [rank_eq, rank_eq]
      unfold Negative
      split_ifs <;> omega
    | true =>
      have hla := a.toNat_lt
      have hlb := b.toNat_lt
      rw [rank_eq, rank_eq, UInt64.lt_iff_toNat_lt, UInt64.lt_iff_toNat_lt]
      unfold Negative size
      split_ifs <;> omega

end ShapeGrammar.Number
