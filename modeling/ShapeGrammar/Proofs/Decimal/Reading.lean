import Mathlib
import ShapeGrammar.Decimal.Layout
import ShapeGrammar.Proofs.Number.Value

/-!
# Reading decimals back

The text of a number without an exponent can be read back: it stands for a rational number
(`Decimal.textValue`), and that number is the one that was written (`Decimal.textValue_positional`).

A decimal is written for a double only if it lies in the interval of numbers that round to the
double (`Decimal.Binary.Covers`).  The intervals of different doubles have no number in common
(`Decimal.Binary.eq_of_covers`): between neighbours they meet in one point at most, and that point
belongs to the one with the even mantissa.  So different doubles have different texts
(`Number.plain_injective`).
-/

namespace ShapeGrammar

open Float.Model (UnpackedFloat Format)
open Float.Model.UnpackedFloat (Sign)

namespace Decimal

/-! ### Texts without an exponent -/

/-- The number that a decimal stands for. -/
def value (d : Decimal) : ℚ := d.digits * 10 ^ d.exponent

/-- The number that digits stand for, with or without a point among them. -/
def textValue (cs : List Char) : ℚ :=
  Nat.ofDigitChars 10 (cs.filter (· != '.')) 0 / 10 ^ ((cs.dropWhile (· != '.')).length - 1)

lemma ne_point_of_notMem {cs : List Char} (h : '.' ∉ cs) : ∀ c ∈ cs, (c != '.') = true := by
  intro c hc
  rw [bne_iff_ne]
  rintro rfl
  exact h hc

/-- Digits without a point are a whole number. -/
lemma textValue_whole {ws : List Char} (h : '.' ∉ ws) :
    textValue ws = Nat.ofDigitChars 10 ws 0 := by
  have hws := ne_point_of_notMem h
  rw [textValue, List.filter_eq_self.mpr hws, List.dropWhile_eq_nil_iff.mpr hws, List.length_nil,
    Nat.zero_sub, pow_zero, div_one]

/-- Every digit behind the point divides by ten. -/
lemma textValue_pointed {ws fs : List Char} (hws : '.' ∉ ws) (hfs : '.' ∉ fs) :
    textValue (ws ++ '.' :: fs) = Nat.ofDigitChars 10 (ws ++ fs) 0 / 10 ^ fs.length := by
  have hfilter : (ws ++ '.' :: fs).filter (· != '.') = ws ++ fs := by
    rw [List.filter_append, List.filter_cons_of_neg (by decide),
      List.filter_eq_self.mpr (ne_point_of_notMem hws),
      List.filter_eq_self.mpr (ne_point_of_notMem hfs)]
  have hdrop : (ws ++ '.' :: fs).dropWhile (· != '.') = '.' :: fs := by
    rw [List.dropWhile_append_of_pos (ne_point_of_notMem hws)]
    exact List.dropWhile_cons_of_neg (by decide)
  rw [textValue, hfilter, hdrop, List.length_cons, Nat.add_sub_cancel]

/-- There is no point among the digits of a decimal. -/
lemma isDigit_of_mem_digitText {d : Decimal} {c : Char} (h : c ∈ d.digitText) :
    c.isDigit = true :=
  Nat.isDigit_of_mem_toDigits (by decide) (by decide) h

lemma point_notMem_digitText (d : Decimal) : '.' ∉ d.digitText := fun h =>
  absurd (isDigit_of_mem_digitText h) (by decide)

lemma point_notMem_zeros (n : ℕ) : '.' ∉ List.replicate n '0' := fun h =>
  absurd (List.eq_of_mem_replicate h) (by decide)

/-- The digits read as a whole number. -/
lemma ofDigitChars_digitText (d : Decimal) : Nat.ofDigitChars 10 d.digitText 0 = d.digits :=
  Nat.ofDigitChars_ten_toDigits

/-- The text of a decimal stands for the decimal. -/
lemma textValue_positional (d : Decimal) : textValue d.positional = d.value := by
  unfold positional value
  dsimp only
  cases d.exponent with
  | ofNat k =>
    have hpoint : '.' ∉ d.digitText ++ List.replicate k '0' := by
      rw [List.mem_append, not_or]
      exact ⟨d.point_notMem_digitText, point_notMem_zeros k⟩
    rw [textValue_whole hpoint, Nat.ofDigitChars_append, ofDigitChars_digitText,
      Nat.ofDigitChars_replicate_zero, Int.ofNat_eq_natCast, zpow_natCast]
    push_cast
    ring
  | negSucc k =>
    have hpow : (10 : ℚ) ^ (Int.negSucc k) = (10 ^ (k + 1))⁻¹ := zpow_negSucc 10 k
    rw [hpow, ← div_eq_mul_inv]
    dsimp only
    split
    · next hlt =>
      have htake : '.' ∉ d.digitText.take (d.digitText.length - (k + 1)) :=
        fun h => d.point_notMem_digitText (List.mem_of_mem_take h)
      have hdrop : '.' ∉ d.digitText.drop (d.digitText.length - (k + 1)) :=
        fun h => d.point_notMem_digitText (List.mem_of_mem_drop h)
      rw [textValue_pointed htake hdrop, List.take_append_drop, ofDigitChars_digitText,
        List.length_drop, Nat.sub_sub_self hlt.le]
    · next hge =>
      have hzeros : '.' ∉ List.replicate (k + 1 - d.digitText.length) '0' ++ d.digitText := by
        rw [List.mem_append, not_or]
        exact ⟨point_notMem_zeros _, d.point_notMem_digitText⟩
      have hdigits : Nat.ofDigitChars 10
          (['0'] ++ (List.replicate (k + 1 - d.digitText.length) '0' ++ d.digitText)) 0 =
            d.digits := by
        rw [Nat.ofDigitChars_append, Nat.ofDigitChars_append, Nat.ofDigitChars_replicate_zero]
        exact ofDigitChars_digitText d
      have hpointed : textValue (['0'] ++ '.' :: _) = _ := textValue_pointed (by decide) hzeros
      rw [hdigits, List.length_append, List.length_replicate,
        Nat.sub_add_cancel (Nat.le_of_not_lt hge)] at hpointed
      exact hpointed

/-- The text of a decimal has digits and at most one point. -/
lemma isDigit_or_eq_point {d : Decimal} {c : Char} (h : c ∈ d.positional) :
    c.isDigit = true ∨ c = '.' := by
  have hzeros : ∀ n, c ∈ List.replicate n '0' → c.isDigit = true := fun n hc => by
    rw [List.eq_of_mem_replicate hc]
    rfl
  unfold positional at h
  dsimp only at h
  split at h
  · rcases List.mem_append.mp h with hc | hc
    · exact Or.inl (isDigit_of_mem_digitText hc)
    · exact Or.inl (hzeros _ hc)
  · split at h
    · rcases List.mem_append.mp h with hc | hc
      · exact Or.inl (isDigit_of_mem_digitText (List.mem_of_mem_take hc))
      · rcases List.mem_cons.mp hc with rfl | hc
        · exact Or.inr rfl
        · exact Or.inl (isDigit_of_mem_digitText (List.mem_of_mem_drop hc))
    · rcases List.mem_cons.mp h with rfl | h
      · exact Or.inl rfl
      · rcases List.mem_cons.mp h with rfl | h
        · exact Or.inr rfl
        · rcases List.mem_append.mp h with hc | hc
          · exact Or.inl (hzeros _ hc)
          · exact Or.inl (isDigit_of_mem_digitText hc)

/-! ### The numbers that round to a double -/

namespace Binary

/-- A quarter of the mantissa's unit. -/
def unit (b : Binary) : ℚ := 2 ^ (b.exponent - 2)

/-- The number rounds to the value; the ends of the interval count if the mantissa is even. -/
def Covers (b : Binary) (r : ℚ) : Prop :=
  if b.mantissa % 2 = 0 then b.low * b.unit ≤ r ∧ r ≤ b.high * b.unit
  else b.low * b.unit < r ∧ r < b.high * b.unit

lemma unit_pos (b : Binary) : 0 < b.unit := zpow_pos two_pos _

/-- A power with a whole exponent, as a quotient of powers with natural exponents. -/
lemma pow_toNat {a : ℚ} (ha : a ≠ 0) (n : ℤ) : a ^ n.toNat = a ^ n * a ^ (-n).toNat := by
  rw [← zpow_natCast, ← zpow_natCast, ← zpow_add₀ ha]
  congr 1
  omega

/-- Step and quarter unit are on one scale. -/
lemma step_mul_unit (b : Binary) (k : ℤ) :
    (b.step k : ℚ) * b.unit = 10 ^ k * (b.quarter k : ℚ) := by
  have hten : (10 : ℚ) ^ k.toNat = 10 ^ k * 10 ^ (-k).toNat := pow_toNat (by norm_num) k
  have htwo : (2 : ℚ) ^ (b.exponent - 2).toNat = b.unit * 2 ^ (2 - b.exponent).toNat := by
    rw [pow_toNat two_ne_zero, neg_sub]
    rfl
  rw [step, quarter, Nat.shiftLeft_eq, Nat.shiftLeft_eq, Nat.pow_eq, Nat.pow_eq]
  push_cast
  rw [hten, htwo]
  ring

/-- The test on the common scale asks whether the decimal is in the interval. -/
lemma reads_iff (b : Binary) (k : ℤ) (c : ℕ) : b.reads k c = true ↔ b.Covers (c * 10 ^ k) := by
  have hquarter : (0 : ℚ) < b.quarter k := by
    unfold quarter
    rw [Nat.shiftLeft_eq, Nat.pow_eq]
    positivity
  have hpoint : ((c * b.step k : ℕ) : ℚ) * b.unit = c * 10 ^ k * b.quarter k := by
    push_cast
    rw [mul_assoc, b.step_mul_unit, mul_assoc]
  have hend (n : ℕ) : ((n * b.quarter k : ℕ) : ℚ) * b.unit = n * b.unit * b.quarter k := by
    push_cast
    ring
  have hle (n : ℕ) : n * b.quarter k ≤ c * b.step k ↔ n * b.unit ≤ c * 10 ^ k := by
    rw [← Nat.cast_le (α := ℚ), ← mul_le_mul_iff_left₀ b.unit_pos, hend, hpoint,
      mul_le_mul_iff_left₀ hquarter]
  have hge (n : ℕ) : c * b.step k ≤ n * b.quarter k ↔ c * 10 ^ k ≤ n * b.unit := by
    rw [← Nat.cast_le (α := ℚ), ← mul_le_mul_iff_left₀ b.unit_pos, hend, hpoint,
      mul_le_mul_iff_left₀ hquarter]
  unfold reads Covers
  dsimp only
  split
  · rw [Bool.and_eq_true, decide_eq_true_iff, decide_eq_true_iff, hle, hge]
  · rw [Bool.and_eq_true, decide_eq_true_iff, decide_eq_true_iff, ← not_le, ← not_le, hle, hge,
      not_le, not_le]

/-- A multiple found on the grid rounds to the value. -/
lemma reads_of_onGrid {tie : Tie} {b : Binary} {k : ℤ} {c : ℕ} (h : b.onGrid tie k = some c) :
    b.reads k c = true := by
  unfold onGrid at h
  dsimp only at h
  split at h
  · cases h
  · next hbelow _ => exact Option.some.inj h ▸ hbelow
  · next _ habove => exact Option.some.inj h ▸ habove
  · next hbelow habove =>
    split at h
    · exact Option.some.inj h ▸ hbelow
    · exact Option.some.inj h ▸ habove
    · exact Option.some.inj h ▸ habove
    · have hc := Option.some.inj h
      split at hc
      · exact hc ▸ hbelow
      · exact hc ▸ habove

/-- The decimal that is written exactly has the value itself. -/
lemma value_exact (b : Binary) : b.exact.value = b.middle * b.unit := by
  have hunit : b.unit = 2 ^ b.exponent / 4 := by
    rw [unit, zpow_sub₀ two_ne_zero]
    norm_num
  rw [hunit, middle, exact, Decimal.value]
  split
  · next hexp =>
    rw [Nat.shiftLeft_eq, zpow_zero, mul_one]
    push_cast
    rw [pow_toNat two_ne_zero, Int.toNat_of_nonpos (Int.neg_nonpos_of_nonneg hexp)]
    ring
  · have hten : (10 : ℚ) ^ b.exponent = 5 ^ b.exponent * 2 ^ b.exponent := by
      rw [← mul_zpow]
      norm_num
    rw [hten, Nat.pow_eq]
    push_cast
    rw [pow_toNat (by norm_num), neg_neg, Int.toNat_of_nonpos (by omega), zpow_neg]
    have hfive : (5 : ℚ) ^ b.exponent ≠ 0 := zpow_ne_zero _ (by norm_num)
    field_simp

/-- The value rounds to itself. -/
lemma covers_exact {b : Binary} (h : 0 < b.mantissa) : b.Covers b.exact.value := by
  have hlow : b.low < b.middle := by
    unfold low middle
    split <;> omega
  have hhigh : b.middle < b.high := by
    unfold high
    omega
  have hlow' : (b.low : ℚ) * b.unit < b.middle * b.unit :=
    mul_lt_mul_of_pos_right (Nat.cast_lt.mpr hlow) b.unit_pos
  have hhigh' : (b.middle : ℚ) * b.unit < b.high * b.unit :=
    mul_lt_mul_of_pos_right (Nat.cast_lt.mpr hhigh) b.unit_pos
  rw [value_exact]
  unfold Covers
  split
  · exact ⟨hlow'.le, hhigh'.le⟩
  · exact ⟨hlow', hhigh'⟩

/-- The decimal that is written rounds to the value. -/
lemma covers_shortest {b : Binary} (h : 0 < b.mantissa) (tie : Tie) :
    b.Covers (b.shortest tie).value := by
  unfold shortest
  dsimp only
  cases hfound : (List.range 24).findSome? fun i =>
      (b.onGrid tie (b.startExponent - (i : ℕ))).map
        fun digits => Decimal.mk digits (b.startExponent - (i : ℕ)) with
  | none => exact covers_exact h
  | some d =>
    obtain ⟨i, -, hi⟩ := List.exists_of_findSome?_eq_some hfound
    obtain ⟨c, hc, rfl⟩ := Option.map_eq_some_iff.mp hi
    exact (b.reads_iff _ c).mp (reads_of_onGrid hc)

/-! ### Different doubles -/

/-- A number that rounds to the value lies between the ends of the interval, and it is an end only
if the mantissa is even. -/
lemma Covers.bounds {b : Binary} {r : ℚ} (h : b.Covers r) :
    (b.low * b.unit ≤ r ∧ (b.low * b.unit = r → b.mantissa % 2 = 0)) ∧
      r ≤ b.high * b.unit ∧ (r = b.high * b.unit → b.mantissa % 2 = 0) := by
  unfold Covers at h
  split at h
  · next heven => exact ⟨⟨h.1, fun _ => heven⟩, h.2, fun _ => heven⟩
  · exact ⟨⟨h.1.le, fun heq => absurd heq h.1.ne⟩, h.2.le, fun heq => absurd heq h.2.ne⟩

/-- The lower end is half a unit below the value, or a quarter at the start of a binade. -/
lemma low_ofFormat {m : ℕ} {e : ℤ} (hm : 0 < m) :
    (ofFormat .binary64 m e).low + (if m = 2 ^ 52 ∧ -1074 < e then 1 else 2) = 4 * m := by
  have hclose : (ofFormat .binary64 m e).closeBelow = decide (m = 2 ^ 52 ∧ -1074 < e) := by
    rw [Bool.decide_and]
    rfl
  have hmiddle : (ofFormat .binary64 m e).middle = 4 * m := rfl
  unfold low
  rw [hclose, hmiddle]
  by_cases h : m = 2 ^ 52 ∧ -1074 < e
  · rw [if_pos (decide_eq_true h), if_pos h]
    omega
  · rw [if_neg (by simpa using h), if_neg h]
    omega

/-- Multiples of two units, the second of which is at least `k` times as large, compare as they do in
the first unit. -/
lemma le_and_imp_of_scale {u u' : ℚ} (hu : 0 < u) {k a l : ℕ} (hk : k * u ≤ u') {P : Prop}
    (hle : a ≤ k * l) (hne : a = k * l → P) : a * u ≤ l * u' ∧ (a * u = l * u' → P) := by
  have hmul : ((k * l : ℕ) : ℚ) * u ≤ l * u' := by
    rw [Nat.cast_mul, mul_comm (k : ℚ) l, mul_assoc]
    exact mul_le_mul_of_nonneg_left hk (Nat.cast_nonneg l)
  have hcast : (a : ℚ) * u ≤ ((k * l : ℕ) : ℚ) * u :=
    mul_le_mul_of_nonneg_right (Nat.cast_le.mpr hle) hu.le
  refine ⟨hcast.trans hmul, fun heq => hne ?_⟩
  exact_mod_cast mul_right_cancel₀ hu.ne' (le_antisymm hcast (heq ▸ hmul))

section Neighbours

variable {m m' : ℕ} {e e' : ℤ} (h : Number.Canonical m e) (h' : Number.Canonical m' e')

include h h'

/-- The interval of the smaller value ends where that of the larger one begins, or before; and if
both have this point in common, one of the mantissas is odd. -/
lemma high_le_low (hlt : Number.scaled m e < Number.scaled m' e') :
    (ofFormat .binary64 m e).high * (ofFormat .binary64 m e).unit ≤
        (ofFormat .binary64 m' e').low * (ofFormat .binary64 m' e').unit ∧
      ((ofFormat .binary64 m e).high * (ofFormat .binary64 m e).unit =
        (ofFormat .binary64 m' e').low * (ofFormat .binary64 m' e').unit →
          ¬ (m % 2 = 0 ∧ m' % 2 = 0)) := by
  have hexp := h.exponent_mono h' hlt.le
  have hhigh : (ofFormat .binary64 m e).high = 4 * m + 2 := rfl
  have hlow := low_ofFormat (e := e') h'.pos
  have hunit := (ofFormat .binary64 m e).unit_pos
  generalize (ofFormat .binary64 m' e').low = l at hlow ⊢
  rw [hhigh]
  rcases hexp.eq_or_lt with rfl | hexp
  · -- On one scale the mantissas are compared.
    have hmant : m < m' := by
      unfold Number.scaled at hlt
      exact_mod_cast lt_of_mul_lt_mul_right hlt (zpow_pos two_pos e).le
    have hscale : (ofFormat .binary64 m' e).unit = (ofFormat .binary64 m e).unit := rfl
    rw [hscale]
    refine le_and_imp_of_scale (k := 1) hunit (by rw [Nat.cast_one, one_mul]) ?_ ?_ <;>
      split at hlow <;> omega
  · -- Otherwise the larger value is normal, and its unit is at least twice as large.
    have hm : m < 2 ^ 53 := h.lt_two_pow
    have hmin' : -1074 < e' := h.log2_le.2.1.trans_lt hexp
    have hm' : 2 ^ 52 ≤ m' := h'.two_pow_le hmin'
    have hscale : ((2 : ℕ) : ℚ) * (ofFormat .binary64 m e).unit ≤
        (ofFormat .binary64 m' e').unit := by
      change (2 : ℚ) * 2 ^ (e - 2) ≤ 2 ^ (e' - 2)
      rw [← zpow_one_add₀ two_ne_zero]
      exact zpow_le_zpow_right₀ one_le_two (by omega)
    refine le_and_imp_of_scale (k := 2) hunit hscale ?_ ?_ <;> split at hlow <;> omega

/-- No number rounds to two values. -/
lemma not_covers_of_scaled_lt {r : ℚ} (hlt : Number.scaled m e < Number.scaled m' e')
    (hr : (ofFormat .binary64 m e).Covers r) : ¬ (ofFormat .binary64 m' e').Covers r := by
  intro hr'
  obtain ⟨-, hhigh, hodd⟩ := hr.bounds
  obtain ⟨⟨hlow, hodd'⟩, -⟩ := hr'.bounds
  obtain ⟨hle, hne⟩ := high_le_low h h' hlt
  have hend := le_antisymm hhigh (hle.trans hlow)
  have hend' := le_antisymm hlow (hhigh.trans hle)
  exact hne (hend.symm.trans hend'.symm) ⟨hodd hend, hodd' hend'⟩

/-- A number rounds to one double at most. -/
lemma eq_of_covers {r : ℚ} (hr : (ofFormat .binary64 m e).Covers r)
    (hr' : (ofFormat .binary64 m' e').Covers r) : m = m' ∧ e = e' := by
  rcases lt_trichotomy (Number.scaled m e) (Number.scaled m' e') with hlt | heq | hgt
  · exact absurd hr' (not_covers_of_scaled_lt h h' hlt hr)
  · exact h.unique h' heq
  · exact absurd hr (not_covers_of_scaled_lt h' h hgt hr')

end Neighbours

end Binary

end Decimal

end ShapeGrammar
