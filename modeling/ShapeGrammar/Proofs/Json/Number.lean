import ShapeGrammar.Proofs.Decimal.Reading
import ShapeGrammar.Proofs.Json.Token

/-!
# The texts of numbers in data files

All numbers are written as number texts (`Json.NumberText`): digits, a point with digits, an
exponent with a sign, and no zero in front of other digits.  That is so for whole numbers
(`Json.NumberText.ofNat`) and for every double and 32-bit number that has a text in data files
(`Number.exists_numberText_dataText?`).
-/

namespace ShapeGrammar

open Float.Model (Format UnpackedFloat)
open Float.Model.UnpackedFloat (Sign)
open Json (NumberText)

/-! ### Whole numbers -/

namespace Json.NumberText

/-- A whole number as it is written. -/
def ofNat (n : ℕ) : NumberText := ⟨false, Nat.toDigits 10 n, [], none⟩

lemma chars_ofNat (n : ℕ) : (ofNat n).chars = Nat.toDigits 10 n := by
  simp [chars, bare, ofNat, fractionText, powerText]

/-- The first digit of a number above zero is not zero. -/
lemma head?_toDigits_ne {n : ℕ} (h : n ≠ 0) : (Nat.toDigits 10 n).head? ≠ some '0' := by
  induction n using Nat.strongRecOn with
  | _ n ih =>
    by_cases hlt : n < 10
    · have hdigit : ∀ n < 10, n ≠ 0 → [n.digitChar].head? ≠ some '0' := by decide
      rw [Nat.toDigits_of_lt_base hlt]
      exact hdigit n hlt h
    · rw [Nat.toDigits_of_base_le (by decide) (by omega),
        List.head?_append_of_ne_nil _ Nat.toDigits_ne_nil]
      exact ih (n / 10) (by omega) (by omega)

lemma wellFormed_ofNat (n : ℕ) : (ofNat n).WellFormed where
  whole := fun c hc => Nat.isDigit_of_mem_toDigits (by decide) (by decide) hc
  whole_ne := Nat.toDigits_ne_nil
  lead := by
    by_cases h : n = 0
    · subst h
      exact Or.inl rfl
    · exact Or.inr (head?_toDigits_ne h)
  fraction := by simp [ofNat]
  power := by simp [ofNat]

end Json.NumberText

/-! ### Doubles -/

namespace Decimal

/-- A decimal that rounds to a positive value is not zero. -/
lemma Binary.digits_shortest_ne {b : Binary} (h : 0 < b.mantissa) (tie : Tie) :
    (b.shortest tie).digits ≠ 0 := by
  intro hzero
  have hlow := (covers_shortest h tie).bounds.1.1
  have hpos : 0 < b.low := by
    unfold low middle
    split <;> omega
  have hvalue : (b.shortest tie).value = 0 := by
    rw [Decimal.value, hzero, Nat.cast_zero, zero_mul]
  rw [hvalue] at hlow
  have hunit : (0 : ℚ) < b.low * b.unit := mul_pos (Nat.cast_pos.mpr hpos) b.unit_pos
  exact absurd hlow hunit.not_ge

/-- The text is that of a number without a sign. -/
def IsBareNumber (cs : List Char) : Prop :=
  ∃ t : NumberText, t.WellFormed ∧ t.negative = false ∧ t.bare = cs

lemma fractionText_of_ne {fs : List Char} (h : fs ≠ []) :
    NumberText.fractionText fs = '.' :: fs := by
  cases fs with
  | nil => exact absurd rfl h
  | cons f fs => rfl

/-- Digits before and after the point. -/
lemma isBareNumber_of_point {ws fs : List Char} (hws : ∀ c ∈ ws, c.isDigit = true) (hne : ws ≠ [])
    (hlead : ws = ['0'] ∨ ws.head? ≠ some '0') (hfs : ∀ c ∈ fs, c.isDigit = true)
    (hfne : fs ≠ []) : IsBareNumber (ws ++ '.' :: fs) := by
  refine ⟨⟨false, ws, fs, none⟩, ⟨hws, hne, hlead, hfs, by simp⟩, rfl, ?_⟩
  rw [NumberText.bare, fractionText_of_ne hfne]
  simp [NumberText.powerText]

lemma isDigit_of_mem_zeros {n : ℕ} : ∀ c ∈ List.replicate n '0', c.isDigit = true := fun c hc => by
  rw [List.eq_of_mem_replicate hc]
  rfl

lemma isBareNumber_zero : IsBareNumber ['0', '.', '0'] := by
  change IsBareNumber (List.replicate 1 '0' ++ '.' :: List.replicate 1 '0')
  exact isBareNumber_of_point isDigit_of_mem_zeros (List.cons_ne_nil _ _) (Or.inl rfl)
    isDigit_of_mem_zeros (List.cons_ne_nil _ _)

section Layouts

variable {d : Decimal} (h : d.digits ≠ 0)

include h

/-- The digits of a decimal are digits, and the first of them is not zero. -/
lemma digitText_spec :
    (∀ c ∈ d.digitText, c.isDigit = true) ∧ d.digitText ≠ [] ∧ d.digitText.head? ≠ some '0' :=
  ⟨fun _ hc => isDigit_of_mem_digitText hc, Nat.toDigits_ne_nil, NumberText.head?_toDigits_ne h⟩

lemma isBareNumber_pointed : IsBareNumber d.pointed := by
  obtain ⟨hdigits, hne, hhead⟩ := digitText_spec h
  unfold pointed positional
  cases d.exponent with
  | ofNat k =>
    have hk : 0 ≤ Int.ofNat k := Int.natCast_nonneg k
    rw [if_pos hk]
    change IsBareNumber (_ ++ '.' :: List.replicate 1 '0')
    refine isBareNumber_of_point ?_ (List.append_ne_nil_of_left_ne_nil hne _) (Or.inr ?_)
      isDigit_of_mem_zeros (List.cons_ne_nil _ _)
    · exact List.forall_mem_append.mpr ⟨hdigits, isDigit_of_mem_zeros⟩
    · rwa [List.head?_append_of_ne_nil _ hne]
  | negSucc k =>
    rw [if_neg (by omega)]
    dsimp only
    split
    · next hlt =>
      have hfront : 0 < d.digitText.length - (k + 1) := Nat.sub_pos_of_lt hlt
      refine isBareNumber_of_point (fun c hc => hdigits c (List.mem_of_mem_take hc)) ?_
        (Or.inr ?_) (fun c hc => hdigits c (List.mem_of_mem_drop hc)) ?_
      · rw [Ne, List.take_eq_nil_iff, not_or]
        exact ⟨hfront.ne', hne⟩
      · rwa [List.head?_take, if_neg hfront.ne']
      · rw [Ne, List.drop_eq_nil_iff]
        omega
    · change IsBareNumber (List.replicate 1 '0' ++ '.' :: _)
      refine isBareNumber_of_point isDigit_of_mem_zeros (List.cons_ne_nil _ _) (Or.inl rfl) ?_ ?_
      · exact List.forall_mem_append.mpr ⟨isDigit_of_mem_zeros, hdigits⟩
      · exact List.append_ne_nil_of_right_ne_nil _ hne

lemma isBareNumber_scientific : IsBareNumber d.scientific := by
  obtain ⟨hdigits, hne, hhead⟩ := digitText_spec h
  refine ⟨⟨false, d.digitText.take 1, d.digitText.drop 1, some (decide (d.leadingExponent < 0),
    Nat.toDigits 10 d.leadingExponent.natAbs)⟩, ⟨?_, ?_, Or.inr ?_, ?_, ?_⟩, rfl, ?_⟩
  · exact fun c hc => hdigits c (List.mem_of_mem_take hc)
  · rw [Ne, List.take_eq_nil_iff, not_or]
    exact ⟨one_ne_zero, hne⟩
  · rwa [List.head?_take, if_neg one_ne_zero]
  · exact fun c hc => hdigits c (List.mem_of_mem_drop hc)
  · rintro p hp
    obtain rfl := Option.some.inj hp
    exact ⟨Nat.toDigits_ne_nil, fun c hc => Nat.isDigit_of_mem_toDigits (by decide) (by decide) hc⟩
  · unfold scientific NumberText.bare NumberText.powerText
    simp only [decide_eq_true_eq, List.append_assoc]
    cases d.digitText.drop 1 <;> rfl

lemma isBareNumber_dataText (low high : ℤ) : IsBareNumber (d.dataText low high) := by
  unfold dataText
  split
  · exact isBareNumber_pointed h
  · exact isBareNumber_scientific h

end Layouts

end Decimal

namespace Number

/-- A number may have a sign. -/
lemma exists_numberText_signed {cs : List Char} (h : Decimal.IsBareNumber cs) (sign : Sign) :
    ∃ t : NumberText, t.WellFormed ∧ t.chars = signed sign cs := by
  obtain ⟨t, ht, hsign, rfl⟩ := h
  cases sign with
  | positive => exact ⟨t, ht, by rw [NumberText.chars, hsign]; rfl⟩
  | negative => exact ⟨{ t with negative := true }, ⟨ht.1, ht.2, ht.3, ht.4, ht.5⟩, rfl⟩

/-- Whatever is written for a number in a data file is the text of a number. -/
lemma exists_numberText_dataText? {format : Format} {low high : ℤ} {x : UnpackedFloat}
    {text : List Char} (h : dataText? format low high x = some text) :
    ∃ t : NumberText, t.WellFormed ∧ t.chars = text := by
  unfold dataText? at h
  split at h
  · cases h
  · cases h
  · next sign =>
    obtain rfl := Option.some.inj h
    exact exists_numberText_signed Decimal.isBareNumber_zero sign
  · next sign m e hm =>
    obtain rfl := Option.some.inj h
    exact exists_numberText_signed
      (Decimal.isBareNumber_dataText (Decimal.Binary.digits_shortest_ne hm .even) low high) sign

end Number

end ShapeGrammar
