import ShapeGrammar.Proofs.Decimal.Reading

/-!
# Different doubles have different texts

The text of a double without an exponent (`Number.plain`) has its sign in front and then a word, a
zero, or the digits of its shortest decimal.  All of it can be told from the text, so that no two
doubles share one (`Number.plain_injective`).  A text consists of digits, points, minus signs and
the letters of the words (`Number.mem_plain`); other characters are free to separate texts.
-/

namespace ShapeGrammar.Number

open Float.Model (UnpackedFloat)
open Float.Model.UnpackedFloat (Sign)

/-- The sign that is written for a double. -/
def writtenSign : UnpackedFloat → Sign
  | .notANumber => .positive
  | .infinity s => s
  | .zero s => s
  | .finite s _ _ _ => s

/-- The text of a double without its sign. -/
def bareText : UnpackedFloat → List Char
  | .notANumber => ['N', 'a', 'N']
  | .infinity _ => ['i', 'n', 'f']
  | .zero _ => ['0']
  | .finite _ m e _ => ((Decimal.Binary.ofFormat .binary64 m e).shortest .up).positional

/-- The mantissa of the unpacked double is canonical, if it has one. -/
def CanonicalUnpacked : UnpackedFloat → Prop
  | .finite _ m e _ => Canonical m e
  | _ => True

lemma canonicalUnpacked_unpack (x : Float) : CanonicalUnpacked x.toModel.unpack := by
  cases h : x.toModel.unpack with
  | finite s m e hm => exact canonical_of_unpack h
  | _ => trivial

/-- The text of a double is its bare text behind its sign. -/
lemma toList_plain (x : Float) :
    (plain x).toList = signed (writtenSign x.toModel.unpack) (bareText x.toModel.unpack) := by
  unfold plain
  cases x.toModel.unpack with
  | notANumber => rfl
  | infinity s => exact String.toList_ofList
  | zero s => exact String.toList_ofList
  | finite s m e hm => exact String.toList_ofList

/-! ### The characters of a text -/

/-- The characters that are no digits. -/
def textMarks : List Char := ['-', '.', 'N', 'a', 'i', 'n', 'f']

/-- A bare text has no minus sign. -/
lemma mem_bareText {u : UnpackedFloat} {c : Char} (h : c ∈ bareText u) :
    c.isDigit = true ∨ c ∈ textMarks.drop 1 := by
  cases u with
  | finite s m e hm =>
    rcases Decimal.isDigit_or_eq_point h with hdigit | rfl
    · exact Or.inl hdigit
    · exact Or.inr (by decide)
  | notANumber =>
    have hsub : ['N', 'a', 'N'] ⊆ textMarks.drop 1 := by simp [textMarks]
    exact Or.inr (hsub h)
  | infinity s =>
    have hsub : ['i', 'n', 'f'] ⊆ textMarks.drop 1 := by simp [textMarks]
    exact Or.inr (hsub h)
  | zero s =>
    obtain rfl := List.mem_singleton.mp h
    exact Or.inl rfl

lemma minus_notMem_bareText (u : UnpackedFloat) : '-' ∉ bareText u := fun h => by
  rcases mem_bareText h with hdigit | hmark
  · exact absurd hdigit (by decide)
  · exact absurd hmark (by decide)

/-- A text has digits, points, minus signs and the letters of the words. -/
lemma mem_plain {x : Float} {c : Char} (h : c ∈ (plain x).toList) :
    c.isDigit = true ∨ c ∈ textMarks := by
  rw [toList_plain] at h
  have hbare : c ∈ bareText x.toModel.unpack → c.isDigit = true ∨ c ∈ textMarks := fun hc =>
    (mem_bareText hc).imp_right List.mem_of_mem_drop
  unfold signed at h
  split at h
  · rcases List.mem_cons.mp h with rfl | hc
    · exact Or.inr (by decide)
    · exact hbare hc
  · exact hbare h

/-! ### Telling texts apart -/

/-- Sign and bare text can be told from the text. -/
lemma signed_inj {s t : Sign} {cs ds : List Char} (hcs : '-' ∉ cs) (hds : '-' ∉ ds)
    (h : signed s cs = signed t ds) : s = t ∧ cs = ds := by
  cases s <;> cases t <;> simp only [signed] at h
  · exact ⟨rfl, (List.cons.inj h).2⟩
  · exact absurd (h ▸ List.mem_cons_self) hds
  · exact absurd (h.symm ▸ List.mem_cons_self) hcs
  · exact ⟨rfl, h⟩

/-- What is written for a finite double that is not zero is a number above zero. -/
lemma textValue_pos {s : Sign} {m : ℕ} {e : ℤ} (hm : 0 < m) :
    0 < Decimal.textValue (bareText (.finite s m e hm)) := by
  rw [bareText, Decimal.textValue_positional]
  obtain ⟨⟨hlow, -⟩, -⟩ :=
    (Decimal.Binary.covers_shortest (b := .ofFormat .binary64 m e) hm .up).bounds
  have hpos : 0 < (Decimal.Binary.ofFormat .binary64 m e).low := by
    have heq := Decimal.Binary.low_ofFormat (e := e) hm
    split at heq <;> omega
  have hend := mul_pos (Nat.cast_pos.mpr hpos) (Decimal.Binary.ofFormat .binary64 m e).unit_pos
  exact hend.trans_le hlow

/-- A finite double is not written with letters. -/
lemma bareText_finite_ne {s : Sign} {m : ℕ} {e : ℤ} {hm : 0 < m} {cs : List Char} {c : Char}
    (hc : c ∈ cs) (hdigit : c.isDigit = false) (hpoint : c ≠ '.') :
    bareText (.finite s m e hm) ≠ cs := by
  rintro rfl
  rcases Decimal.isDigit_or_eq_point hc with h | h
  · rw [hdigit] at h
    exact Bool.false_ne_true h
  · exact hpoint h

/-- A finite double that is not zero is not written as zero. -/
lemma bareText_finite_ne_zero {s : Sign} {m : ℕ} {e : ℤ} {hm : 0 < m} :
    bareText (.finite s m e hm) ≠ ['0'] := by
  intro h
  have hpos := textValue_pos (s := s) (e := e) hm
  have hzero : Nat.ofDigitChars 10 ['0'] 0 = 0 := rfl
  rw [h, Decimal.textValue_whole (by decide), hzero, Nat.cast_zero] at hpos
  exact lt_irrefl 0 hpos

/-- Unpacked doubles of one sign and one bare text are the same. -/
lemma eq_of_bareText_eq {u v : UnpackedFloat} (hu : CanonicalUnpacked u)
    (hv : CanonicalUnpacked v) (hsign : writtenSign u = writtenSign v)
    (h : bareText u = bareText v) : u = v := by
  cases u with
  | finite s m e hm =>
    cases v with
    | finite t n f hn =>
      obtain rfl : s = t := hsign
      have hvalue := congrArg Decimal.textValue h
      simp only [bareText, Decimal.textValue_positional] at hvalue
      have hcovers := Decimal.Binary.covers_shortest (b := .ofFormat .binary64 m e) hm .up
      have hcovers' := Decimal.Binary.covers_shortest (b := .ofFormat .binary64 n f) hn .up
      rw [← hvalue] at hcovers'
      obtain ⟨rfl, rfl⟩ := Decimal.Binary.eq_of_covers hu hv hcovers hcovers'
      rfl
    | zero t => exact absurd h bareText_finite_ne_zero
    | infinity t => exact absurd h (bareText_finite_ne List.mem_cons_self rfl (by decide))
    | notANumber => exact absurd h (bareText_finite_ne List.mem_cons_self rfl (by decide))
  | zero s =>
    cases v with
    | finite t n f hn => exact absurd h.symm bareText_finite_ne_zero
    | zero t => exact congrArg _ hsign
    | infinity t => exact absurd (List.cons.inj h).1 (by decide)
    | notANumber => exact absurd (List.cons.inj h).1 (by decide)
  | infinity s =>
    cases v with
    | finite t n f hn => exact absurd h.symm (bareText_finite_ne List.mem_cons_self rfl (by decide))
    | zero t => exact absurd (List.cons.inj h).1 (by decide)
    | infinity t => exact congrArg _ hsign
    | notANumber => exact absurd (List.cons.inj h).1 (by decide)
  | notANumber =>
    cases v with
    | finite t n f hn => exact absurd h.symm (bareText_finite_ne List.mem_cons_self rfl (by decide))
    | zero t => exact absurd (List.cons.inj h).1 (by decide)
    | infinity t => exact absurd (List.cons.inj h).1 (by decide)
    | notANumber => rfl

/-- No two doubles have one text. -/
lemma plain_injective : Function.Injective plain := by
  intro x y h
  have htext := congrArg String.toList h
  rw [toList_plain, toList_plain] at htext
  obtain ⟨hsign, hbare⟩ :=
    signed_inj (minus_notMem_bareText _) (minus_notMem_bareText _) htext
  have hunpack : x.toModel.unpack = y.toModel.unpack :=
    eq_of_bareText_eq (canonicalUnpacked_unpack x) (canonicalUnpacked_unpack y) hsign hbare
  rw [← ofModel_pack_unpack x, hunpack, ofModel_pack_unpack]

end ShapeGrammar.Number
