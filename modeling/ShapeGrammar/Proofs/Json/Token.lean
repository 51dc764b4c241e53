import Mathlib.Data.Nat.Notation
import Mathlib.Tactic.Lemma
import Mathlib.Tactic.SplitIfs
import ShapeGrammar.Json.Printer
import ShapeGrammar.Json.Token

/-!
# What is written is one token

A text is read token by token, and where a token ends can depend on what follows it: a number goes
on as long as there are digits.  The lemmas here say of each kind of text that a data file is made
of that it is read as one token, whatever follows it, and that reading goes on right behind it:
blanks and marks, words, strings, and numbers (`Json.NumberText`), the last if nothing follows that
a number could go on with.
-/

namespace ShapeGrammar.Json

/-! ### Blanks and marks -/

lemma tokens_nil : tokens [] = [] := by
  rw [tokens]

lemma tokens_blank {c : Char} (h : isBlank c = true) (cs : List Char) :
    tokens (c :: cs) = tokens cs := by
  rw [tokens, if_pos h]

lemma tokens_cons {c : Char} (h : isBlank c = false) (cs : List Char) :
    tokens (c :: cs) = (tokenAt c cs).1 :: tokens (tokenAt c cs).2 := by
  rw [tokens, if_neg (by rw [h]; exact Bool.false_ne_true)]

/-- Blanks are passed over. -/
lemma tokens_blanks {bs : List Char} (h : ∀ b ∈ bs, isBlank b = true) (cs : List Char) :
    tokens (bs ++ cs) = tokens cs := by
  induction bs with
  | nil => rfl
  | cons b bs ih =>
    rw [List.cons_append, tokens_blank (h b List.mem_cons_self)]
    exact ih fun c hc => h c (List.mem_cons_of_mem b hc)

/-- A text whose first character makes a token by itself. -/
lemma tokens_mark {c : Char} {t : Token} (hblank : isBlank c = false)
    (hmark : ∀ cs, tokenAt c cs = (t, cs)) (cs : List Char) :
    tokens (c :: cs) = t :: tokens cs := by
  rw [tokens_cons hblank, hmark]

/-! ### Words -/

lemma tokens_null (rest : List Char) : tokens (nullText ++ rest) = .null :: tokens rest :=
  tokens_cons rfl _

lemma tokens_boolean (b : Bool) (rest : List Char) :
    tokens (booleanText b ++ rest) = .boolean b :: tokens rest := by
  cases b with
  | false => exact tokens_cons rfl _
  | true => exact tokens_cons rfl _

/-! ### Strings -/

/-- The digits of an escape are read back. -/
lemma hexDigit?_hexDigit : ∀ n < 16, hexDigit? (hexDigit n) = some n := by
  decide

lemma codeUnit?_control {n : ℕ} (h : n < 256) :
    codeUnit? '0' '0' (hexDigit (n / 16)) (hexDigit (n % 16)) = some n := by
  have hhigh := hexDigit?_hexDigit (n / 16) (by omega)
  have hlow := hexDigit?_hexDigit (n % 16) (by omega)
  have hzero : hexDigit? '0' = some 0 := rfl
  unfold codeUnit?
  rw [hhigh, hlow, hzero]
  dsimp only
  congr 1
  omega

/-- A character below the blank is below 32. -/
lemma toNat_lt_of_lt_blank {c : Char} (h : c < ' ') : c.toNat < 32 := h

/-- A unit below the surrogates is a character. -/
lemma assemble_unit {u : ℕ} (h : u < 0xd800) (ps : List Piece) :
    assemble (.unit u :: ps) = (assemble ps).map (Char.ofNat u :: ·) := by
  have htrail : isTrail u = false := by simp [isTrail]; omega
  have hlead : isLead u = false := by simp [isLead]; omega
  rw [assemble.eq_def]
  dsimp only
  rw [if_neg (ne_true_of_eq_false htrail), if_neg (ne_true_of_eq_false hlead)]

/-- The lexer reads `cs` as the piece `p`, wherever it stands in a string. -/
def ReadsAs (cs : List Char) (p : Piece) : Prop :=
  ∀ rest, stringPieces (cs ++ rest) = (p :: (stringPieces rest).1, (stringPieces rest).2)

/-- An escape with one letter. -/
lemma readsAs_letter {e c : Char} (hu : e ≠ 'u') (h : escaped? e = some c) :
    ReadsAs ['\\', e] (.char c) := by
  intro rest
  change stringPieces ('\\' :: e :: rest) = _
  rw [stringPieces, h]
  · exact fun _ _ _ _ _ he => absurd he hu
  · exact hu

/-- An escape with a code unit. -/
lemma readsAs_unit {a b c d : Char} {u : ℕ} (h : codeUnit? a b c d = some u) :
    ReadsAs ['\\', 'u', a, b, c, d] (.unit u) := by
  intro rest
  change stringPieces ('\\' :: 'u' :: a :: b :: c :: d :: rest) = _
  rw [stringPieces, h]

/-- A character that is written as it is. -/
lemma readsAs_self {c : Char} (hquote : c ≠ '"') (hslash : c ≠ '\\') (hplain : ¬ c < ' ') :
    ReadsAs [c] (.char c) := by
  intro rest
  change stringPieces (c :: rest) = _
  rw [stringPieces]
  · rw [if_neg hplain]
  all_goals simp_all

/-- However a character is written in a string, it is read as one piece, and that piece stands for
the character. -/
lemma exists_readsAs_escape (c : Char) :
    ∃ p, ReadsAs (escape c) p ∧ ∀ ps, assemble (p :: ps) = (assemble ps).map (c :: ·) := by
  unfold escape
  split_ifs with hquote hslash hback htab hline hfeed hreturn hcontrol
  · subst hquote
    exact ⟨_, readsAs_letter (by decide) rfl, fun ps => rfl⟩
  · subst hslash
    exact ⟨_, readsAs_letter (by decide) rfl, fun ps => rfl⟩
  · subst hback
    exact ⟨_, readsAs_letter (by decide) rfl, fun ps => rfl⟩
  · subst htab
    exact ⟨_, readsAs_letter (by decide) rfl, fun ps => rfl⟩
  · subst hline
    exact ⟨_, readsAs_letter (by decide) rfl, fun ps => rfl⟩
  · subst hfeed
    exact ⟨_, readsAs_letter (by decide) rfl, fun ps => rfl⟩
  · subst hreturn
    exact ⟨_, readsAs_letter (by decide) rfl, fun ps => rfl⟩
  · have hlt := toNat_lt_of_lt_blank hcontrol
    refine ⟨.unit c.toNat, readsAs_unit (codeUnit?_control (by omega)), fun ps => ?_⟩
    rw [assemble_unit (by omega), Char.ofNat_toNat]
  · exact ⟨.char c, readsAs_self hquote hslash hcontrol, fun ps => rfl⟩

/-- A string is read back up to its closing quote. -/
lemma exists_stringPieces (cs rest : List Char) :
    ∃ ps, stringPieces (cs.flatMap escape ++ '"' :: rest) = (ps, .ok rest) ∧
      assemble ps = some cs := by
  induction cs with
  | nil => exact ⟨[], rfl, rfl⟩
  | cons c cs ih =>
    obtain ⟨ps, hps, hassemble⟩ := ih
    obtain ⟨p, hp, hmeans⟩ := exists_readsAs_escape c
    refine ⟨p :: ps, ?_, ?_⟩
    · rw [List.flatMap_cons, List.append_assoc, hp, hps]
    · rw [hmeans, hassemble]
      rfl

/-- A string in quotes is one token. -/
lemma tokens_quoted (s : String) (rest : List Char) :
    tokens (quoted s ++ rest) = .text (some s) :: tokens rest := by
  obtain ⟨ps, hps, hassemble⟩ := exists_stringPieces s.toList rest
  have htoken : tokenAt '"' (s.toList.flatMap escape ++ '"' :: rest) = (.text (some s), rest) := by
    change stringToken _ = _
    unfold stringToken
    rw [hps]
    dsimp only
    rw [hassemble, Option.map_some, String.ofList_toList]
  have hquoted : quoted s ++ rest = '"' :: (s.toList.flatMap escape ++ '"' :: rest) := by
    simp [quoted]
  rw [hquoted, tokens_cons rfl, htoken]

/-! ### Numbers -/

/-- The text of a number: its sign, its digits before and after the point, and the sign and the
digits of its exponent, if it has one. -/
structure NumberText where
  negative : Bool
  whole : List Char
  fraction : List Char
  /-- `true` for a minus sign. -/
  power : Option (Bool × List Char)

namespace NumberText

/-- The digits after the point, with the point if there are any. -/
def fractionText : List Char → List Char
  | [] => []
  | fs => '.' :: fs

/-- The exponent, always with a sign. -/
def powerText : Option (Bool × List Char) → List Char
  | none => []
  | some (minus, es) => 'e' :: (if minus then '-' else '+') :: es

/-- The text spells the exponent: its letter may be large, and a plus sign may be left out. -/
inductive SpellsPower : Option (Bool × List Char) → List Char → Prop
  | none : SpellsPower none []
  | signed {e : Char} (he : e = 'e' ∨ e = 'E') (minus : Bool) (es : List Char) :
    SpellsPower (some (minus, es)) (e :: (if minus then '-' else '+') :: es)
  | unsigned {e : Char} (he : e = 'e' ∨ e = 'E') (es : List Char) :
    SpellsPower (some (false, es)) (e :: es)

lemma spellsPower_powerText (power : Option (Bool × List Char)) :
    SpellsPower power (powerText power) := by
  rcases power with _ | ⟨minus, es⟩
  · exact .none
  · exact .signed (Or.inl rfl) minus es

/-- The text without its sign. -/
def bare (t : NumberText) : List Char := t.whole ++ (fractionText t.fraction ++ powerText t.power)

/-- The text. -/
def chars (t : NumberText) : List Char := if t.negative then '-' :: t.bare else t.bare

/-- The text spells the number, the exponent in any of its spellings. -/
def Spells (t : NumberText) (cs : List Char) : Prop :=
  ∃ power, SpellsPower t.power power ∧
    cs = (if t.negative then ['-'] else []) ++ (t.whole ++ (fractionText t.fraction ++ power))

lemma spells_chars (t : NumberText) : t.Spells t.chars := by
  refine ⟨powerText t.power, spellsPower_powerText t.power, ?_⟩
  unfold chars bare
  split <;> rfl

/-- The exponent that is written. -/
def exponent : Option (Bool × List Char) → Int
  | none => 0
  | some (minus, es) =>
    let size := Numeral.ofDigits 0 (digitValues es)
    if minus then -(size : Int) else size

/-- The number as it is written. -/
def numeral (t : NumberText) : Numeral where
  negative := t.negative
  whole := digitValues t.whole
  fraction := digitValues t.fraction
  power := exponent t.power
  isWhole := t.fraction.isEmpty && t.power.isNone

/-- Digits stand where digits should, and a whole part of several digits does not start with
zero. -/
structure WellFormed (t : NumberText) : Prop where
  whole : ∀ c ∈ t.whole, c.isDigit = true
  whole_ne : t.whole ≠ []
  lead : t.whole = ['0'] ∨ t.whole.head? ≠ some '0'
  fraction : ∀ c ∈ t.fraction, c.isDigit = true
  power : ∀ p ∈ t.power, p.2 ≠ [] ∧ ∀ c ∈ p.2, c.isDigit = true

end NumberText

/-- The text is over, or its first character is not one of these. -/
def Stops (p : Char → Bool) (cs : List Char) : Prop := ∀ c ∈ cs.head?, p c = false

lemma stops_nil (p : Char → Bool) : Stops p [] := fun c h => by
  cases h

lemma stops_cons {p : Char → Bool} {c : Char} (h : p c = false) (cs : List Char) :
    Stops p (c :: cs) := fun d hd => by
  rw [← Option.some.inj hd]
  exact h

/-- What matches up to a stop is taken, and the rest is left. -/
lemma Stops.split {p : Char → Bool} {cs rest : List Char} (hrest : Stops p rest)
    (h : ∀ c ∈ cs, p c = true) :
    (cs ++ rest).takeWhile p = cs ∧ (cs ++ rest).dropWhile p = rest := by
  rw [List.takeWhile_append_of_pos h, List.dropWhile_append_of_pos h]
  cases rest with
  | nil => exact ⟨List.append_nil cs, rfl⟩
  | cons c rest =>
    have hc := hrest c rfl
    rw [List.takeWhile_cons_of_neg (ne_true_of_eq_false hc),
      List.dropWhile_cons_of_neg (ne_true_of_eq_false hc)]
    exact ⟨List.append_nil cs, rfl⟩

/-- A number can go on with the character. -/
def continuesNumber (c : Char) : Bool := c.isDigit || c = '.' || c = 'e' || c = 'E'

section Numbers

variable {ds fs es rest : List Char} {negative isWhole minus : Bool}

lemma Stops.isDigit (h : Stops continuesNumber rest) : Stops Char.isDigit rest := fun c hc => by
  have hno := h c hc
  simp only [continuesNumber, Bool.or_eq_false_iff] at hno
  exact hno.1.1.1

lemma Stops.ne_point (h : Stops continuesNumber rest) : Stops (· = '.') rest := fun c hc => by
  have hno := h c hc
  simp only [continuesNumber, Bool.or_eq_false_iff] at hno
  exact hno.1.1.2

/-- A number that ends before its exponent. -/
lemma exponentToken_of_stops (h : Stops continuesNumber rest) :
    exponentToken negative ds fs isWhole rest =
      (.number ⟨negative, digitValues ds, digitValues fs, 0, isWhole⟩, rest) := by
  cases rest with
  | nil => rfl
  | cons c rest =>
    have hno := h c rfl
    simp only [continuesNumber, Bool.or_eq_false_iff] at hno
    unfold exponentToken
    dsimp only
    rw [if_neg]
    simp [hno]

lemma exponentSign_cons (minus : Bool) (cs : List Char) :
    exponentSign ((if minus then '-' else '+') :: cs) = (minus, cs) := by
  cases minus <;> rfl

/-- Digits without a sign. -/
lemma exponentSign_digits (hes : ∀ c ∈ es, c.isDigit = true) (hne : es ≠ []) (cs : List Char) :
    exponentSign (es ++ cs) = (false, es ++ cs) := by
  obtain ⟨c, es, rfl⟩ := List.exists_cons_of_ne_nil hne
  have hc : c.isDigit = true := hes c List.mem_cons_self
  rw [List.cons_append]
  unfold exponentSign
  split
  · next heq =>
    rw [(List.cons.inj heq).1] at hc
    exact absurd hc (by decide)
  · next heq =>
    rw [(List.cons.inj heq).1] at hc
    exact absurd hc (by decide)
  · rfl

/-- A number with the letter of an exponent. -/
lemma exponentToken_letter {e : Char} (he : e = 'e' ∨ e = 'E') (cs : List Char) :
    exponentToken negative ds fs isWhole (e :: cs) =
      if ((exponentSign cs).2.takeWhile Char.isDigit).isEmpty then
        brokenNumber (exponentSign cs).2
      else
        (.number ⟨negative, digitValues ds, digitValues fs,
            NumberText.exponent (some ((exponentSign cs).1,
              (exponentSign cs).2.takeWhile Char.isDigit)), false⟩,
          (exponentSign cs).2.dropWhile Char.isDigit) := by
  rw [exponentToken, if_pos]
  · rfl
  · rcases he with rfl | rfl <;> rfl

/-- A number that ends with its exponent. -/
lemma exponentToken_of_power {power : List Char}
    (hpower : NumberText.SpellsPower (some (minus, es)) power)
    (hes : ∀ c ∈ es, c.isDigit = true) (hne : es ≠ []) (h : Stops continuesNumber rest) :
    exponentToken negative ds fs isWhole (power ++ rest) =
      (.number ⟨negative, digitValues ds, digitValues fs, NumberText.exponent (some (minus, es)),
        false⟩, rest) := by
  obtain ⟨htake, hdrop⟩ := h.isDigit.split hes
  have hdigits : ¬ es.isEmpty = true := by rwa [List.isEmpty_iff]
  cases hpower with
  | @signed e he =>
    change exponentToken negative ds fs isWhole (e :: _ :: (es ++ rest)) = _
    rw [exponentToken_letter he, exponentSign_cons]
    dsimp only
    rw [htake, hdrop, if_neg hdigits]
  | @unsigned e he =>
    change exponentToken negative ds fs isWhole (e :: (es ++ rest)) = _
    rw [exponentToken_letter he, exponentSign_digits hes hne]
    dsimp only
    rw [htake, hdrop, if_neg hdigits]

section Powers

variable {power : Option (Bool × List Char)} {text : List Char}
  (htext : NumberText.SpellsPower power text)

include htext

/-- A number from its exponent on. -/
lemma exponentToken_power (hpower : ∀ p ∈ power, p.2 ≠ [] ∧ ∀ c ∈ p.2, c.isDigit = true)
    (h : Stops continuesNumber rest) :
    exponentToken negative ds fs isWhole (text ++ rest) =
      (.number ⟨negative, digitValues ds, digitValues fs, NumberText.exponent power,
        isWhole && power.isNone⟩, rest) := by
  cases power with
  | none =>
    cases htext
    rw [Option.isNone_none, Bool.and_true]
    exact exponentToken_of_stops h
  | some p =>
    obtain ⟨hne, hes⟩ := hpower p rfl
    rw [Option.isNone_some, Bool.and_false]
    exact exponentToken_of_power htext hes hne h

/-- Neither digits nor a point go on into an exponent. -/
lemma stops_power {p : Char → Bool} (hsmall : p 'e' = false) (hlarge : p 'E' = false)
    (h : Stops p rest) : Stops p (text ++ rest) := by
  cases htext with
  | none => exact h
  | signed he => rcases he with rfl | rfl <;> exact stops_cons (by assumption) _
  | unsigned he => rcases he with rfl | rfl <;> exact stops_cons (by assumption) _

end Powers

/-- Digits do not go on into a fraction. -/
lemma stops_fractionText (fs : List Char) (h : Stops Char.isDigit rest) :
    Stops Char.isDigit (NumberText.fractionText fs ++ rest) := by
  cases fs with
  | nil => exact h
  | cons f fs => exact stops_cons rfl _

/-- A number without a point. -/
lemma fractionToken_of_stops (h : Stops (· = '.') rest) :
    fractionToken negative ds rest = exponentToken negative ds [] true rest := by
  unfold fractionToken
  split
  · exact absurd (h '.' rfl) (by decide)
  · rfl

lemma fractionToken_point (cs : List Char) :
    fractionToken negative ds ('.' :: cs) =
      if (cs.takeWhile Char.isDigit).isEmpty then brokenNumber cs
      else exponentToken negative ds (cs.takeWhile Char.isDigit) false
        (cs.dropWhile Char.isDigit) := rfl

/-- A number from its point on. -/
lemma fractionToken_fractionText {power : Option (Bool × List Char)} {text : List Char}
    (htext : NumberText.SpellsPower power text) (hfs : ∀ c ∈ fs, c.isDigit = true)
    (hpower : ∀ p ∈ power, p.2 ≠ [] ∧ ∀ c ∈ p.2, c.isDigit = true)
    (h : Stops continuesNumber rest) :
    fractionToken negative ds (NumberText.fractionText fs ++ (text ++ rest)) =
      (.number ⟨negative, digitValues ds, digitValues fs, NumberText.exponent power,
        fs.isEmpty && power.isNone⟩, rest) := by
  cases fs with
  | nil =>
    have hpoint : Stops (· = '.') (text ++ rest) :=
      stops_power htext (by decide) (by decide) h.ne_point
    exact (fractionToken_of_stops hpoint).trans (exponentToken_power htext hpower h)
  | cons f fs =>
    obtain ⟨htake, hdrop⟩ := (stops_power htext rfl rfl h.isDigit).split hfs
    change fractionToken negative ds ('.' :: (f :: fs ++ _)) = _
    rw [fractionToken_point, htake, hdrop, if_neg (by simp)]
    exact exponentToken_power htext hpower h

/-- A number after its sign. -/
lemma numberToken_unsigned {t : NumberText} (ht : t.WellFormed) {power : List Char}
    (hpower : NumberText.SpellsPower t.power power) (h : Stops continuesNumber rest) :
    numberToken t.negative
        (t.whole ++ (NumberText.fractionText t.fraction ++ (power ++ rest))) =
      (.number t.numeral, rest) := by
  have hstop := stops_fractionText t.fraction (stops_power hpower rfl rfl h.isDigit)
  obtain ⟨htake, hdrop⟩ := hstop.split ht.whole
  unfold numberToken
  rw [htake, hdrop]
  dsimp only
  split
  · next hnil => exact absurd hnil ht.whole_ne
  · next hlead =>
    rcases ht.lead with hzero | hhead
    · rw [hzero] at hlead
      cases hlead
    · rw [hlead] at hhead
      exact absurd rfl hhead
  · exact fractionToken_fractionText hpower ht.fraction ht.power h

lemma tokenAt_digit {c : Char} (h : c.isDigit = true) (cs : List Char) :
    tokenAt c cs = numberToken false (c :: cs) := by
  unfold tokenAt
  split
  all_goals first | exact absurd h (by decide) | skip
  rw [if_pos h]

lemma isBlank_digit {c : Char} (h : c.isDigit = true) : isBlank c = false := by
  rw [Bool.eq_false_iff]
  intro hblank
  simp only [isBlank, Bool.or_eq_true, decide_eq_true_iff] at hblank
  rcases hblank with ((rfl | rfl) | rfl) | rfl
  all_goals exact absurd h (by decide)

/-- A number is one token, if the text behind it does not go on with it. -/
lemma tokens_number {t : NumberText} (ht : t.WellFormed) {cs : List Char} (hcs : t.Spells cs)
    (h : Stops continuesNumber rest) : tokens (cs ++ rest) = .number t.numeral :: tokens rest := by
  obtain ⟨power, hpower, rfl⟩ := hcs
  have htoken := numberToken_unsigned ht hpower h
  cases hsign : t.negative with
  | true =>
    rw [hsign] at htoken
    simp only [if_true, List.append_assoc, List.cons_append, List.nil_append]
    rw [tokens_cons rfl]
    change (numberToken true _).1 :: tokens (numberToken true _).2 = _
    rw [htoken]
  | false =>
    rw [hsign] at htoken
    obtain ⟨c, ds, hwhole⟩ := List.exists_cons_of_ne_nil ht.whole_ne
    have hc : c.isDigit = true := ht.whole c (hwhole ▸ List.mem_cons_self)
    rw [if_neg Bool.false_ne_true, List.nil_append, List.append_assoc, List.append_assoc, hwhole,
      List.cons_append, tokens_cons (isBlank_digit hc), tokenAt_digit hc, ← List.cons_append,
      ← hwhole, htoken]

end Numbers

end ShapeGrammar.Json
