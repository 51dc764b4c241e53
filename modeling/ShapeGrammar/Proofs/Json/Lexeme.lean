import Mathlib.Data.List.Chain
import Mathlib.Data.List.TakeWhile
import ShapeGrammar.Proofs.Json.Token

/-!
# The texts that spell a list of tokens

A token can be spelled in more than one way: an exponent with a large letter, a character of a
string by an escape, and any blanks may stand in front of it.  `Json.Lexeme` says what spells one
token, and `Json.Spells` what spells a list of them, without a word on how a text is read.

Reading is the inverse of spelling.  A text is read as what it spells, as long as no two numbers
come together (`Json.Spells.tokens_eq`), and a text in which nothing is broken spells what it is
read as (`Json.spells_tokens`).
-/

namespace ShapeGrammar.Json

/-! ### Spelling -/

/-- The characters stand for a piece of a string: a character for itself unless it is a quote, a
backslash or a control character, a backslash with a letter, or a backslash with four digits. -/
inductive PieceText : Piece → List Char → Prop
  | plain {c : Char} (hquote : c ≠ '"') (hslash : c ≠ '\\') (hcontrol : ¬ c < ' ') :
    PieceText (.char c) [c]
  | letter {e c : Char} (h : escaped? e = some c) : PieceText (.char c) ['\\', e]
  | unit {a b c d : Char} {u : ℕ} (h : codeUnit? a b c d = some u) :
    PieceText (.unit u) ['\\', 'u', a, b, c, d]

/-- The characters stand for the pieces of a string, one after the other. -/
inductive PiecesText : List Piece → List Char → Prop
  | nil : PiecesText [] []
  | cons {p : Piece} {ps : List Piece} {cs ds : List Char} (hp : PieceText p cs)
    (hps : PiecesText ps ds) : PiecesText (p :: ps) (cs ++ ds)

/-- The characters spell the token. -/
inductive Lexeme : Token → List Char → Prop
  | openObject : Lexeme .openObject ['\x7b']
  | closeObject : Lexeme .closeObject ['\x7d']
  | openList : Lexeme .openList ['[']
  | closeList : Lexeme .closeList [']']
  | colon : Lexeme .colon [':']
  | comma : Lexeme .comma [',']
  | null : Lexeme .null nullText
  | boolean (b : Bool) : Lexeme (.boolean b) (booleanText b)
  | number {t : NumberText} {cs : List Char} (ht : t.WellFormed) (hcs : t.Spells cs) :
    Lexeme (.number t.numeral) cs
  | text {ps : List Piece} {cs : List Char} (h : PiecesText ps cs) :
    Lexeme (.text ((assemble ps).map String.ofList)) ('"' :: (cs ++ ['"']))

/-- The text spells the tokens, with blanks anywhere in between. -/
inductive Spells : List Token → List Char → Prop
  | nil : Spells [] []
  | blank {b : Char} {ts : List Token} {cs : List Char} (hb : isBlank b = true)
    (h : Spells ts cs) : Spells ts (b :: cs)
  | token {t : Token} {ts : List Token} {cs rest : List Char} (ht : Lexeme t cs)
    (h : Spells ts rest) : Spells (t :: ts) (cs ++ rest)

/-! ### What is spelled is read -/

/-- The token is a number. -/
def Token.isNumber : Token → Bool
  | .number _ => true
  | _ => false

/-- No two numbers stand side by side. -/
def Apart (ts : List Token) : Prop := ts.IsChain fun t u => t.isNumber = false ∨ u.isNumber = false

lemma PieceText.readsAs {p : Piece} {cs : List Char} (h : PieceText p cs) : ReadsAs cs p := by
  cases h with
  | plain hquote hslash hcontrol => exact readsAs_self hquote hslash hcontrol
  | letter h =>
    refine readsAs_letter ?_ h
    rintro rfl
    cases h
  | unit h => exact readsAs_unit h

/-- The pieces of a string are read up to its closing quote. -/
lemma PiecesText.stringPieces_eq {ps : List Piece} {cs : List Char} (h : PiecesText ps cs)
    (rest : List Char) : stringPieces (cs ++ '"' :: rest) = (ps, .ok rest) := by
  induction h with
  | nil => rfl
  | cons hp _ ih => rw [List.append_assoc, hp.readsAs, ih]

/-- What spells a token is read as that token, and reading goes on behind it. -/
lemma Lexeme.tokens_eq {t : Token} {cs rest : List Char} (h : Lexeme t cs)
    (hrest : t.isNumber = true → Stops continuesNumber rest) :
    tokens (cs ++ rest) = t :: tokens rest := by
  cases h with
  | null => exact tokens_null rest
  | boolean b => exact tokens_boolean b rest
  | number ht hcs => exact tokens_number ht hcs (hrest rfl)
  | @text ps cs hpieces =>
    have htoken : tokenAt '"' (cs ++ '"' :: rest) =
        (.text ((assemble ps).map String.ofList), rest) := by
      change stringToken _ = _
      unfold stringToken
      rw [hpieces.stringPieces_eq]
    rw [List.cons_append, List.append_assoc, List.singleton_append, tokens_cons rfl, htoken]
  | _ => exact tokens_mark rfl (fun _ => rfl) rest

/-- Only a number starts with what a number can go on with. -/
lemma Lexeme.stops {t : Token} {cs : List Char} (h : Lexeme t cs) (ht : t.isNumber = false)
    (rest : List Char) : Stops continuesNumber (cs ++ rest) := by
  cases h with
  | number => cases ht
  | boolean b => cases b <;> exact stops_cons rfl _
  | _ => exact stops_cons rfl _

lemma stops_blank {b : Char} (h : isBlank b = true) (rest : List Char) :
    Stops continuesNumber (b :: rest) := by
  simp only [isBlank, Bool.or_eq_true, decide_eq_true_iff] at h
  rcases h with ((rfl | rfl) | rfl) | rfl
  all_goals exact stops_cons rfl rest

/-- A text is read as what it spells. -/
theorem Spells.tokens_eq {ts : List Token} {cs : List Char} (h : Spells ts cs)
    (hapart : Apart ts) : tokens cs = ts := by
  induction h with
  | nil => exact tokens_nil
  | blank hb _ ih => rw [tokens_blank hb, ih hapart]
  | @token t ts cs rest ht hrest ih =>
    have hstops : t.isNumber = true → Stops continuesNumber rest := by
      intro hnumber
      cases hrest with
      | nil => exact stops_nil _
      | blank hb => exact stops_blank hb _
      | @token u us ds rest hu _ =>
        refine hu.stops ?_ rest
        rcases (List.isChain_cons_cons.mp hapart).1 with hno | hno
        · exact absurd (hnumber.symm.trans hno) (by decide)
        · exact hno
    rw [ht.tokens_eq hstops, ih hapart.tail]

/-! ### What is read was spelled -/

/-- The token says that the text is not well formed. -/
def Token.isBroken : Token → Bool
  | .brokenText _ _ => true
  | .broken _ _ => true
  | _ => false

/-- A token that is not broken is not what a fault gives. -/
lemma not_broken {t u : Token} {xs ys : List Char} (hu : u.isBroken = true)
    (h : (u, xs) = (t, ys)) (ht : t.isBroken = false) : False := by
  rw [← (Prod.mk.inj h).1, hu] at ht
  cases ht

/-- What was read of a string up to its closing quote stands for its pieces. -/
lemma exists_piecesText (cs : List Char) :
    ∀ rest, (stringPieces cs).2 = .ok rest →
      ∃ ds, cs = ds ++ '"' :: rest ∧ PiecesText (stringPieces cs).1 ds := by
  fun_induction stringPieces cs with
  | case2 tail =>
    rintro rest ⟨⟩
    exact ⟨[], rfl, .nil⟩
  | case4 a b c d tail u hunit pieces stop heq ih =>
    intro rest h
    rw [heq] at ih
    obtain ⟨ds, rfl, hpieces⟩ := ih rest h
    exact ⟨_, rfl, .cons (.unit hunit) hpieces⟩
  | case7 e tail _ _ c hletter pieces stop heq ih =>
    intro rest h
    rw [heq] at ih
    obtain ⟨ds, rfl, hpieces⟩ := ih rest h
    exact ⟨_, rfl, .cons (.letter hletter) hpieces⟩
  | case10 c tail hquote _ _ hletter hlast hcontrol pieces stop heq ih =>
    intro rest h
    rw [heq] at ih
    have hslash : c ≠ '\\' := by
      rintro rfl
      cases tail with
      | nil => exact hlast rfl rfl
      | cons d tail => exact hletter d tail rfl rfl
    obtain ⟨ds, rfl, hpieces⟩ := ih rest h
    exact ⟨_, rfl, .cons (.plain hquote hslash hcontrol) hpieces⟩
  | _ => exact fun rest h => by cases h

section Numbers

variable {ds fs cs rest : List Char} {negative isWhole : Bool} {t : Token}

/-- The sign and the digits of an exponent stand in the text. -/
lemma exists_spellsPower {e : Char} (he : e = 'e' ∨ e = 'E') (cs : List Char) :
    ∃ power, NumberText.SpellsPower
        (some ((exponentSign cs).1, (exponentSign cs).2.takeWhile Char.isDigit)) power ∧
      e :: cs = power ++ (exponentSign cs).2.dropWhile Char.isDigit := by
  have hsplit : ∀ ds : List Char, ds.takeWhile Char.isDigit ++ ds.dropWhile Char.isDigit = ds :=
    fun _ => List.takeWhile_append_dropWhile
  fun_cases exponentSign cs with
  | case1 tail => exact ⟨_, .signed he false _, congrArg (e :: '+' :: ·) (hsplit tail).symm⟩
  | case2 tail => exact ⟨_, .signed he true _, congrArg (e :: '-' :: ·) (hsplit tail).symm⟩
  | case3 => exact ⟨_, .unsigned he _, congrArg (e :: ·) (hsplit cs).symm⟩

/-- What was read as a number from its exponent on. -/
lemma of_exponentToken (h : exponentToken negative ds fs isWhole cs = (t, rest))
    (ht : t.isBroken = false) :
    ∃ power text, NumberText.SpellsPower power text ∧ cs = text ++ rest ∧
      (∀ p ∈ power, p.2 ≠ [] ∧ ∀ c ∈ p.2, c.isDigit = true) ∧
      t = .number ⟨negative, digitValues ds, digitValues fs, NumberText.exponent power,
        isWhole && power.isNone⟩ := by
  have hplain : exponentToken negative ds fs isWhole cs =
      (.number ⟨negative, digitValues ds, digitValues fs, 0, isWhole⟩, cs) →
      ∃ power text, NumberText.SpellsPower power text ∧ cs = text ++ rest ∧
        (∀ p ∈ power, p.2 ≠ [] ∧ ∀ c ∈ p.2, c.isDigit = true) ∧
        t = .number ⟨negative, digitValues ds, digitValues fs, NumberText.exponent power,
          isWhole && power.isNone⟩ := by
    intro heq
    obtain ⟨rfl, rfl⟩ := Prod.mk.inj (h.symm.trans heq)
    have hpower : ∀ p ∈ (none : Option (Bool × List Char)),
        p.2 ≠ [] ∧ ∀ c ∈ p.2, c.isDigit = true := fun p hp => by cases hp
    refine ⟨none, [], .none, rfl, hpower, ?_⟩
    rw [Option.isNone_none, Bool.and_true]
    rfl
  cases cs with
  | nil => exact hplain rfl
  | cons c cs =>
    by_cases hletter : c = 'e' ∨ c = 'E'
    · obtain ⟨text, htext, hsplit⟩ := exists_spellsPower hletter cs
      rw [exponentToken_letter hletter] at h
      split at h
      · exact (not_broken rfl h ht).elim
      · next hne =>
        obtain ⟨rfl, rfl⟩ := Prod.mk.inj h
        refine ⟨_, text, htext, hsplit, ?_, ?_⟩
        · rintro p ⟨⟩
          refine ⟨fun hnil => hne ?_, fun c hc => List.mem_takeWhile_imp hc⟩
          exact List.isEmpty_iff.mpr hnil
        · rw [Option.isNone_some, Bool.and_false]
    · refine hplain ?_
      rw [exponentToken, if_neg]
      simpa using hletter

/-- What was read as a number from its point on. -/
lemma of_fractionToken (h : fractionToken negative ds cs = (t, rest)) (ht : t.isBroken = false) :
    ∃ fs power text, NumberText.SpellsPower power text ∧
      cs = NumberText.fractionText fs ++ (text ++ rest) ∧ (∀ c ∈ fs, c.isDigit = true) ∧
      (∀ p ∈ power, p.2 ≠ [] ∧ ∀ c ∈ p.2, c.isDigit = true) ∧
      t = .number ⟨negative, digitValues ds, digitValues fs, NumberText.exponent power,
        fs.isEmpty && power.isNone⟩ := by
  unfold fractionToken at h
  split at h
  · next tail =>
    dsimp only at h
    split at h
    · exact (not_broken rfl h ht).elim
    · next hne =>
      obtain ⟨power, text, htext, hsplit, hpower, rfl⟩ := of_exponentToken h ht
      obtain ⟨f, fs, hfs⟩ := List.exists_cons_of_ne_nil fun hnil => hne (List.isEmpty_iff.mpr hnil)
      refine ⟨tail.takeWhile Char.isDigit, power, text, htext, ?_,
        fun c hc => List.mem_takeWhile_imp hc, hpower, ?_⟩
      · rw [← hsplit, hfs]
        change '.' :: tail = '.' :: (f :: fs ++ tail.dropWhile Char.isDigit)
        rw [← hfs, List.takeWhile_append_dropWhile]
      · rw [hfs]
        rfl
  · obtain ⟨power, text, htext, hsplit, hpower, rfl⟩ := of_exponentToken h ht
    exact ⟨[], power, text, htext, hsplit, fun c hc => absurd hc List.not_mem_nil, hpower, rfl⟩

/-- What was read as a number after its sign. -/
lemma of_numberToken (h : numberToken negative cs = (t, rest)) (ht : t.isBroken = false) :
    ∃ number : NumberText, number.WellFormed ∧ number.negative = negative ∧
      t = .number number.numeral ∧ ∃ power, NumberText.SpellsPower number.power power ∧
        cs = number.whole ++ (NumberText.fractionText number.fraction ++ (power ++ rest)) := by
  unfold numberToken at h
  dsimp only at h
  split at h
  · exact (not_broken rfl h ht).elim
  · exact (not_broken rfl h ht).elim
  · next hne hlead =>
    obtain ⟨fs, power, text, htext, hsplit, hfs, hpower, rfl⟩ := of_fractionToken h ht
    refine ⟨⟨negative, cs.takeWhile Char.isDigit, fs, power⟩, ?_, rfl, rfl, text, htext, ?_⟩
    · refine ⟨fun c hc => List.mem_takeWhile_imp hc, hne, ?_, hfs, hpower⟩
      by_cases hzero : (cs.takeWhile Char.isDigit).head? = some '0'
      · refine Or.inl ?_
        obtain ⟨ds, hds⟩ := List.head?_eq_some_iff.mp hzero
        cases ds with
        | nil => exact hds
        | cons d ds => exact absurd hds (hlead d ds)
      · exact Or.inr hzero
    · rw [← hsplit, List.takeWhile_append_dropWhile]

end Numbers

/-- What was read as a word. -/
lemma of_wordToken {word cs rest : List Char} {token t : Token}
    (h : wordToken word token cs = (t, rest)) (ht : t.isBroken = false) :
    t = token ∧ cs = word ++ rest := by
  fun_induction wordToken word token cs with
  | case1 cs =>
    obtain ⟨rfl, rfl⟩ := Prod.mk.inj h
    exact ⟨rfl, rfl⟩
  | case2 w word =>
    exact (not_broken rfl h ht).elim
  | case3 word c cs ih =>
    obtain ⟨rfl, rfl⟩ := ih h
    exact ⟨rfl, rfl⟩
  | case4 w word c cs hne =>
    exact (not_broken rfl h ht).elim

/-- A token that is not broken was spelled by what was read of the text. -/
lemma exists_lexeme_of_tokenAt {c : Char} {cs rest : List Char} {t : Token}
    (h : tokenAt c cs = (t, rest)) (ht : t.isBroken = false) :
    ∃ ds, c :: cs = ds ++ rest ∧ Lexeme t ds := by
  unfold tokenAt at h
  split at h
  · obtain ⟨rfl, rfl⟩ := Prod.mk.inj h
    exact ⟨_, rfl, .openObject⟩
  · obtain ⟨rfl, rfl⟩ := Prod.mk.inj h
    exact ⟨_, rfl, .closeObject⟩
  · obtain ⟨rfl, rfl⟩ := Prod.mk.inj h
    exact ⟨_, rfl, .openList⟩
  · obtain ⟨rfl, rfl⟩ := Prod.mk.inj h
    exact ⟨_, rfl, .closeList⟩
  · obtain ⟨rfl, rfl⟩ := Prod.mk.inj h
    exact ⟨_, rfl, .colon⟩
  · obtain ⟨rfl, rfl⟩ := Prod.mk.inj h
    exact ⟨_, rfl, .comma⟩
  · obtain ⟨rfl, rfl⟩ := of_wordToken h ht
    exact ⟨_, rfl, .null⟩
  · obtain ⟨rfl, rfl⟩ := of_wordToken h ht
    exact ⟨_, rfl, .boolean true⟩
  · obtain ⟨rfl, rfl⟩ := of_wordToken h ht
    exact ⟨_, rfl, .boolean false⟩
  · unfold stringToken at h
    split at h
    · next ps tail heq =>
      obtain ⟨rfl, rfl⟩ := Prod.mk.inj h
      obtain ⟨ds, rfl, hpieces⟩ := exists_piecesText cs tail (by rw [heq])
      rw [heq] at hpieces
      refine ⟨_, ?_, .text hpieces⟩
      simp
    · exact (not_broken rfl h ht).elim
  · obtain ⟨number, hnumber, hsign, rfl, power, hpower, hsplit⟩ := of_numberToken h ht
    refine ⟨_, ?_, .number hnumber ⟨power, hpower, rfl⟩⟩
    rw [hsign, hsplit]
    simp
  · split at h
    · obtain ⟨number, hnumber, hsign, rfl, power, hpower, hsplit⟩ := of_numberToken h ht
      refine ⟨_, ?_, .number hnumber ⟨power, hpower, rfl⟩⟩
      rw [hsign, hsplit]
      simp
    · exact (not_broken rfl h ht).elim

/-- A text in which nothing is broken spells what it is read as. -/
theorem spells_tokens (cs : List Char) (h : ∀ t ∈ tokens cs, t.isBroken = false) :
    Spells (tokens cs) cs := by
  induction cs using tokens.induct with
  | case1 =>
    rw [tokens_nil]
    exact .nil
  | case2 c cs hblank ih =>
    rw [tokens_blank hblank] at h ⊢
    exact .blank hblank (ih h)
  | case3 c cs hblank _ ih =>
    rw [tokens_cons (Bool.eq_false_iff.mpr hblank)] at h ⊢
    obtain ⟨ds, hds, hlexeme⟩ :=
      exists_lexeme_of_tokenAt (Prod.eta (tokenAt c cs)).symm (h _ List.mem_cons_self)
    rw [hds]
    exact .token hlexeme (ih fun t ht => h t (List.mem_cons_of_mem _ ht))

end ShapeGrammar.Json
