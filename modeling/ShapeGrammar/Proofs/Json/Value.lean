import ShapeGrammar.Proofs.Json.Number

/-!
# The tokens of a written value

`Json.Value.tokens` are the tokens that a value is written as.  They do not depend on the layout: a
spacing that puts nothing but blanks, commas and colons in between gives these tokens
(`Json.writes_write`), whatever follows the value that does not go on with a number.
-/

namespace ShapeGrammar.Json

/-! ### Tokens -/

/-- Lists of tokens with commas in between, and one in front unless they come first. -/
def separated (first : Bool) : List (List Token) → List Token
  | [] => []
  | ts :: tss => (if first then [] else [.comma]) ++ ts ++ separated false tss

mutual

/-- The tokens of a value. -/
def Value.tokens : Value → List Token
  | .null => [.null]
  | .boolean b => [.boolean b]
  | .natural n => [.number (NumberText.ofNat n).numeral]
  | .double x => Json.tokens ((Number.data? x).getD nullText)
  | .single x => Json.tokens ((Number.dataSingle? x).getD nullText)
  | .text s => [.text (some s)]
  | .list items => .openList :: (separated true (itemTokens items) ++ [.closeList])
  | .object members => .openObject :: (separated true (memberTokens members) ++ [.closeObject])

/-- The tokens of the items of a list. -/
def itemTokens : List Value → List (List Token)
  | [] => []
  | v :: vs => v.tokens :: itemTokens vs

/-- The tokens of the members of an object. -/
def memberTokens : List (String × Value) → List (List Token)
  | [] => []
  | (name, v) :: vs => (.text (some name) :: .colon :: v.tokens) :: memberTokens vs

end

/-! ### Layouts -/

/-- The text consists of blanks. -/
def Blank (cs : List Char) : Prop := ∀ c ∈ cs, isBlank c = true

/-- Nothing but blanks stands in brackets around items, one comma between items, and one colon
behind a name. -/
structure Spacing.Separates (spacing : Spacing) : Prop where
  afterOpen : ∀ depth, Blank (spacing.afterOpen depth)
  between : ∀ depth, ∃ bs, spacing.between depth = ',' :: bs ∧ Blank bs
  beforeClose : ∀ depth, Blank (spacing.beforeClose depth)
  afterName : ∃ bs, spacing.afterName = ':' :: bs ∧ Blank bs

lemma separates_compact : Spacing.compact.Separates where
  afterOpen := fun _ _ h => absurd h List.not_mem_nil
  between := fun _ => ⟨[], rfl, fun _ h => absurd h List.not_mem_nil⟩
  beforeClose := fun _ _ h => absurd h List.not_mem_nil
  afterName := ⟨[], rfl, fun _ h => absurd h List.not_mem_nil⟩

lemma blank_lineBreak (depth : ℕ) : Blank (lineBreak depth) := by
  intro c hc
  rcases List.mem_cons.mp hc with rfl | hc
  · rfl
  · rw [List.eq_of_mem_replicate hc]
    rfl

lemma separates_pretty : Spacing.pretty.Separates where
  afterOpen := fun depth => blank_lineBreak (depth + 1)
  between := fun depth => ⟨_, rfl, blank_lineBreak (depth + 1)⟩
  beforeClose := blank_lineBreak
  afterName := ⟨[' '], rfl, by simp [Blank, isBlank]⟩

/-! ### Writing -/

/-- The text is read as these tokens, wherever it stands. -/
def Writes (text : List Char) (ts : List Token) : Prop :=
  ∀ rest, Stops continuesNumber rest → tokens (text ++ rest) = ts ++ tokens rest

/-- A number does not go on with blanks and a mark. -/
lemma stops_blanks {bs : List Char} (h : Blank bs) {c : Char} (hc : continuesNumber c = false)
    (rest : List Char) : Stops continuesNumber (bs ++ c :: rest) := by
  cases bs with
  | nil => exact stops_cons hc rest
  | cons b bs =>
    have hb := h b List.mem_cons_self
    simp only [isBlank, Bool.or_eq_true, decide_eq_true_iff] at hb
    rcases hb with ((rfl | rfl) | rfl) | rfl
    all_goals exact stops_cons rfl _

lemma joined_cons (separator t : List Char) (ts : List (List Char)) :
    joined separator (t :: ts) = t ++ ts.flatMap (separator ++ ·) := by
  induction ts generalizing t with
  | nil => simp [joined]
  | cons u ts ih =>
    rw [joined, ih, List.flatMap_cons, List.append_assoc, List.append_assoc]
    exact List.cons_ne_nil u ts

section Brackets

variable {spacing : Spacing} (hs : spacing.Separates) {texts : List (List Char)}
  {tss : List (List Token)}

include hs

/-- The items of a list but for the first. -/
lemma tokens_more (h : List.Forall₂ Writes texts tss) (depth : ℕ) {rest : List Char}
    (hrest : Stops continuesNumber rest) :
    Stops continuesNumber (texts.flatMap (spacing.between depth ++ ·) ++ rest) ∧
      tokens (texts.flatMap (spacing.between depth ++ ·) ++ rest) =
        separated false tss ++ tokens rest := by
  obtain ⟨bs, hcomma, hblank⟩ := hs.between depth
  induction h with
  | nil => exact ⟨hrest, rfl⟩
  | @cons text ts texts tss htext _ ih =>
    have hsplit : (text :: texts).flatMap (spacing.between depth ++ ·) ++ rest =
        ',' :: (bs ++ (text ++ (texts.flatMap (spacing.between depth ++ ·) ++ rest))) := by
      simp [hcomma]
    rw [hsplit]
    refine ⟨stops_cons rfl _, ?_⟩
    rw [tokens_cons rfl]
    change Token.comma :: tokens (bs ++ _) = _
    rw [tokens_blanks hblank, htext _ ih.1, ih.2]
    simp [separated]

/-- Items in brackets. -/
lemma writes_bracketed (h : List.Forall₂ Writes texts tss) (depth : ℕ) {c d : Char} {t u : Token}
    (hopen : ∀ cs, tokens (c :: cs) = t :: tokens cs)
    (hclose : ∀ cs, tokens (d :: cs) = u :: tokens cs) (hstop : continuesNumber d = false) :
    Writes (bracketed spacing depth c d texts) (t :: (separated true tss ++ [u])) := by
  intro rest _
  cases h with
  | nil => exact (hopen _).trans (congrArg (t :: ·) (hclose rest))
  | @cons text ts texts tss htext hrest =>
    have hend := stops_blanks (hs.beforeClose depth) hstop rest
    obtain ⟨hstops, hmore⟩ := tokens_more hs hrest depth hend
    have hsplit : bracketed spacing depth c d (text :: texts) ++ rest =
        c :: (spacing.afterOpen depth ++ (text ++ (texts.flatMap (spacing.between depth ++ ·) ++
          (spacing.beforeClose depth ++ d :: rest)))) := by
      simp [bracketed, joined_cons]
    rw [hsplit, hopen, tokens_blanks (hs.afterOpen depth), htext _ hstops, hmore,
      tokens_blanks (hs.beforeClose depth), hclose]
    simp [separated]

end Brackets

/-- The text of a number is its token. -/
lemma writes_number {t : NumberText} (ht : t.WellFormed) : Writes t.chars [.number t.numeral] :=
  fun _ hrest => tokens_number ht t.spells_chars hrest

lemma writes_null : Writes nullText [.null] := fun rest _ => tokens_null rest

/-- Standing alone, a text is read as its tokens. -/
lemma Writes.tokens_eq {text : List Char} {ts : List Token} (h : Writes text ts) :
    tokens text = ts := by
  have halone := h [] (stops_nil _)
  rwa [List.append_nil, tokens_nil, List.append_nil] at halone

/-- A number, or the word for nothing, is read as its tokens. -/
lemma writes_number? {text : Option (List Char)}
    (h : ∀ cs ∈ text, ∃ t : NumberText, t.WellFormed ∧ t.chars = cs) :
    Writes (text.getD nullText) (tokens (text.getD nullText)) := by
  cases text with
  | none =>
    rw [Option.getD_none, writes_null.tokens_eq]
    exact writes_null
  | some cs =>
    obtain ⟨t, ht, rfl⟩ := h cs rfl
    rw [Option.getD_some, (writes_number ht).tokens_eq]
    exact writes_number ht

mutual

/-- A value is read as its tokens. -/
theorem writes_write {spacing : Spacing} (hs : spacing.Separates) (v : Value) (depth : ℕ) :
    Writes (v.write spacing depth) v.tokens := by
  cases v with
  | null => exact writes_null
  | boolean b => exact fun rest _ => tokens_boolean b rest
  | natural n =>
    rw [Value.write, Value.tokens, ← NumberText.chars_ofNat]
    exact writes_number (NumberText.wellFormed_ofNat n)
  | double x => exact writes_number? fun _ h => Number.exists_numberText_dataText? h
  | single x => exact writes_number? fun _ h => Number.exists_numberText_dataText? h
  | text s => exact fun rest _ => tokens_quoted s rest
  | list items =>
    exact writes_bracketed hs (writes_writeItems hs items (depth + 1)) depth
      (tokens_mark rfl fun _ => rfl) (tokens_mark rfl fun _ => rfl) rfl
  | object members =>
    exact writes_bracketed hs (writes_writeMembers hs members (depth + 1)) depth
      (tokens_mark rfl fun _ => rfl) (tokens_mark rfl fun _ => rfl) rfl

theorem writes_writeItems {spacing : Spacing} (hs : spacing.Separates) (vs : List Value)
    (depth : ℕ) : List.Forall₂ Writes (writeItems spacing depth vs) (itemTokens vs) := by
  cases vs with
  | nil => exact .nil
  | cons v vs => exact .cons (writes_write hs v depth) (writes_writeItems hs vs depth)

theorem writes_writeMembers {spacing : Spacing} (hs : spacing.Separates)
    (vs : List (String × Value)) (depth : ℕ) :
    List.Forall₂ Writes (writeMembers spacing depth vs) (memberTokens vs) := by
  match vs with
  | [] => exact .nil
  | (name, v) :: vs =>
    refine .cons (fun rest hrest => ?_) (writes_writeMembers hs vs depth)
    have hvalue := writes_write hs v depth
    obtain ⟨bs, hcolon, hblank⟩ := hs.afterName
    rw [List.append_assoc, List.append_assoc, tokens_quoted, hcolon, List.cons_append,
      tokens_mark rfl (fun _ => rfl), tokens_blanks hblank, hvalue rest hrest]
    rfl

end

end ShapeGrammar.Json
