import ShapeGrammar.Failure
import ShapeGrammar.Decimal.Numeral

/-!
# Tokens of data files

A data file is a JSON text.  Its tokens are the six marks of punctuation, the three words, numbers
and strings.

A text that stops being well formed ends in a token that says so.  What is wrong with it can depend
on whether the value is wanted or only passed over, because passing over is less strict: it does
not ask for the two halves of a surrogate pair to stand together, and it does not tell a number
that the end of the text cuts short from one that is badly written.  So such a token carries both
answers.
-/

namespace ShapeGrammar.Json

/-- A token. -/
inductive Token where
  | openObject
  | closeObject
  | openList
  | closeList
  | colon
  | comma
  | null
  | boolean (value : Bool)
  | number (value : Numeral)
  /-- A string; `none` if an escape in it is half of a surrogate pair without the other half. -/
  | text (value : Option String)
  /-- A string that does not end as a string should. -/
  | brokenText (wanted passed : TextFault)
  /-- Anything else that is no token. -/
  | broken (wanted passed : TextFault)
deriving DecidableEq

/-- What is wrong where a value of another form is wanted and this token comes. -/
def Token.unexpected : Token → TextFault
  | .closeObject => .malformed
  | .closeList => .malformed
  | .colon => .malformed
  | .comma => .malformed
  | .number n => if n.inRange then .mismatched else .malformed
  | .text none => .malformed
  | .brokenText wanted _ => wanted
  | .broken wanted _ => wanted
  | _ => .mismatched

/-! ### Strings -/

/-- A part of a string: a character, or a code unit of an escape such as `\u00e9`. -/
inductive Piece where
  | char (c : Char)
  | unit (u : Nat)
deriving DecidableEq

/-- The unit is the first half of a surrogate pair. -/
def isLead (u : Nat) : Bool := 0xd800 ≤ u && u < 0xdc00

/-- The unit is the second half of a surrogate pair. -/
def isTrail (u : Nat) : Bool := 0xdc00 ≤ u && u < 0xe000

/-- The character of a surrogate pair. -/
def paired (lead trail : Nat) : Char :=
  Char.ofNat ((lead - 0xd800) * 0x400 + (trail - 0xdc00) + 0x10000)

/-- The characters of a string, if every half of a surrogate pair has its other half. -/
def assemble : List Piece → Option (List Char)
  | [] => some []
  | .char c :: rest => (assemble rest).map (c :: ·)
  | .unit u :: rest =>
    if isTrail u then none
    else if isLead u then
      match rest with
      | .unit v :: rest => if isTrail v then (assemble rest).map (paired u v :: ·) else none
      | _ => none
    else (assemble rest).map (Char.ofNat u :: ·)

/-- A half of a surrogate pair lacks its other half, which cannot come any more either. -/
def hasLoneHalf : List Piece → Bool
  | [] => false
  | .char _ :: rest => hasLoneHalf rest
  | .unit u :: rest =>
    if isTrail u then true
    else if isLead u then
      match rest with
      | [] => false
      | .unit v :: rest => if isTrail v then hasLoneHalf rest else true
      | .char _ :: _ => true
    else hasLoneHalf rest

/-- The value of a hexadecimal digit. -/
def hexDigit? (c : Char) : Option Nat :=
  if '0' ≤ c && c ≤ '9' then some (c.toNat - '0'.toNat)
  else if 'a' ≤ c && c ≤ 'f' then some (c.toNat - 'a'.toNat + 10)
  else if 'A' ≤ c && c ≤ 'F' then some (c.toNat - 'A'.toNat + 10)
  else none

/-- The code unit written by four hexadecimal digits. -/
def codeUnit? (a b c d : Char) : Option Nat :=
  match hexDigit? a, hexDigit? b, hexDigit? c, hexDigit? d with
  | some a, some b, some c, some d => some (((a * 16 + b) * 16 + c) * 16 + d)
  | _, _, _, _ => none

/-- The character of an escape with one letter. -/
def escaped? : Char → Option Char
  | '"' => some '"'
  | '\\' => some '\\'
  | '/' => some '/'
  | 'b' => some '\x08'
  | 'f' => some '\x0c'
  | 'n' => some '\n'
  | 'r' => some '\r'
  | 't' => some '\t'
  | _ => none

/-- The pieces of a string after its opening quote, and what follows its closing quote.  A string
has no control characters; an escape with a code unit has four digits, which take four bytes. -/
def stringPieces : List Char → List Piece × Except TextFault (List Char)
  | [] => ([], .error .ended)
  | '"' :: rest => ([], .ok rest)
  | '\\' :: 'u' :: a :: b :: c :: d :: rest =>
    match codeUnit? a b c d with
    | none => ([], .error .malformed)
    | some u =>
      let (pieces, stop) := stringPieces rest
      (.unit u :: pieces, stop)
  | '\\' :: 'u' :: rest =>
    ([], .error (if (String.ofList rest).utf8ByteSize < 4 then .ended else .malformed))
  | '\\' :: c :: rest =>
    match escaped? c with
    | none => ([], .error .malformed)
    | some e =>
      let (pieces, stop) := stringPieces rest
      (.char e :: pieces, stop)
  | ['\\'] => ([], .error .ended)
  | c :: rest =>
    if c < ' ' then ([], .error .malformed)
    else
      let (pieces, stop) := stringPieces rest
      (.char c :: pieces, stop)

/-- What follows a string is no longer than what follows its opening quote. -/
theorem length_of_stringPieces (cs : List Char) :
    ∀ rest, (stringPieces cs).2 = .ok rest → rest.length ≤ cs.length := by
  fun_induction stringPieces cs <;> intro rest h <;> simp_all <;> grind

/-- The token of a string, and what follows it. -/
def stringToken (cs : List Char) : Token × List Char :=
  match stringPieces cs with
  | (pieces, .ok rest) => (.text ((assemble pieces).map String.ofList), rest)
  | (pieces, .error fault) =>
    (.brokenText (if hasLoneHalf pieces then .malformed else fault) fault, [])

theorem length_stringToken (cs : List Char) : (stringToken cs).2.length ≤ cs.length := by
  unfold stringToken
  split
  · rename_i pieces rest h
    exact length_of_stringPieces cs rest (by rw [h])
  · simp

/-! ### Words -/

/-- Read the rest of a word. -/
def wordToken (word : List Char) (token : Token) (cs : List Char) : Token × List Char :=
  match word, cs with
  | [], cs => (token, cs)
  | _ :: _, [] => (.broken .ended .ended, [])
  | w :: word, c :: cs =>
    if w = c then wordToken word token cs else (.broken .malformed .malformed, [])

theorem length_wordToken (word : List Char) (token : Token) (cs : List Char) :
    (wordToken word token cs).2.length ≤ cs.length := by
  fun_induction wordToken word token cs <;> grind

/-! ### Numbers -/

/-- The values of decimal digits. -/
def digitValues (ds : List Char) : List Nat := ds.map fun d => d.toNat - '0'.toNat

/-- The token of a number that breaks off before `rest`, where digits should come. -/
def brokenNumber (rest : List Char) : Token × List Char :=
  (.broken (if rest.isEmpty then .ended else .malformed) .malformed, [])

/-- The sign of an exponent, `true` for a minus sign, and what follows it. -/
def exponentSign : List Char → Bool × List Char
  | '+' :: rest => (false, rest)
  | '-' :: rest => (true, rest)
  | rest => (false, rest)

/-- A number with digits `ds` before and `fs` after the point, from its exponent on. -/
def exponentToken (negative : Bool) (ds fs : List Char) (isWhole : Bool) (cs : List Char) :
    Token × List Char :=
  match cs with
  | c :: rest =>
    if c = 'e' || c = 'E' then
      let (minus, rest) := exponentSign rest
      let es := rest.takeWhile Char.isDigit
      if es.isEmpty then brokenNumber rest
      else
        let size := Numeral.ofDigits 0 (digitValues es)
        let power : Int := if minus then -(size : Int) else size
        (.number ⟨negative, digitValues ds, digitValues fs, power, false⟩,
          rest.dropWhile Char.isDigit)
    else (.number ⟨negative, digitValues ds, digitValues fs, 0, isWhole⟩, cs)
  | [] => (.number ⟨negative, digitValues ds, digitValues fs, 0, isWhole⟩, [])

/-- A number with whole part `ds`, from its point on. -/
def fractionToken (negative : Bool) (ds : List Char) (cs : List Char) : Token × List Char :=
  match cs with
  | '.' :: rest =>
    let fs := rest.takeWhile Char.isDigit
    let after := rest.dropWhile Char.isDigit
    if fs.isEmpty then brokenNumber rest
    else exponentToken negative ds fs false after
  | cs => exponentToken negative ds [] true cs

/-- A number after its sign, if it has one.  A whole part of several digits does not start with
zero. -/
def numberToken (negative : Bool) (cs : List Char) : Token × List Char :=
  let ds := cs.takeWhile Char.isDigit
  let rest := cs.dropWhile Char.isDigit
  match ds with
  | [] => brokenNumber cs
  | '0' :: _ :: _ => (.broken .malformed .malformed, [])
  | ds => fractionToken negative ds rest

theorem length_dropWhile_le {α : Type} (p : α → Bool) (xs : List α) :
    (xs.dropWhile p).length ≤ xs.length := (List.dropWhile_suffix p).sublist.length_le

theorem length_exponentSign (cs : List Char) : (exponentSign cs).2.length ≤ cs.length := by
  fun_cases exponentSign cs <;> simp

theorem length_exponentToken (negative : Bool) (ds fs : List Char) (isWhole : Bool)
    (cs : List Char) : (exponentToken negative ds fs isWhole cs).2.length ≤ cs.length := by
  unfold exponentToken
  split
  · rename_i c rest
    split
    · have h := length_exponentSign rest
      dsimp only
      split
      · simp [brokenNumber]
      · have := length_dropWhile_le Char.isDigit (exponentSign rest).2
        simp only [List.length_cons]
        omega
    · simp
  · simp

theorem length_fractionToken (negative : Bool) (ds : List Char) (cs : List Char) :
    (fractionToken negative ds cs).2.length ≤ cs.length := by
  unfold fractionToken
  split
  · rename_i rest
    dsimp only
    split
    · simp [brokenNumber]
    · refine Nat.le_trans (length_exponentToken ..) ?_
      exact Nat.le_trans (length_dropWhile_le _ _) (by simp)
  · exact length_exponentToken ..

theorem length_numberToken (negative : Bool) (cs : List Char) :
    (numberToken negative cs).2.length ≤ (cs.dropWhile Char.isDigit).length := by
  unfold numberToken
  dsimp only
  split
  · simp [brokenNumber]
  · simp
  · exact length_fractionToken ..

/-! ### Texts -/

/-- The characters that separate tokens. -/
def isBlank (c : Char) : Bool := c = ' ' || c = '\n' || c = '\t' || c = '\r'

/-- The token that starts with `c`, which is not blank, and what follows it. -/
def tokenAt (c : Char) (cs : List Char) : Token × List Char :=
  match c with
  | '\x7b' => (.openObject, cs)
  | '\x7d' => (.closeObject, cs)
  | '[' => (.openList, cs)
  | ']' => (.closeList, cs)
  | ':' => (.colon, cs)
  | ',' => (.comma, cs)
  | 'n' => wordToken ['u', 'l', 'l'] .null cs
  | 't' => wordToken ['r', 'u', 'e'] (.boolean true) cs
  | 'f' => wordToken ['a', 'l', 's', 'e'] (.boolean false) cs
  | '"' => stringToken cs
  | '-' => numberToken true cs
  | c => if c.isDigit then numberToken false (c :: cs) else (.broken .malformed .malformed, [])

theorem length_tokenAt (c : Char) (cs : List Char) : (tokenAt c cs).2.length ≤ cs.length := by
  unfold tokenAt
  split
  · simp
  · simp
  · simp
  · simp
  · simp
  · simp
  · exact length_wordToken ..
  · exact length_wordToken ..
  · exact length_wordToken ..
  · exact length_stringToken ..
  · exact Nat.le_trans (length_numberToken ..) (length_dropWhile_le _ _)
  · split
    · rename_i hd
      have h := length_numberToken false (c :: cs)
      rw [List.dropWhile_cons_of_pos hd] at h
      exact Nat.le_trans h (length_dropWhile_le _ _)
    · simp

/-- The tokens of a text. -/
def tokens : List Char → List Token
  | [] => []
  | c :: cs =>
    if isBlank c then tokens cs
    else
      have := length_tokenAt c cs
      (tokenAt c cs).1 :: tokens (tokenAt c cs).2
termination_by cs => cs.length
decreasing_by all_goals (simp_wf; try omega)

end ShapeGrammar.Json
