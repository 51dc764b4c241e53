import ShapeGrammar.Proofs.Json.Reading

/-!
# Reading what was written

Whole numbers, truth values and strings are read back from the tokens of what was written, whatever
follows them.  A double is read as what its text says (`Json.reread`), which need not be that
double: the text is right, but reading it rounds twice.

A written value says a tree (`Json.Value.tree`), so that what it is read as depends on the meaning
of that tree only (`Json.reads_back_iff`).

The members of an object are read one by one.  `Json.Collects` says what becomes of a record in the
end, up to the first member that cannot be read, and `Json.readRecord_object` that this is what
reading the object gives.
-/

namespace ShapeGrammar.Json

/-! ### Scalars -/

/-- Digits are read from left to right. -/
lemma ofDigits_digitValues (cs : List Char) (n : ℕ) :
    Numeral.ofDigits n (digitValues cs) = Nat.ofDigitChars 10 cs n := by
  induction cs generalizing n with
  | nil => rfl
  | cons c cs ih =>
    rw [Nat.ofDigitChars_cons, ← ih, Nat.mul_comm]
    rfl

lemma natural?_ofNat {n : ℕ} (h : n < UInt64.size) :
    (NumberText.ofNat n).numeral.natural? = some n := by
  have hdigits : (NumberText.ofNat n).numeral.digits = n := by
    change Numeral.ofDigits 0 (digitValues (Nat.toDigits 10 n)) = n
    rw [ofDigits_digitValues, Nat.ofDigitChars_ten_toDigits]
  unfold Numeral.natural?
  rw [hdigits, if_pos]
  simpa [NumberText.numeral, NumberText.ofNat] using h

lemma readNatural_tokens {n : ℕ} (h : n < UInt64.size) (rest : List Token) :
    readNatural ((Value.natural n).tokens ++ rest) = .ok (n, rest) := by
  change readNatural (.number (NumberText.ofNat n).numeral :: rest) = _
  unfold readNatural
  dsimp only
  rw [natural?_ofNat h]

lemma readString_tokens (s : String) (rest : List Token) :
    readString ((Value.text s).tokens ++ rest) = .ok (s, rest) := rfl

lemma readBool_tokens (b : Bool) (rest : List Token) :
    readBool ((Value.boolean b).tokens ++ rest) = .ok (b, rest) := rfl

/-- A missing number is written as `null`. -/
lemma readOption_tokens {n : Option ℕ} (h : ∀ k ∈ n, k < UInt64.size) (rest : List Token) :
    readOption readNatural ((Value.optional (n.map .natural)).tokens ++ rest) = .ok (n, rest) := by
  cases n with
  | none => rfl
  | some k =>
    have hread := readNatural_tokens (h k rfl) rest
    change (readNatural ((Value.natural k).tokens ++ rest) >>= fun x => .ok (some x.1, x.2)) = _
    rw [hread]
    rfl

/-! ### Doubles -/

/-- What the text of a double is read as. -/
def reread (x : Float) : Except TextFault Float :=
  (readFloat (tokens ((Value.double x).write .compact 0))).map Prod.fst

/-- The text that is written for the double is read as that double. -/
def ReadsBack (x : Float) : Prop := reread x = .ok x

instance : DecidablePred ReadsBack := fun x => inferInstanceAs (Decidable (reread x = .ok x))

-- The digits make a whole number of 53 bits, and dividing it by a power of ten rounds once.
example : ReadsBack 320.5 := by decide +kernel

-- These digits do not fit into a double, so that the quotient is rounded for a second time.
example : ¬ ReadsBack 1234.5678901234567 := by decide +kernel

/-- A double is written as one token. -/
lemma exists_token_double (x : Float) : ∃ t, (Value.double x).tokens = [t] := by
  unfold Value.tokens
  cases hdata : Number.data? x with
  | none => exact ⟨.null, writes_null.tokens_eq⟩
  | some text =>
    obtain ⟨t, ht, rfl⟩ := Number.exists_numberText_dataText? hdata
    exact ⟨.number t.numeral, (writes_number ht).tokens_eq⟩

/-- Reading a double looks at its token and at nothing behind it. -/
lemma readFloat_tokens (x : Float) (rest : List Token) :
    readFloat ((Value.double x).tokens ++ rest) = (reread x).map (·, rest) := by
  unfold reread
  rw [(writes_write separates_compact (.double x) 0).tokens_eq]
  obtain ⟨t, ht⟩ := exists_token_double x
  rw [ht]
  cases t with
  | number n =>
    unfold readFloat
    dsimp only [List.singleton_append]
    cases n.toFloat? <;> rfl
  | _ => rfl

/-! ### Trees -/

/-- What a text says for a number, or `null` without one. -/
def numberTree (text : Option (List Char)) : Tree :=
  match tokens (text.getD nullText) with
  | [.number n] => .number n
  | _ => .null

mutual

/-- What a written value says. -/
def Value.tree : Value → Tree
  | .null => .null
  | .boolean b => .boolean b
  | .natural n => .number (NumberText.ofNat n).numeral
  | .double x => numberTree (Number.data? x)
  | .single x => numberTree (Number.dataSingle? x)
  | .text s => .text (some s)
  | .list items => .list (treesOfItems items)
  | .object members => .object (treesOfMembers members)

/-- What the items of a list say. -/
def treesOfItems : List Value → List Tree
  | [] => []
  | v :: vs => v.tree :: treesOfItems vs

/-- What the members of an object say. -/
def treesOfMembers : List (String × Value) → List (Option String × Tree)
  | [] => []
  | (name, v) :: vs => (some name, v.tree) :: treesOfMembers vs

end

lemma treesOfItems_eq_map (vs : List Value) : treesOfItems vs = vs.map Value.tree := by
  induction vs with
  | nil => rfl
  | cons v vs ih => rw [treesOfItems, ih, List.map_cons]

lemma numberTree_none : numberTree none = .null := by
  rw [numberTree, Option.getD_none, writes_null.tokens_eq]

lemma tokens_numberTree {text : Option (List Char)}
    (h : ∀ cs ∈ text, ∃ t : NumberText, t.WellFormed ∧ t.chars = cs) :
    (numberTree text).tokens = tokens (text.getD nullText) := by
  cases text with
  | none =>
    rw [numberTree_none, Option.getD_none, writes_null.tokens_eq]
    rfl
  | some cs =>
    obtain ⟨t, ht, rfl⟩ := h cs rfl
    rw [numberTree, Option.getD_some, (writes_number ht).tokens_eq]
    rfl

mutual

/-- A value is written as the tokens of its tree. -/
theorem tokens_tree (v : Value) : v.tree.tokens = v.tokens := by
  cases v with
  | double x => exact tokens_numberTree fun _ h => Number.exists_numberText_dataText? h
  | single x => exact tokens_numberTree fun _ h => Number.exists_numberText_dataText? h
  | list items =>
    rw [Value.tree, Value.tokens, Tree.tokens, tokensOfItems_trees items]
  | object members =>
    rw [Value.tree, Value.tokens, Tree.tokens, tokensOfMembers_trees members]
  | _ => rfl

theorem tokensOfItems_trees (vs : List Value) :
    Tree.tokensOfItems (treesOfItems vs) = itemTokens vs := by
  cases vs with
  | nil => rfl
  | cons v vs =>
    rw [treesOfItems, Tree.tokensOfItems, tokens_tree v, tokensOfItems_trees vs, itemTokens]

theorem tokensOfMembers_trees (vs : List (String × Value)) :
    Tree.tokensOfMembers (treesOfMembers vs) = memberTokens vs := by
  match vs with
  | [] => rfl
  | (name, v) :: vs =>
    rw [treesOfMembers, Tree.tokensOfMembers, tokens_tree v, tokensOfMembers_trees vs,
      memberTokens]

end

/-- A written value says its tree. -/
lemma says_compact (v : Value) : Says v.compact.toList v.tree := by
  rw [says_iff, tokens_tree, Value.compact, String.toList_ofList]
  exact (writes_write separates_compact v 0).tokens_eq

/-- What a value is read as depends on the meaning of its tree only. -/
lemma reads_back_iff {α : Type} {reader : Reader α} {meaning : Tree → Option α}
    (h : Reads reader meaning) {v : Value} {a : α} :
    (reader (tokens (v.write .compact 0))).map Prod.fst = .ok a ↔ meaning v.tree = some a := by
  have htokens : tokens (v.write .compact 0) = v.tree.tokens ++ [] := by
    rw [(writes_write separates_compact v 0).tokens_eq, tokens_tree, List.append_nil]
  rw [htokens]
  constructor
  · intro hread
    cases hresult : reader (v.tree.tokens ++ []) with
    | error fault =>
      rw [hresult] at hread
      cases hread
    | ok result =>
      obtain ⟨b, rest⟩ := result
      rw [hresult] at hread
      cases hread
      obtain ⟨t, ht, ha⟩ := h.exists_tree hresult
      rwa [(v.tree.tokens_append_inj t [] rest ht).1]
  · intro ha
    rw [h.reads ha]
    rfl

lemma readsBack_iff {x : Float} : ReadsBack x ↔ (Value.double x).tree.double? = some x :=
  reads_back_iff reads_float

/-- A number that has no text is not read back. -/
lemma isFinite_of_readsBack {x : Float} (h : ReadsBack x) : x.isFinite = true := by
  have hdata : Number.data? x ≠ none := by
    intro hnone
    have htree := readsBack_iff.mp h
    rw [Value.tree, hnone, numberTree_none] at htree
    cases htree
  unfold Number.data? at hdata
  cases hunpack : x.toModel.unpack with
  | notANumber => exact absurd (congrArg (Number.dataText? .binary64 (-5) 16) hunpack) hdata
  | infinity sign => exact absurd (congrArg (Number.dataText? .binary64 (-5) 16) hunpack) hdata
  | zero sign => exact congrArg Float.Model.UnpackedFloat.isFinite hunpack
  | finite sign m e hm => exact congrArg Float.Model.UnpackedFloat.isFinite hunpack

/-- The text that is written for the 32-bit number is read as that number. -/
def SingleReadsBack (x : Float32) : Prop :=
  (readSingle (tokens ((Value.single x).write .compact 0))).map Prod.fst = .ok x

instance : DecidablePred SingleReadsBack := fun _ => inferInstanceAs (Decidable (_ = _))

lemma singleReadsBack_iff {x : Float32} :
    SingleReadsBack x ↔ (Value.single x).tree.single? = some x :=
  reads_back_iff reads_single

/-! ### Objects -/

section Objects

variable {σ α : Type} {member : σ → String → Member σ} {record : σ} {name : String}
  {v : Value} {ms : List (String × Value)} {read : Reader σ} {r : Except TextFault σ}

/-- What the members make of a record, one after the other, up to the first that cannot be read. -/
inductive Collects (member : σ → String → Member σ) :
    σ → List (String × Value) → Except TextFault σ → Prop
  | nil (record : σ) : Collects member record [] (.ok record)
  | cons {record record' : σ} {name : String} {v : Value} {ms : List (String × Value)}
      {read : Reader σ} {r : Except TextFault σ} (hmember : member record name = .known read)
      (hread : ∀ rest, read (v.tokens ++ rest) = .ok (record', rest))
      (hrest : Collects member record' ms r) : Collects member record ((name, v) :: ms) r
  | fault {record : σ} {name : String} {v : Value} {ms : List (String × Value)}
      {read : Reader σ} {fault : TextFault} (hmember : member record name = .known read)
      (hread : ∀ rest, read (v.tokens ++ rest) = .error fault) :
      Collects member record ((name, v) :: ms) (.error fault)

/-- Going to a written member. -/
lemma nextMember_memberTokens (first : Bool) (name : String) (v : Value)
    (ms : List (String × Value)) (rest : List Token) :
    nextMember first (separated first (memberTokens ((name, v) :: ms)) ++ rest) =
      .ok (some name, .colon :: (v.tokens ++ (separated false (memberTokens ms) ++ rest))) := by
  cases first <;> simp [memberTokens, separated, nextMember, memberName]

/-- The step of reading a member that the record knows. -/
lemma readMembers_known (hmember : member record name = .known read) (fuel : ℕ) (first : Bool)
    (rest : List Token) :
    readMembers member (fuel + 1) first record
        (separated first (memberTokens ((name, v) :: ms)) ++ rest) =
      (read (v.tokens ++ (separated false (memberTokens ms) ++ rest)) >>= fun x =>
        readMembers member fuel false x.1 x.2) := by
  rw [readMembers]
  dsimp only
  rw [nextMember_memberTokens]
  dsimp only [bind, Except.bind]
  rw [hmember]
  rfl

/-- Members are read as they are collected. -/
lemma readMembers_of_collects (h : Collects member record ms r) {fuel : ℕ}
    (hfuel : ms.length < fuel) (first : Bool) (rest : List Token) :
    readMembers member fuel first record
        (separated first (memberTokens ms) ++ .closeObject :: rest) =
      r.map (·, .closeObject :: rest) := by
  induction h generalizing fuel first with
  | nil record =>
    cases fuel with
    | zero => exact absurd hfuel (Nat.not_lt_zero _)
    | succ fuel => rfl
  | @cons record record' name v ms read r hmember hread _ ih =>
    cases fuel with
    | zero => exact absurd hfuel (Nat.not_lt_zero _)
    | succ fuel =>
      rw [readMembers_known hmember, hread]
      exact ih (Nat.lt_of_succ_lt_succ hfuel) false
  | @fault record name v ms read fault hmember hread =>
    cases fuel with
    | zero => exact absurd hfuel (Nat.not_lt_zero _)
    | succ fuel =>
      rw [readMembers_known hmember, hread]
      rfl

/-- A written member is not longer than its tokens. -/
lemma length_le_length_members (first : Bool) (ms : List (String × Value)) :
    ms.length ≤ (separated first (memberTokens ms)).length := by
  induction ms generalizing first with
  | nil => exact Nat.zero_le _
  | cons m ms ih =>
    have hrest := ih false
    simp only [memberTokens, separated, List.length_append, List.length_cons]
    omega

/-- A record is read from an object as its members are collected. -/
lemma readRecord_object {names : List String} {finish : RecordForm → σ → Except TextFault α}
    (h : Collects member record ms r) (rest : List Token) :
    readRecord record names member finish ((Value.object ms).tokens ++ rest) =
      (r >>= finish .named).map (·, rest) := by
  have hfuel : ms.length <
      (separated true (memberTokens ms) ++ .closeObject :: rest).length + 1 := by
    have hlength := length_le_length_members true ms
    rw [List.length_append]
    omega
  have hobject : (Value.object ms).tokens ++ rest =
      .openObject :: (separated true (memberTokens ms) ++ .closeObject :: rest) := by
    simp [Value.tokens]
  rw [hobject, readRecord, readMembers_of_collects h hfuel]
  cases r with
  | error fault => rfl
  | ok record =>
    change (finish .named record >>= fun a => .ok (a, rest)) = (finish .named record).map (·, rest)
    cases finish .named record <;> rfl

end Objects

end ShapeGrammar.Json
