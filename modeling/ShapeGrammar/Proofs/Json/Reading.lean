import ShapeGrammar.Json.Reader
import ShapeGrammar.Proofs.Json.Tree

/-!
# What readers make of a tree

A reader works on tokens from left to right.  `Json.Reads reader meaning` states what it does in
terms of the trees that the tokens belong to: the reader takes exactly the tokens of one tree, and
gives what `meaning` makes of that tree; if it makes nothing of it, the reader gives nothing.

Here this is shown for the readers of scalars, of optional values and of lists, and for passing
over a value of any form (`Json.skip_tokens`, `Json.exists_tree_of_skip`).
-/

namespace ShapeGrammar.Json

/-- What goes on after a step that can fail has gone on after a success. -/
lemma exists_of_bind_eq_ok {ε α β : Type} {x : Except ε α} {f : α → Except ε β} {b : β}
    (h : x >>= f = .ok b) : ∃ a, x = .ok a ∧ f a = .ok b := by
  cases x with
  | error e => cases h
  | ok a => exact ⟨a, rfl, h⟩

/-! ### Values of a kind -/

namespace Tree

/-- The double that a number is read as. -/
def double? : Tree → Option Float
  | .number n => n.toFloat?
  | _ => none

/-- The 32-bit number that a number is read as. -/
def single? : Tree → Option Float32
  | .number n => n.toSingle?
  | _ => none

/-- The whole number of 64 bits that a number is. -/
def natural? : Tree → Option ℕ
  | .number n => n.natural?
  | _ => none

/-- The truth value that a word is. -/
def boolean? : Tree → Option Bool
  | .boolean b => some b
  | _ => none

/-- The characters of a string. -/
def string? : Tree → Option String
  | .text s => s
  | _ => none

/-- A value, or nothing if it is `null`. -/
def optional? {α : Type} (meaning : Tree → Option α) : Tree → Option (Option α)
  | .null => some none
  | t => (meaning t).map some

/-- What the items of a list mean. -/
def list? {α : Type} (meaning : Tree → Option α) : Tree → Option (List α)
  | .list items => items.mapM meaning
  | _ => none

end Tree

/-- The reader takes the tokens of a tree and gives what the tree means. -/
structure Reads {α : Type} (reader : Reader α) (meaning : Tree → Option α) : Prop where
  reads : ∀ {t : Tree} {a : α}, meaning t = some a →
    ∀ rest, reader (t.tokens ++ rest) = .ok (a, rest)
  exists_tree : ∀ {ts : List Token} {a : α} {rest : List Token}, reader ts = .ok (a, rest) →
    ∃ t : Tree, ts = t.tokens ++ rest ∧ meaning t = some a

/-! ### Scalars -/

lemma reads_float : Reads readFloat Tree.double? where
  reads := by
    intro t a h rest
    cases t with
    | number n =>
      change readFloat (.number n :: rest) = _
      rw [readFloat, show n.toFloat? = some a from h]
    | _ => cases h
  exists_tree := by
    intro ts a rest h
    unfold readFloat at h
    split at h
    · cases h
    · next n ts =>
      split at h
      · next x hx =>
        cases h
        exact ⟨.number n, rfl, hx⟩
      · cases h
    · cases h

lemma reads_single : Reads readSingle Tree.single? where
  reads := by
    intro t a h rest
    cases t with
    | number n =>
      change readSingle (.number n :: rest) = _
      rw [readSingle, show n.toSingle? = some a from h]
    | _ => cases h
  exists_tree := by
    intro ts a rest h
    unfold readSingle at h
    split at h
    · cases h
    · next n ts =>
      split at h
      · next x hx =>
        cases h
        exact ⟨.number n, rfl, hx⟩
      · cases h
    · cases h

lemma reads_natural : Reads readNatural Tree.natural? where
  reads := by
    intro t a h rest
    cases t with
    | number n =>
      change readNatural (.number n :: rest) = _
      rw [readNatural, show n.natural? = some a from h]
    | _ => cases h
  exists_tree := by
    intro ts a rest h
    unfold readNatural at h
    split at h
    · cases h
    · next n ts =>
      split at h
      · next x hx =>
        cases h
        exact ⟨.number n, rfl, hx⟩
      · cases h
    · cases h

lemma reads_bool : Reads readBool Tree.boolean? where
  reads := by
    intro t a h rest
    cases t with
    | boolean b =>
      cases h
      rfl
    | _ => cases h
  exists_tree := by
    intro ts a rest h
    unfold readBool at h
    split at h
    · cases h
    · next b ts =>
      cases h
      exact ⟨.boolean a, rfl, rfl⟩
    · cases h

lemma reads_string : Reads readString Tree.string? where
  reads := by
    intro t a h rest
    cases t with
    | text s =>
      obtain rfl : s = some a := h
      rfl
    | _ => cases h
  exists_tree := by
    intro ts a rest h
    unfold readString at h
    split at h
    · cases h
    · next s ts =>
      cases h
      exact ⟨.text (some a), rfl, rfl⟩
    · cases h

/-- A value is read as before, and `null` as nothing. -/
lemma Reads.option {α : Type} {item : Reader α} {meaning : Tree → Option α}
    (h : Reads item meaning) : Reads (readOption item) (Tree.optional? meaning) where
  reads := by
    intro t a ha rest
    have hitem : (meaning t).map some = some a →
        (item (t.tokens ++ rest) >>= fun x => .ok (some x.1, x.2)) = .ok (a, rest) := by
      intro hsome
      obtain ⟨b, hb, rfl⟩ := Option.map_eq_some_iff.mp hsome
      rw [h.reads hb]
      rfl
    cases t with
    | null =>
      cases ha
      rfl
    | _ => exact hitem ha
  exists_tree := by
    intro ts a rest ha
    unfold readOption at ha
    split at ha
    · cases ha
      exact ⟨.null, rfl, rfl⟩
    · next hnull =>
      obtain ⟨⟨b, rest'⟩, hb, hrest⟩ := exists_of_bind_eq_ok ha
      cases hrest
      obtain ⟨t, rfl, ht⟩ := h.exists_tree hb
      refine ⟨t, rfl, ?_⟩
      cases t with
      | null => exact absurd rfl (hnull rest)
      | _ => exact congrArg (Option.map some) ht

/-! ### Lists -/

section Lists

variable {α : Type} {item : Reader α} {meaning : Tree → Option α}

/-- Going to an item. -/
lemma nextElement_item (first : Bool) (t : Tree) (ts : List Tree) (rest : List Token) :
    nextElement first (separated first ((t :: ts).map Tree.tokens) ++ rest) =
      .ok (true, t.tokens ++ (separated false (ts.map Tree.tokens) ++ rest)) := by
  obtain ⟨u, us, hu, hstart⟩ := t.exists_tokens_eq_cons
  rw [List.map_cons, separated, hu]
  cases first with
  | true => cases u <;> first | exact absurd hstart Bool.false_ne_true | simp [nextElement]
  | false => cases u <;> first | exact absurd hstart Bool.false_ne_true | simp [nextElement]

/-- The end of a list was reached, or a comma was passed unless the item is the first. -/
lemma of_nextElement {first more : Bool} {ts rest : List Token}
    (h : nextElement first ts = .ok (more, rest)) :
    (more = false ∧ (∃ ts', ts = .closeList :: ts') ∧ rest = ts) ∨
      more = true ∧ ts = (if first then [] else [.comma]) ++ rest := by
  unfold nextElement at h
  split at h
  · cases h
  · cases h
    exact Or.inl ⟨rfl, ⟨_, rfl⟩, rfl⟩
  · split at h
    · next hfirst =>
      cases h
      exact Or.inr ⟨rfl, by rw [if_pos hfirst]; rfl⟩
    · next hfirst =>
      split at h
      · next hcomma =>
        subst hcomma
        split at h
        · cases h
        · cases h
        · cases h
          exact Or.inr ⟨rfl, by rw [if_neg hfirst]; rfl⟩
      · cases h

lemma readElement?_item (h : Reads item meaning) {t : Tree} {a : α} (ha : meaning t = some a)
    (first : Bool) (ts : List Tree) (rest : List Token) :
    readElement? item first (separated first ((t :: ts).map Tree.tokens) ++ rest) =
      .ok (some a, separated false (ts.map Tree.tokens) ++ rest) := by
  unfold readElement?
  rw [nextElement_item]
  change (item (t.tokens ++ _) >>= _) = _
  rw [h.reads ha]
  rfl

lemma readElement_item (h : Reads item meaning) {t : Tree} {a : α} (ha : meaning t = some a)
    (first : Bool) (ts : List Tree) (rest : List Token) :
    readElement item first (separated first ((t :: ts).map Tree.tokens) ++ rest) =
      .ok (a, separated false (ts.map Tree.tokens) ++ rest) := by
  unfold readElement
  rw [readElement?_item h ha]
  rfl

/-- Items are read up to the end of the list. -/
lemma readElements_items (h : Reads item meaning) {items : List Tree} {as : List α}
    (has : items.mapM meaning = some as) {fuel : ℕ} (hfuel : items.length < fuel) (first : Bool)
    (rest : List Token) :
    readElements item fuel first
        (separated first (items.map Tree.tokens) ++ .closeList :: rest) =
      .ok (as, .closeList :: rest) := by
  induction items generalizing as fuel first with
  | nil =>
    obtain ⟨fuel, rfl⟩ := Nat.exists_eq_succ_of_ne_zero (Nat.ne_of_gt hfuel)
    cases has
    rfl
  | cons t items ih =>
    obtain ⟨fuel, rfl⟩ := Nat.exists_eq_succ_of_ne_zero (Nat.ne_of_gt (Nat.zero_lt_of_lt hfuel))
    rw [List.mapM_cons] at has
    obtain ⟨a, ha, has⟩ := Option.bind_eq_some_iff.mp has
    obtain ⟨as, hrest, has⟩ := Option.bind_eq_some_iff.mp has
    cases has
    unfold readElements
    rw [readElement?_item h ha]
    change (readElements item fuel false _ >>= _) = _
    rw [ih hrest (Nat.lt_of_succ_lt_succ hfuel)]
    rfl

/-- What was read as an element, if there was one. -/
lemma of_readElement? (h : Reads item meaning) {first : Bool} {ts rest : List Token} {a : Option α}
    (ha : readElement? item first ts = .ok (a, rest)) :
    (a = none ∧ (∃ ts', ts = .closeList :: ts') ∧ rest = ts) ∨
      ∃ t b, a = some b ∧ meaning t = some b ∧
        ts = (if first then [] else [.comma]) ++ (t.tokens ++ rest) := by
  unfold readElement? at ha
  obtain ⟨⟨more, ts'⟩, hnext, hmore⟩ := exists_of_bind_eq_ok ha
  clear ha
  rcases of_nextElement hnext with ⟨rfl, hend, rfl⟩ | ⟨rfl, hts⟩
  · cases hmore
    exact Or.inl ⟨rfl, hend, rfl⟩
  · obtain ⟨⟨b, rest'⟩, hb, hrest⟩ := exists_of_bind_eq_ok hmore
    cases hrest
    obtain ⟨t, rfl, ht⟩ := h.exists_tree hb
    exact Or.inr ⟨t, b, rfl, ht, hts⟩

/-- What was read as an element that must be there. -/
lemma of_readElement (h : Reads item meaning) {first : Bool} {ts rest : List Token} {a : α}
    (ha : readElement item first ts = .ok (a, rest)) :
    ∃ t : Tree, meaning t = some a ∧
      ts = (if first then [] else [.comma]) ++ (t.tokens ++ rest) := by
  unfold readElement at ha
  obtain ⟨⟨b, ts'⟩, hb, hsome⟩ := exists_of_bind_eq_ok ha
  clear ha
  rcases of_readElement? h hb with ⟨rfl, -, -⟩ | ⟨t, b, rfl, ht, hts⟩
  · cases hsome
  · cases hsome
    exact ⟨t, ht, hts⟩

/-- What was read as the items of a list. -/
lemma exists_items_of_readElements (h : Reads item meaning) {fuel : ℕ} {first : Bool}
    {ts rest : List Token} {as : List α} (has : readElements item fuel first ts = .ok (as, rest)) :
    ∃ (items : List Tree) (rest' : List Token), rest = .closeList :: rest' ∧
      items.mapM meaning = some as ∧
      ts = separated first (items.map Tree.tokens) ++ rest := by
  induction fuel generalizing first ts as with
  | zero => cases has
  | succ fuel ih =>
    unfold readElements at has
    obtain ⟨⟨a, ts'⟩, ha, hmore⟩ := exists_of_bind_eq_ok has
    clear has
    rcases of_readElement? h ha with ⟨rfl, ⟨rest', rfl⟩, rfl⟩ | ⟨t, b, rfl, ht, rfl⟩
    · cases hmore
      exact ⟨[], rest', rfl, rfl, rfl⟩
    · obtain ⟨⟨bs, rest''⟩, hbs, hrest⟩ := exists_of_bind_eq_ok hmore
      cases hrest
      obtain ⟨items, rest', rfl, hitems, rfl⟩ := ih hbs
      refine ⟨t :: items, rest', rfl, ?_, ?_⟩
      · rw [List.mapM_cons, ht, hitems]
        rfl
      · simp [separated]

/-- There are no more items than tokens. -/
lemma length_le_length_separated {α : Type} {f : α → List Token} (hf : ∀ a, f a ≠ [])
    (first : Bool) (as : List α) : as.length ≤ (separated first (as.map f)).length := by
  induction as generalizing first with
  | nil => exact Nat.zero_le _
  | cons a as ih =>
    have hrest := ih false
    have hone := List.length_pos_iff.mpr (hf a)
    simp only [List.map_cons, separated, List.length_append, List.length_cons]
    omega

lemma Tree.tokens_ne_nil (t : Tree) : t.tokens ≠ [] := by
  obtain ⟨u, us, hu, -⟩ := t.exists_tokens_eq_cons
  rw [hu]
  exact List.cons_ne_nil u us

/-- A list is read if its items are. -/
lemma Reads.list (h : Reads item meaning) : Reads (readList item) (Tree.list? meaning) where
  reads := by
    intro t as has rest
    cases t with
    | list items =>
      have hfuel : items.length <
          (separated true (items.map Tree.tokens) ++ .closeList :: rest).length + 1 := by
        have hlength := length_le_length_separated Tree.tokens_ne_nil true items
        rw [List.length_append]
        omega
      rw [Tree.tokens_list_append, readList, readElements_items h has hfuel]
      rfl
    | _ => cases has
  exists_tree := by
    intro ts as rest has
    unfold readList at has
    split at has
    · cases has
    · next ts =>
      obtain ⟨⟨bs, ts'⟩, hbs, has⟩ := exists_of_bind_eq_ok has
      obtain ⟨ts'', hclose, has⟩ := exists_of_bind_eq_ok has
      cases has
      obtain ⟨items, rest', rfl, hitems, rfl⟩ := exists_items_of_readElements h hbs
      cases hclose
      exact ⟨.list items, (Tree.tokens_list_append items _).symm, hitems⟩
    · cases has

end Lists

/-! ### Passing over -/

/-- What is left to do after a value inside open brackets. -/
def afterValue (stack : List Bracket) (ts : List Token) : Except TextFault (List Token) :=
  if stack.isEmpty then .ok ts else skipInside .more stack ts

lemma skipInside_openList {u : Token} (hu : u ≠ .closeList) (stack : List Bracket)
    (us : List Token) :
    skipInside .value stack (.openList :: u :: us) =
      skipInside .value (.list :: stack) (u :: us) := by
  cases u <;> first | rfl | exact absurd rfl hu

lemma skipInside_openObject {u : Token} (hu : u ≠ .closeObject) (stack : List Bracket)
    (us : List Token) :
    skipInside .value stack (.openObject :: u :: us) =
      skipInside .name (.object :: stack) (u :: us) := by
  cases u <;> first | rfl | exact absurd rfl hu

/-- What can be said of passing over a tree. -/
def Passes (t : Tree) : Prop :=
  ∀ stack rest, skipInside .value stack (t.tokens ++ rest) = afterValue stack rest

/-- The items of a list but for the first are passed over. -/
lemma skipInside_items {items : List Tree} (h : ∀ t ∈ items, Passes t) (stack : List Bracket)
    (rest : List Token) :
    skipInside .more (.list :: stack)
        (separated false (items.map Tree.tokens) ++ .closeList :: rest) =
      afterValue stack rest := by
  induction items with
  | nil => rfl
  | cons t items ih =>
    have hsplit : separated false ((t :: items).map Tree.tokens) ++ .closeList :: rest =
        .comma ::
          (t.tokens ++ (separated false (items.map Tree.tokens) ++ .closeList :: rest)) := by
      simp [separated]
    rw [hsplit]
    change skipInside .value (.list :: stack) (t.tokens ++ _) = _
    rw [h t List.mem_cons_self]
    exact ih fun s hs => h s (List.mem_cons_of_mem t hs)

/-- The members of an object but for the first are passed over. -/
lemma skipInside_members {ms : List (Option String × Tree)} (h : ∀ m ∈ ms, Passes m.2)
    (stack : List Bracket) (rest : List Token) :
    skipInside .more (.object :: stack)
        (separated false (ms.map Tree.memberTokens) ++ .closeObject :: rest) =
      afterValue stack rest := by
  induction ms with
  | nil => rfl
  | cons m ms ih =>
    have hsplit : separated false ((m :: ms).map Tree.memberTokens) ++ .closeObject :: rest =
        .comma :: .text m.1 :: .colon :: (m.2.tokens ++
          (separated false (ms.map Tree.memberTokens) ++ .closeObject :: rest)) := by
      simp [separated, Tree.memberTokens]
    rw [hsplit]
    change skipInside .value (.object :: stack) (m.2.tokens ++ _) = _
    rw [h m List.mem_cons_self]
    exact ih fun n hn => h n (List.mem_cons_of_mem m hn)

/-- A tree is passed over, in brackets or not. -/
lemma passes (t : Tree) : Passes t := by
  induction t with
  | list items ih =>
    intro stack rest
    cases items with
    | nil => rfl
    | cons t items =>
      obtain ⟨u, us, hu, hstart⟩ := t.exists_tokens_eq_cons
      have hsplit : (Tree.list (t :: items)).tokens ++ rest = .openList :: (t.tokens ++
          (separated false (items.map Tree.tokens) ++ .closeList :: rest)) := by
        simp [Tree.tokens_list, separated]
      have hopen := skipInside_openList (u := u) (by rintro rfl; cases hstart) stack
        (us ++ (separated false (items.map Tree.tokens) ++ .closeList :: rest))
      rw [hsplit, hu]
      refine hopen.trans ?_
      rw [← List.cons_append, ← hu, ih t List.mem_cons_self]
      exact skipInside_items (fun s hs => ih s (List.mem_cons_of_mem t hs)) stack rest
  | object ms ih =>
    intro stack rest
    cases ms with
    | nil => rfl
    | cons m ms =>
      have hsplit : (Tree.object (m :: ms)).tokens ++ rest =
          .openObject :: .text m.1 :: .colon :: (m.2.tokens ++
            (separated false (ms.map Tree.memberTokens) ++ .closeObject :: rest)) := by
        simp [Tree.tokens_object, separated, Tree.memberTokens]
      rw [hsplit]
      change skipInside .value (.object :: stack) (m.2.tokens ++ _) = _
      rw [ih m List.mem_cons_self]
      exact skipInside_members (fun n hn => ih n (List.mem_cons_of_mem m hn)) stack rest
  | _ => exact fun stack rest => rfl

/-- A value of any form is passed over. -/
theorem skip_tokens (t : Tree) (rest : List Token) : skip (t.tokens ++ rest) = .ok rest :=
  passes t [] rest

/-- The step of passing over a value: a bracket is opened, or the value ends. -/
lemma of_skipInside_value {stack : List Bracket} {ts rest : List Token}
    (h : skipInside .value stack ts = .ok rest) :
    (∃ (t : Tree) (ts' : List Token), ts = t.tokens ++ ts' ∧ afterValue stack ts' = .ok rest) ∨
      (∃ ts', ts = .openList :: ts' ∧ skipInside .value (.list :: stack) ts' = .ok rest) ∨
      ∃ ts', ts = .openObject :: ts' ∧ skipInside .name (.object :: stack) ts' = .ok rest := by
  cases ts with
  | nil => cases h
  | cons u us =>
    cases u with
    | null => exact Or.inl ⟨.null, us, rfl, h⟩
    | boolean b => exact Or.inl ⟨.boolean b, us, rfl, h⟩
    | number n => exact Or.inl ⟨.number n, us, rfl, h⟩
    | text s => exact Or.inl ⟨.text s, us, rfl, h⟩
    | openList =>
      cases us with
      | nil => cases h
      | cons v vs =>
        by_cases hv : v = .closeList
        · subst hv
          exact Or.inl ⟨.list [], vs, rfl, h⟩
        · rw [skipInside_openList hv] at h
          exact Or.inr (Or.inl ⟨_, rfl, h⟩)
    | openObject =>
      cases us with
      | nil => cases h
      | cons v vs =>
        by_cases hv : v = .closeObject
        · subst hv
          exact Or.inl ⟨.object [], vs, rfl, h⟩
        · rw [skipInside_openObject hv] at h
          exact Or.inr (Or.inr ⟨_, rfl, h⟩)
    | _ => cases h

/-- A name was passed over with its colon. -/
lemma of_skipInside_name {stack : List Bracket} {ts rest : List Token}
    (h : skipInside .name stack ts = .ok rest) :
    ∃ name ts', ts = .text name :: .colon :: ts' ∧ skipInside .value stack ts' = .ok rest := by
  cases ts with
  | nil => cases h
  | cons u us =>
    cases u with
    | text name =>
      cases us with
      | nil => cases h
      | cons v vs =>
        cases v with
        | colon => exact ⟨name, vs, rfl, h⟩
        | _ => simp [skipInside] at h
    | _ => simp [skipInside] at h

/-- What follows an item of a list. -/
lemma of_skipInside_more_list {stack : List Bracket} {ts rest : List Token}
    (h : skipInside .more (.list :: stack) ts = .ok rest) :
    (∃ ts', ts = .closeList :: ts' ∧ afterValue stack ts' = .ok rest) ∨
      ∃ ts', ts = .comma :: ts' ∧ skipInside .value (.list :: stack) ts' = .ok rest := by
  cases ts with
  | nil => cases h
  | cons u us =>
    cases u with
    | closeList => exact Or.inl ⟨us, rfl, h⟩
    | comma => exact Or.inr ⟨us, rfl, h⟩
    | _ => simp [skipInside] at h

/-- What follows a member of an object. -/
lemma of_skipInside_more_object {stack : List Bracket} {ts rest : List Token}
    (h : skipInside .more (.object :: stack) ts = .ok rest) :
    (∃ ts', ts = .closeObject :: ts' ∧ afterValue stack ts' = .ok rest) ∨
      ∃ ts', ts = .comma :: ts' ∧ skipInside .name (.object :: stack) ts' = .ok rest := by
  cases ts with
  | nil => cases h
  | cons u us =>
    cases u with
    | closeObject => exact Or.inl ⟨us, rfl, h⟩
    | comma => exact Or.inr ⟨us, rfl, h⟩
    | _ => simp [skipInside] at h

/-- What passing over has taken of a text with fewer than `n` tokens: a value, or the rest of a list
or an object. -/
structure Passed (n : ℕ) : Prop where
  value : ∀ {stack : List Bracket} {ts rest : List Token}, ts.length < n →
    skipInside .value stack ts = .ok rest →
      ∃ (t : Tree) (ts' : List Token), ts = t.tokens ++ ts' ∧ afterValue stack ts' = .ok rest
  items : ∀ {stack : List Bracket} {ts rest : List Token}, ts.length < n →
    skipInside .more (.list :: stack) ts = .ok rest →
      ∃ (items : List Tree) (ts' : List Token),
        ts = separated false (items.map Tree.tokens) ++ .closeList :: ts' ∧
          afterValue stack ts' = .ok rest
  members : ∀ {stack : List Bracket} {ts rest : List Token}, ts.length < n →
    skipInside .more (.object :: stack) ts = .ok rest →
      ∃ (ms : List (Option String × Tree)) (ts' : List Token),
        ts = separated false (ms.map Tree.memberTokens) ++ .closeObject :: ts' ∧
          afterValue stack ts' = .ok rest

/-- A value takes at least one token. -/
lemma length_lt_of_tokens_append (t : Tree) (ts : List Token) :
    ts.length < (t.tokens ++ ts).length := by
  have hpos := List.length_pos_iff.mpr t.tokens_ne_nil
  rw [List.length_append]
  omega

lemma passed (n : ℕ) : Passed n := by
  induction n with
  | zero =>
    exact ⟨fun h => absurd h (Nat.not_lt_zero _), fun h => absurd h (Nat.not_lt_zero _),
      fun h => absurd h (Nat.not_lt_zero _)⟩
  | succ n ih =>
    refine ⟨fun {stack ts rest} hlt h => ?_, fun {stack ts rest} hlt h => ?_,
      fun {stack ts rest} hlt h => ?_⟩
    · rcases of_skipInside_value h with hdone | ⟨ts, rfl, hinner⟩ | ⟨ts, rfl, hinner⟩
      · exact hdone
      · rw [List.length_cons] at hlt
        obtain ⟨t, us, rfl, hmore⟩ := ih.value (by omega) hinner
        have hshort := length_lt_of_tokens_append t us
        obtain ⟨items, ts', rfl, hafter⟩ := ih.items (by omega) hmore
        exact ⟨.list (t :: items), ts', by simp [Tree.tokens_list, separated], hafter⟩
      · obtain ⟨name, ts', rfl, hvalue⟩ := of_skipInside_name hinner
        simp only [List.length_cons] at hlt
        obtain ⟨t, us, rfl, hmore⟩ := ih.value (by omega) hvalue
        have hshort := length_lt_of_tokens_append t us
        obtain ⟨ms, ts', rfl, hafter⟩ := ih.members (by omega) hmore
        exact ⟨.object ((name, t) :: ms), ts',
          by simp [Tree.tokens_object, separated, Tree.memberTokens], hafter⟩
    · rcases of_skipInside_more_list h with ⟨ts', rfl, hafter⟩ | ⟨ts', rfl, hinner⟩
      · exact ⟨[], ts', rfl, hafter⟩
      · rw [List.length_cons] at hlt
        obtain ⟨t, us, rfl, hmore⟩ := ih.value (by omega) hinner
        have hshort := length_lt_of_tokens_append t us
        obtain ⟨items, ts', rfl, hafter⟩ := ih.items (by omega) hmore
        exact ⟨t :: items, ts', by simp [separated], hafter⟩
    · rcases of_skipInside_more_object h with ⟨ts', rfl, hafter⟩ | ⟨ts', rfl, hinner⟩
      · exact ⟨[], ts', rfl, hafter⟩
      · obtain ⟨name, ts', rfl, hvalue⟩ := of_skipInside_name hinner
        simp only [List.length_cons] at hlt
        obtain ⟨t, us, rfl, hmore⟩ := ih.value (by omega) hvalue
        have hshort := length_lt_of_tokens_append t us
        obtain ⟨ms, ts', rfl, hafter⟩ := ih.members (by omega) hmore
        exact ⟨(name, t) :: ms, ts', by simp [separated, Tree.memberTokens], hafter⟩

/-- What is passed over is a value, whatever its form. -/
theorem exists_tree_of_skip {ts rest : List Token} (h : skip ts = .ok rest) :
    ∃ t : Tree, ts = t.tokens ++ rest := by
  obtain ⟨t, ts', rfl, hafter⟩ := (passed (ts.length + 1)).value (Nat.lt_succ_self _) h
  obtain rfl : ts' = rest := Except.ok.inj hafter
  exact ⟨t, rfl⟩

end ShapeGrammar.Json
