import ShapeGrammar.Proofs.Json.Lexeme
import ShapeGrammar.Proofs.Json.Value

/-!
# What a JSON text says

A JSON text says a tree of values, `Json.Tree`: it spells the tokens of the tree, with commas
between items and a colon behind each name (`Json.Says`).  A text that says no tree is not well
formed.

A tree is determined by its tokens, even if something stands behind them
(`Json.Tree.tokens_append_inj`).  So a text says one tree at most, and it says a tree exactly if it
is read as the tokens of that tree (`Json.says_iff`).
-/

namespace ShapeGrammar.Json

/-- A value in a JSON text.  Names may come repeatedly; a name or a string is `none` if an escape in
it is half of a surrogate pair without the other half. -/
inductive Tree where
  | null
  | boolean (value : Bool)
  | number (value : Numeral)
  | text (value : Option String)
  | list (items : List Tree)
  | object (members : List (Option String × Tree))

namespace Tree

/-- What holds of the items and of the members of a value holds of the value, so it holds of all
values. -/
@[induction_eliminator]
theorem induct {P : Tree → Prop} (null : P .null) (boolean : ∀ b, P (.boolean b))
    (number : ∀ n, P (.number n)) (text : ∀ s, P (.text s))
    (list : ∀ items, (∀ t ∈ items, P t) → P (.list items))
    (object : ∀ members, (∀ m ∈ members, P m.2) → P (.object members)) (t : Tree) : P t :=
  @Tree.rec P (fun items => ∀ t ∈ items, P t) (fun members => ∀ m ∈ members, P m.2) (fun m => P m.2)
    null boolean number text list object
    (fun _ h => absurd h List.not_mem_nil)
    (fun _ _ hhead htail => List.forall_mem_cons.mpr ⟨hhead, htail⟩)
    (fun _ h => absurd h List.not_mem_nil)
    (fun _ _ hhead htail => List.forall_mem_cons.mpr ⟨hhead, htail⟩)
    (fun _ _ h => h) t

/-! ### Tokens -/

mutual

/-- The tokens of a value. -/
def tokens : Tree → List Token
  | .null => [.null]
  | .boolean b => [.boolean b]
  | .number n => [.number n]
  | .text s => [.text s]
  | .list items => .openList :: (separated true (tokensOfItems items) ++ [.closeList])
  | .object members => .openObject :: (separated true (tokensOfMembers members) ++ [.closeObject])

/-- The tokens of each item. -/
def tokensOfItems : List Tree → List (List Token)
  | [] => []
  | t :: ts => t.tokens :: tokensOfItems ts

/-- The tokens of each member. -/
def tokensOfMembers : List (Option String × Tree) → List (List Token)
  | [] => []
  | (name, t) :: ms => (.text name :: .colon :: t.tokens) :: tokensOfMembers ms

end

/-- The tokens of a member. -/
def memberTokens (m : Option String × Tree) : List Token := .text m.1 :: .colon :: m.2.tokens

lemma tokensOfItems_eq_map (items : List Tree) : tokensOfItems items = items.map tokens := by
  induction items with
  | nil => rfl
  | cons t ts ih => rw [tokensOfItems, ih, List.map_cons]

lemma tokensOfMembers_eq_map (ms : List (Option String × Tree)) :
    tokensOfMembers ms = ms.map memberTokens := by
  induction ms with
  | nil => rfl
  | cons m ms ih => exact congrArg (memberTokens m :: ·) ih

lemma tokens_list (items : List Tree) :
    (list items).tokens =
      .openList :: (separated true (items.map tokens) ++ [.closeList]) := by
  rw [tokens, tokensOfItems_eq_map]

lemma tokens_list_append (items : List Tree) (rest : List Token) :
    (list items).tokens ++ rest =
      .openList :: (separated true (items.map tokens) ++ .closeList :: rest) := by
  rw [tokens_list, List.cons_append, List.append_assoc, List.singleton_append]

lemma tokens_object (ms : List (Option String × Tree)) :
    (object ms).tokens =
      .openObject :: (separated true (ms.map memberTokens) ++ [.closeObject]) := by
  rw [tokens, tokensOfMembers_eq_map]

end Tree

/-- A value can start with the token. -/
def Token.isStart : Token → Bool
  | .openObject => true
  | .openList => true
  | .null => true
  | .boolean _ => true
  | .number _ => true
  | .text _ => true
  | _ => false

namespace Tree

lemma exists_tokens_eq_cons (t : Tree) : ∃ u us, t.tokens = u :: us ∧ u.isStart = true := by
  cases t <;> exact ⟨_, _, rfl, rfl⟩

/-! ### Trees with the same tokens -/

/-- Separated lists are the same if their items are determined by their tokens, and what follows
the closing bracket is the same as well. -/
lemma separated_append_inj {α : Type} {f : α → List Token} {close : Token}
    (hhead : ∀ a, ∃ u us, f a = u :: us ∧ u ≠ close) {as : List α}
    (hinj : ∀ a ∈ as, ∀ b rest rest', f a ++ rest = f b ++ rest' → a = b ∧ rest = rest')
    (hclose : close ≠ .comma) {first : Bool} {bs : List α} {rest rest' : List Token}
    (h : separated first (as.map f) ++ close :: rest =
      separated first (bs.map f) ++ close :: rest') : as = bs ∧ rest = rest' := by
  have hne : ∀ (first : Bool) (a : α) (as : List α) (rest rest' : List Token),
      separated first ((a :: as).map f) ++ rest ≠ close :: rest' := by
    intro first a as rest rest' heq
    obtain ⟨u, us, hu, hne⟩ := hhead a
    cases first with
    | false => exact hclose (List.cons.inj heq).1.symm
    | true =>
      rw [List.map_cons, separated, hu] at heq
      exact hne (List.cons.inj heq).1
  induction as generalizing first bs with
  | nil =>
    cases bs with
    | nil => exact ⟨rfl, (List.cons.inj h).2⟩
    | cons b bs => exact absurd h.symm (hne first b bs _ _)
  | cons a as ih =>
    cases bs with
    | nil => exact absurd h (hne first a as _ _)
    | cons b bs =>
      have hboth : f a ++ (separated false (as.map f) ++ close :: rest) =
          f b ++ (separated false (bs.map f) ++ close :: rest') := by
        cases first with
        | true => simpa [separated] using h
        | false => simpa [separated] using (List.cons.inj h).2
      obtain ⟨rfl, hrest⟩ := hinj a List.mem_cons_self b _ _ hboth
      obtain ⟨rfl, htail⟩ := ih (fun c hc => hinj c (List.mem_cons_of_mem a hc)) hrest
      exact ⟨rfl, htail⟩

/-- A tree is determined by its tokens, and so is what follows it. -/
theorem tokens_append_inj (t : Tree) :
    ∀ (t' : Tree) (rest rest' : List Token),
      t.tokens ++ rest = t'.tokens ++ rest' → t = t' ∧ rest = rest' := by
  induction t with
  | list items ih =>
    intro t' rest rest' h
    cases t' with
    | list items' =>
      rw [tokens_list, tokens_list] at h
      simp only [List.cons_append, List.append_assoc, List.nil_append, List.cons.injEq,
        true_and] at h
      obtain ⟨rfl, hrest⟩ := separated_append_inj (fun a => by
        obtain ⟨u, us, hu, hstart⟩ := a.exists_tokens_eq_cons
        exact ⟨u, us, hu, by rintro rfl; cases hstart⟩) ih (by decide) h
      exact ⟨rfl, hrest⟩
    | _ => cases (List.cons.inj h).1
  | object ms ih =>
    intro t' rest rest' h
    cases t' with
    | object ms' =>
      rw [tokens_object, tokens_object] at h
      simp only [List.cons_append, List.append_assoc, List.nil_append, List.cons.injEq,
        true_and] at h
      have hinj : ∀ m ∈ ms, ∀ m' rest rest', memberTokens m ++ rest = memberTokens m' ++ rest' →
          m = m' ∧ rest = rest' := by
        intro m hm m' rest rest' heq
        obtain ⟨hname, htail⟩ := List.cons.inj heq
        obtain ⟨hvalue, hrest⟩ := ih m hm m'.2 rest rest' (List.cons.inj htail).2
        exact ⟨Prod.ext (Token.text.inj hname) hvalue, hrest⟩
      obtain ⟨rfl, hrest⟩ := separated_append_inj (fun m => ⟨_, _, rfl, by rintro ⟨⟩⟩) hinj
        (by decide) h
      exact ⟨rfl, hrest⟩
    | _ => cases (List.cons.inj h).1
  | _ =>
    intro t' rest rest' h
    cases t' <;> cases h
    exact ⟨rfl, rfl⟩

lemma tokens_inj {t t' : Tree} (h : t.tokens = t'.tokens) : t = t' :=
  (t.tokens_append_inj t' [] [] (congrArg (· ++ []) h)).1

/-! ### The tokens of a tree -/

lemma mem_separated {u : Token} {first : Bool} {tss : List (List Token)}
    (h : u ∈ separated first tss) : u = .comma ∨ ∃ ts ∈ tss, u ∈ ts := by
  induction tss generalizing first with
  | nil => exact absurd h List.not_mem_nil
  | cons ts tss ih =>
    rw [separated, List.mem_append, List.mem_append] at h
    rcases h with (hcomma | hhead) | htail
    · cases first with
      | true => exact absurd hcomma List.not_mem_nil
      | false => exact Or.inl (List.mem_singleton.mp hcomma)
    · exact Or.inr ⟨ts, List.mem_cons_self, hhead⟩
    · rcases ih htail with hcomma | ⟨us, hus, hmem⟩
      · exact Or.inl hcomma
      · exact Or.inr ⟨us, List.mem_cons_of_mem ts hus, hmem⟩

/-- A tree has no broken token. -/
lemma isBroken_of_mem_tokens {t : Tree} : ∀ u ∈ t.tokens, u.isBroken = false := by
  induction t with
  | list items ih =>
    intro u hu
    rw [tokens_list, List.mem_cons, List.mem_append, List.mem_singleton] at hu
    rcases hu with rfl | hu | rfl
    · rfl
    · rcases mem_separated hu with rfl | ⟨ts, hts, hmem⟩
      · rfl
      · obtain ⟨t, ht, rfl⟩ := List.mem_map.mp hts
        exact ih t ht u hmem
    · rfl
  | object ms ih =>
    intro u hu
    rw [tokens_object, List.mem_cons, List.mem_append, List.mem_singleton] at hu
    rcases hu with rfl | hu | rfl
    · rfl
    · rcases mem_separated hu with rfl | ⟨ts, hts, hmem⟩
      · rfl
      · obtain ⟨m, hm, rfl⟩ := List.mem_map.mp hts
        rw [memberTokens, List.mem_cons, List.mem_cons] at hmem
        rcases hmem with rfl | rfl | hmem
        · rfl
        · rfl
        · exact ih m hm u hmem
    · rfl
  | _ =>
    intro u hu
    rw [List.mem_singleton.mp hu]
    rfl

/-- Tokens that do not start with a number and keep numbers apart. -/
structure Follows (ts : List Token) : Prop where
  apart : Apart ts
  head : ∀ u ∈ ts.head?, u.isNumber = false

lemma Follows.cons {u : Token} (hu : u.isNumber = false) {ts : List Token} (h : Apart ts) :
    Follows (u :: ts) where
  apart := List.isChain_cons.mpr ⟨fun _ _ => Or.inl hu, h⟩
  head := fun v hv => by rwa [← Option.some.inj hv]

/-- Separated items keep numbers apart if each of them does so with what follows. -/
lemma follows_separated {tss : List (List Token)}
    (h : ∀ ts ∈ tss, ∀ rest, Follows rest → Apart (ts ++ rest)) {rest : List Token}
    (hrest : Follows rest) (first : Bool) :
    Apart (separated first tss ++ rest) ∧ Follows (separated false tss ++ rest) := by
  induction tss generalizing first with
  | nil => exact ⟨hrest.apart, hrest⟩
  | cons ts tss ih =>
    have htail := (ih (fun us hus => h us (List.mem_cons_of_mem ts hus)) true).2
    have hhead := h ts List.mem_cons_self _ htail
    have hmore : Follows (separated false (ts :: tss) ++ rest) := by
      have hcomma := Follows.cons (u := .comma) rfl hhead
      simpa [separated] using hcomma
    refine ⟨?_, hmore⟩
    cases first with
    | true => simpa [separated] using hhead
    | false => exact hmore.apart

/-- A tree keeps numbers apart. -/
lemma apart_tokens_append (t : Tree) : ∀ rest, Follows rest → Apart (t.tokens ++ rest) := by
  induction t with
  | number n =>
    intro rest hrest
    exact List.isChain_cons.mpr ⟨fun u hu => Or.inr (hrest.head u hu), hrest.apart⟩
  | list items ih =>
    intro rest hrest
    have hitems : ∀ ts ∈ items.map tokens, ∀ rest, Follows rest → Apart (ts ++ rest) := by
      intro ts hts
      obtain ⟨t, ht, rfl⟩ := List.mem_map.mp hts
      exact ih t ht
    have hclose := Follows.cons (u := .closeList) rfl hrest.apart
    have hall := Follows.cons (u := .openList) rfl (follows_separated hitems hclose true).1
    simpa [tokens_list] using hall.apart
  | object ms ih =>
    intro rest hrest
    have hmembers : ∀ ts ∈ ms.map memberTokens, ∀ rest, Follows rest → Apart (ts ++ rest) := by
      intro ts hts rest hrest
      obtain ⟨m, hm, rfl⟩ := List.mem_map.mp hts
      have hcolon := Follows.cons (u := .colon) rfl (ih m hm rest hrest)
      exact (Follows.cons (u := .text m.1) rfl hcolon.apart).apart
    have hclose := Follows.cons (u := .closeObject) rfl hrest.apart
    have hall := Follows.cons (u := .openObject) rfl (follows_separated hmembers hclose true).1
    simpa [tokens_object] using hall.apart
  | _ =>
    intro rest hrest
    exact (Follows.cons rfl hrest.apart).apart

end Tree

/-! ### Texts -/

/-- The text says the tree: it spells the tokens of the tree. -/
def Says (cs : List Char) (t : Tree) : Prop := Spells t.tokens cs

/-- A text says a tree exactly if it is read as the tokens of the tree. -/
theorem says_iff {cs : List Char} {t : Tree} : Says cs t ↔ tokens cs = t.tokens := by
  constructor
  · intro h
    have hapart := t.apart_tokens_append [] ⟨List.isChain_nil, fun u hu => by cases hu⟩
    rw [List.append_nil] at hapart
    exact h.tokens_eq hapart
  · intro h
    unfold Says
    rw [← h]
    exact spells_tokens cs (h ▸ Tree.isBroken_of_mem_tokens)

/-- A text says one tree at most. -/
lemma Says.unique {cs : List Char} {t t' : Tree} (h : Says cs t) (h' : Says cs t') : t = t' :=
  Tree.tokens_inj ((says_iff.mp h).symm.trans (says_iff.mp h'))

end ShapeGrammar.Json
