import Mathlib.Logic.Equiv.Defs
import ShapeGrammar.Proofs.Json.Reading

/-!
# What readers make of a record

A record is written as an object or as a list, and the members of an object come in any order.  What
a record says depends on the values under each of its names only: a name that is missing, a name
that comes once, and a name that comes repeatedly (`Json.Tree.member?`).

A reader of records goes through the members one by one and fills the places of a record, its
`Json.Slot`s.  What it has collected in the end is in every place what the members say of its name,
or what was there at the start (`Json.Collected.filled`); and it comes to an end whenever every name
is missing or comes once with a value of the right kind (`Json.exists_collected`).
-/

namespace ShapeGrammar.Json

/-! ### Members by name -/

/-- The values under a name, in order. -/
def valuesOf (name : String) (ms : List (String × Tree)) : List Tree :=
  (ms.filter fun m => m.1 = name).map Prod.snd

lemma valuesOf_cons_self (name : String) (t : Tree) (ms : List (String × Tree)) :
    valuesOf name ((name, t) :: ms) = t :: valuesOf name ms := by
  rw [valuesOf, List.filter_cons, if_pos (decide_eq_true rfl)]
  rfl

lemma valuesOf_cons_of_ne {name other : String} (h : other ≠ name) (t : Tree)
    (ms : List (String × Tree)) : valuesOf name ((other, t) :: ms) = valuesOf name ms := by
  rw [valuesOf, List.filter_cons, if_neg (by simpa using h)]
  rfl

namespace Tree

/-- What the members say under a name that may come once; `missing` if it does not come. -/
def member? {α : Type} (ms : List (String × Tree)) (name : String) (meaning : Tree → Option α)
    (missing : Option α) : Option α :=
  match valuesOf name ms with
  | [] => missing
  | [t] => meaning t
  | _ => none

/-- A name that does not come says what it was taken for. -/
lemma member?_of_missing {α : Type} {name : String} {ms : List (String × Tree)}
    (h : ∀ t, (name, t) ∉ ms) (meaning : Tree → Option α) (missing : Option α) :
    member? ms name meaning missing = missing := by
  have hnone : valuesOf name ms = [] := by
    rw [valuesOf, List.map_eq_nil_iff, List.filter_eq_nil_iff]
    rintro ⟨name', t⟩ hmem hname
    obtain rfl : name' = name := of_decide_eq_true hname
    exact h t hmem
  rw [member?, hnone]

/-- A name that comes with a value says what the value means, if it says anything. -/
lemma member?_of_mem {α : Type} {name : String} {t : Tree} {ms : List (String × Tree)}
    (h : (name, t) ∈ ms) {meaning : Tree → Option α} {missing : Option α} {a : α}
    (ha : member? ms name meaning missing = some a) : meaning t = some a := by
  have hmem : t ∈ valuesOf name ms :=
    List.mem_map_of_mem (List.mem_filter.mpr ⟨h, decide_eq_true rfl⟩)
  unfold member? at ha
  split at ha
  · next hnone => exact absurd (hnone ▸ hmem) List.not_mem_nil
  · next t' hone =>
    obtain rfl := List.mem_singleton.mp (hone ▸ hmem)
    exact ha
  · cases ha

/-- In which order the values come does not matter, as only one of them can be said. -/
lemma member?_congr {α : Type} {name : String} {ms ms' : List (String × Tree)}
    (h : (valuesOf name ms).Perm (valuesOf name ms')) (meaning : Tree → Option α)
    (missing : Option α) : member? ms name meaning missing = member? ms' name meaning missing := by
  unfold member?
  generalize valuesOf name ms = values, valuesOf name ms' = values' at h
  match values with
  | [] => rw [h.nil_eq]
  | [t] => rw [h.singleton_eq]
  | t :: u :: rest =>
    have hlength := h.length_eq
    match values' with
    | [] => cases hlength
    | [_] => cases hlength
    | _ :: _ :: _ => rfl

/-- A member whose name is a string. -/
def withName? (m : Option String × Tree) : Option (String × Tree) := m.1.map (·, m.2)

/-- The form in which a record is written, and its members.  In an object, every name must be a
string; a list has the members in the order of the names and may end early. -/
def record? (names : List String) : Tree → Option (RecordForm × List (String × Tree))
  | .object ms => (ms.mapM withName?).map (.named, ·)
  | .list items => if items.length ≤ names.length then some (.listed, names.zip items) else none
  | _ => none

/-- The member under a name that is a string. -/
def named (m : String × Tree) : Option String × Tree := (some m.1, m.2)

/-- All names are strings exactly if the members are named by strings. -/
lemma mapM_withName?_eq_some_iff {ms : List (Option String × Tree)} {ms' : List (String × Tree)} :
    ms.mapM withName? = some ms' ↔ ms = ms'.map named := by
  induction ms generalizing ms' with
  | nil =>
    constructor
    · rintro ⟨⟩
      rfl
    · intro h
      rw [List.map_eq_nil_iff.mp h.symm]
      rfl
  | cons m ms ih =>
    rw [List.mapM_cons]
    constructor
    · intro h
      obtain ⟨first, hfirst, h⟩ := Option.bind_eq_some_iff.mp h
      obtain ⟨rest, hrest, h⟩ := Option.bind_eq_some_iff.mp h
      obtain ⟨name, hname, rfl⟩ := Option.map_eq_some_iff.mp hfirst
      cases h
      rw [ih.mp hrest, List.map_cons, named, ← hname]
    · intro h
      cases ms' with
      | nil => cases h
      | cons first rest =>
        obtain ⟨rfl, htail⟩ := List.cons.inj h
        exact Option.bind_eq_some_iff.mpr
          ⟨first, rfl, Option.bind_eq_some_iff.mpr ⟨rest, ih.mpr htail, rfl⟩⟩

lemma record?_object (names : List String) (ms : List (String × Tree)) :
    (object (ms.map named)).record? names = some (.named, ms) := by
  rw [record?, mapM_withName?_eq_some_iff.mpr rfl]
  rfl

lemma record?_list {names : List String} {items : List Tree} (h : items.length ≤ names.length) :
    (list items).record? names = some (.listed, names.zip items) :=
  if_pos h

/-- What is written in the two forms. -/
lemma cases_of_record? {t : Tree} {names : List String} {form : RecordForm}
    {ms : List (String × Tree)} (h : t.record? names = some (form, ms)) :
    (form = .named ∧ t = .object (ms.map named)) ∨
      form = .listed ∧ ∃ items, t = .list items ∧ items.length ≤ names.length ∧
        ms = names.zip items := by
  cases t with
  | object members =>
    obtain ⟨ms', hms, heq⟩ := Option.map_eq_some_iff.mp h
    obtain ⟨rfl, rfl⟩ := Prod.mk.inj heq
    exact Or.inl ⟨rfl, congrArg object (mapM_withName?_eq_some_iff.mp hms)⟩
  | list items =>
    by_cases hlength : items.length ≤ names.length
    · rw [record?_list hlength] at h
      obtain ⟨rfl, rfl⟩ := Prod.mk.inj (Option.some.inj h)
      exact Or.inr ⟨rfl, items, rfl, hlength, rfl⟩
    · rw [record?, if_neg hlength] at h
      cases h
  | _ => cases h

/-- A record of two members as it is written. -/
lemma record?_pair (name name' : String) (t t' : Tree) (names : List String) :
    (object [(some name, t), (some name', t')]).record? names =
      some (.named, [(name, t), (name', t')]) :=
  record?_object names [(name, t), (name', t')]

/-- What two members say under their names. -/
lemma member?_pair {α β : Type} {name name' : String} (hne : name ≠ name') (t t' : Tree)
    (meaning : Tree → Option α) (meaning' : Tree → Option β) (missing : Option α)
    (missing' : Option β) :
    member? [(name, t), (name', t')] name meaning missing = meaning t ∧
      member? [(name, t), (name', t')] name' meaning' missing' = meaning' t' := by
  have hfirst : valuesOf name [(name, t), (name', t')] = [t] := by
    rw [valuesOf_cons_self, valuesOf_cons_of_ne hne.symm]
    rfl
  have hsecond : valuesOf name' [(name, t), (name', t')] = [t'] := by
    rw [valuesOf_cons_of_ne hne, valuesOf_cons_self]
    rfl
  unfold member?
  rw [hfirst, hsecond]
  exact ⟨rfl, rfl⟩

/-- What a record of two members says, in terms of what its members say. -/
lemma pair_eq_some_iff {α β γ : Type} (name name' : String) (hne : name ≠ name')
    {t t' : Tree} {meaning : Tree → Option α} {meaning' : Tree → Option β}
    (missing : RecordForm → Option α) (missing' : RecordForm → Option β) {make : α → β → γ}
    (hmake : ∀ {x x' y y'}, make x y = make x' y' → x = x' ∧ y = y') {x : α} {y : β} :
    (((object [(some name, t), (some name', t')]).record? [name, name']).bind fun record =>
        (member? record.2 name meaning (missing record.1)).bind fun x =>
          (member? record.2 name' meaning' (missing' record.1)).map (make x)) =
      some (make x y) ↔ meaning t = some x ∧ meaning' t' = some y := by
  obtain ⟨hfirst, hsecond⟩ := member?_pair hne t t' meaning meaning'
    (missing .named) (missing' .named)
  rw [record?_pair, Option.bind_some, hfirst, hsecond]
  constructor
  · intro h
    obtain ⟨x', hx, h⟩ := Option.bind_eq_some_iff.mp h
    obtain ⟨y', hy, h⟩ := Option.map_eq_some_iff.mp h
    obtain ⟨rfl, rfl⟩ := hmake h
    exact ⟨hx, hy⟩
  · rintro ⟨hx, hy⟩
    rw [hx, hy]
    rfl

/-- A list is read back exactly if its items are. -/
lemma mapM_map_eq_some_iff {α : Type} {write : α → Tree} {meaning : Tree → Option α}
    {as : List α} :
    (as.map write).mapM meaning = some as ↔ ∀ a ∈ as, meaning (write a) = some a := by
  induction as with
  | nil => simp
  | cons a as ih =>
    rw [List.map_cons, List.mapM_cons, List.forall_mem_cons, ← ih]
    constructor
    · intro h
      obtain ⟨b, hb, h⟩ := Option.bind_eq_some_iff.mp h
      obtain ⟨bs, hbs, h⟩ := Option.bind_eq_some_iff.mp h
      obtain ⟨rfl, rfl⟩ := List.cons.inj (Option.some.inj h)
      exact ⟨hb, hbs⟩
    · rintro ⟨ha, has⟩
      rw [ha, has]
      rfl

end Tree

/-! ### Filling the places of a record -/

/-- A place of a record, for the member with this name. -/
structure Slot (σ : Type) where
  {α : Type}
  name : String
  item : Reader α
  meaning : Tree → Option α
  /-- The member has come. -/
  taken : σ → Bool
  put : σ → α → σ
  /-- What the record has in the place. -/
  get : σ → Option α

section Slots

variable {σ : Type}

/-- The places do not get in each other's way, and their values are read as they are meant. -/
structure Slots (slots : List (Slot σ)) : Prop where
  nodup : (slots.map Slot.name).Nodup
  reads : ∀ s ∈ slots, Reads s.item s.meaning
  taken_put : ∀ s ∈ slots, ∀ r a, s.taken (s.put r a) = true
  get_put : ∀ s ∈ slots, ∀ r a, s.get (s.put r a) = some a
  frame : ∀ s ∈ slots, ∀ s' ∈ slots, s'.name ≠ s.name → ∀ r a,
    s'.taken (s.put r a) = s'.taken r ∧ s'.get (s.put r a) = s'.get r

/-- What a record becomes with the members, if each is unknown or goes to an empty place. -/
inductive Collected (slots : List (Slot σ)) : σ → List (String × Tree) → σ → Prop
  | nil (r : σ) : Collected slots r [] r
  | unknown {r r' : σ} {name : String} {t : Tree} {ms : List (String × Tree)}
    (hname : ∀ s ∈ slots, s.name ≠ name) (hrest : Collected slots r ms r') :
    Collected slots r ((name, t) :: ms) r'
  | known {r r' : σ} {s : Slot σ} {t : Tree} {a : s.α} {ms : List (String × Tree)}
    (hs : s ∈ slots) (htaken : s.taken r = false) (ha : s.meaning t = some a)
    (hrest : Collected slots (s.put r a) ms r') : Collected slots r ((s.name, t) :: ms) r'

variable {slots : List (Slot σ)} {r r' : σ} {ms : List (String × Tree)}

/-- The name does not come, or it comes once with a value that has a meaning. -/
def Slot.Accepts (s : Slot σ) (ms : List (String × Tree)) : Prop :=
  valuesOf s.name ms = [] ∨ ∃ t a, valuesOf s.name ms = [t] ∧ s.meaning t = some a

/-- The place has what the members say of its name, or what it had. -/
def Slot.Filled (s : Slot σ) (r : σ) (ms : List (String × Tree)) (r' : σ) : Prop :=
  (valuesOf s.name ms = [] ∧ s.get r' = s.get r) ∨
    ∃ t a, valuesOf s.name ms = [t] ∧ s.meaning t = some a ∧ s.get r' = some a

/-- What the members say of a name, if it was taken for missing what the place had. -/
lemma Slot.Filled.member?_eq {s : Slot σ} (h : s.Filled r ms r') :
    Tree.member? ms s.name s.meaning (s.get r) = s.get r' := by
  unfold Tree.member?
  rcases h with ⟨hnone, hget⟩ | ⟨t, a, hone, ha, hget⟩
  · rw [hnone, hget]
  · rw [hone, hget]
    exact ha

/-- A name has a meaning only if it is accepted. -/
lemma Slot.accepts_of_member? {s : Slot σ} {missing : Option s.α} {a : s.α}
    (h : Tree.member? ms s.name s.meaning missing = some a) : s.Accepts ms := by
  unfold Tree.member? at h
  split at h
  · next hnone => exact Or.inl hnone
  · next t hone => exact Or.inr ⟨t, a, hone, h⟩
  · cases h

/-- A taken place takes no more members, and every place is filled in the end. -/
lemma Collected.filled_or_taken (hslots : Slots slots) (h : Collected slots r ms r')
    {s : Slot σ} (hs : s ∈ slots) :
    s.Filled r ms r' ∧ (s.taken r = true → valuesOf s.name ms = []) := by
  induction h with
  | nil r => exact ⟨Or.inl ⟨rfl, rfl⟩, fun _ => rfl⟩
  | @unknown r r' name t ms hname _ ih =>
    have hvalues := valuesOf_cons_of_ne (hname s hs).symm t ms
    unfold Slot.Filled at ih ⊢
    rwa [hvalues]
  | @known r r' s' t a ms hs' htaken ha _ ih =>
    by_cases hname : s'.name = s.name
    · obtain rfl : s' = s := List.inj_on_of_nodup_map hslots.nodup hs' hs hname
      obtain ⟨hfilled, hnone⟩ := ih
      have hrest := hnone (hslots.taken_put s' hs r a)
      have hget : s'.get r' = some a := by
        rcases hfilled with ⟨-, hget⟩ | ⟨t', a', hone, -⟩
        · rw [hget, hslots.get_put s' hs]
        · rw [hrest] at hone
          cases hone
      refine ⟨Or.inr ⟨t, a, ?_, ha, hget⟩, fun htrue => ?_⟩
      · rw [valuesOf_cons_self, hrest]
      · rw [htaken] at htrue
        cases htrue
    · have hvalues := valuesOf_cons_of_ne hname t ms
      obtain ⟨hkeeps, hget⟩ := hslots.frame s' hs' s hs (Ne.symm hname) r a
      unfold Slot.Filled at ih ⊢
      rwa [hvalues, ← hkeeps, ← hget]

/-- Every place is filled with what the members say of its name. -/
lemma Collected.filled (hslots : Slots slots) (h : Collected slots r ms r') {s : Slot σ}
    (hs : s ∈ slots) : s.Filled r ms r' :=
  (h.filled_or_taken hslots hs).1

/-- Members are collected whenever every name is accepted and its place is free. -/
lemma exists_collected (hslots : Slots slots) (r : σ) (ms : List (String × Tree))
    (h : ∀ s ∈ slots, s.Accepts ms ∧ (s.taken r = true → valuesOf s.name ms = [])) :
    ∃ r', Collected slots r ms r' := by
  induction ms generalizing r with
  | nil => exact ⟨r, .nil r⟩
  | cons m ms ih =>
    obtain ⟨name, t⟩ := m
    by_cases hname : ∃ s ∈ slots, s.name = name
    · obtain ⟨s, hs, rfl⟩ := hname
      obtain ⟨haccepts, hfree⟩ := h s hs
      rw [Slot.Accepts, valuesOf_cons_self] at haccepts
      obtain ⟨t', a, hone, ha⟩ := haccepts.resolve_left (List.cons_ne_nil _ _)
      obtain ⟨rfl, hrest⟩ := List.cons.inj hone
      have htaken : s.taken r = false := by
        rw [Bool.eq_false_iff]
        intro htrue
        have hnone := hfree htrue
        rw [valuesOf_cons_self] at hnone
        cases hnone
      obtain ⟨r', hr'⟩ := ih (s.put r a) fun s' hs' => by
        by_cases hsame : s'.name = s.name
        · rw [Slot.Accepts, hsame]
          exact ⟨Or.inl hrest, fun _ => hrest⟩
        · obtain ⟨hkeeps, -⟩ := hslots.frame s hs s' hs' hsame r a
          have hother := h s' hs'
          rwa [Slot.Accepts, valuesOf_cons_of_ne (Ne.symm hsame), ← hkeeps] at hother
      exact ⟨r', .known hs htaken ha hr'⟩
    · have hunknown : ∀ s ∈ slots, s.name ≠ name := fun s hs heq => hname ⟨s, hs, heq⟩
      obtain ⟨r', hr'⟩ := ih r fun s hs => by
        have hother := h s hs
        rwa [Slot.Accepts, valuesOf_cons_of_ne (hunknown s hs).symm] at hother
      exact ⟨r', .unknown hunknown hr'⟩

/-! ### Reading the members -/

/-- What a member means that goes to the place. -/
def Slot.member (s : Slot σ) (r : σ) : Member σ :=
  if s.taken r then .repeated
  else .known fun ts => do
    let (a, ts) ← s.item ts
    return (s.put r a, ts)

/-- The members of the record are those that go to one of the places. -/
structure Describes (slots : List (Slot σ)) (member : σ → String → Member σ) : Prop where
  known : ∀ s ∈ slots, ∀ r, member r s.name = s.member r
  unknown : ∀ name, (∀ s ∈ slots, s.name ≠ name) → ∀ r, member r name = .unknown

/-- The tokens of a member under a name that is a string. -/
def Tree.namedTokens (m : String × Tree) : List Token := memberTokens (named m)

lemma Tree.tokens_named_append (ms : List (String × Tree)) (rest : List Token) :
    (object (ms.map named)).tokens ++ rest =
      .openObject :: (separated true (ms.map namedTokens) ++ .closeObject :: rest) := by
  have hmap : (ms.map named).map memberTokens = ms.map namedTokens := List.map_map
  rw [tokens_object, hmap, List.cons_append, List.append_assoc, List.singleton_append]

/-- Going to a member. -/
lemma nextMember_named (first : Bool) (name : String) (t : Tree) (ms : List (String × Tree))
    (rest : List Token) :
    nextMember first (separated first (((name, t) :: ms).map Tree.namedTokens) ++ rest) =
      .ok (some name,
        .colon :: (t.tokens ++ (separated false (ms.map Tree.namedTokens) ++ rest))) := by
  cases first <;>
    simp [separated, Tree.namedTokens, Tree.memberTokens, Tree.named, nextMember, memberName]

lemma of_memberName {ts rest : List Token} {name : Option String}
    (h : memberName ts = .ok (name, rest)) :
    ∃ s, name = some s ∧ ts = .text (some s) :: rest := by
  unfold memberName at h
  split at h
  · cases h
  · cases h
    exact ⟨_, rfl, rfl⟩
  · cases h
  · cases h
  · cases h

/-- The end of an object was reached, or a comma was passed, unless the member is the first, and
then its name. -/
lemma of_nextMember {first : Bool} {ts rest : List Token} {name : Option String}
    (h : nextMember first ts = .ok (name, rest)) :
    (name = none ∧ (∃ ts', ts = .closeObject :: ts') ∧ rest = ts) ∨
      ∃ s, name = some s ∧ ts = (if first then [] else [.comma]) ++ .text (some s) :: rest := by
  unfold nextMember at h
  split at h
  · cases h
  · cases h
    exact Or.inl ⟨rfl, ⟨_, rfl⟩, rfl⟩
  · split at h
    · next hfirst =>
      obtain ⟨s, rfl, hts⟩ := of_memberName h
      exact Or.inr ⟨s, rfl, by rw [if_pos hfirst, hts]; rfl⟩
    · next hfirst =>
      split at h
      · next hcomma =>
        obtain ⟨s, rfl, hts⟩ := of_memberName h
        exact Or.inr ⟨s, rfl, by rw [if_neg hfirst, hcomma, hts]; rfl⟩
      · cases h

variable {member : σ → String → Member σ}

/-- Members that can be collected are read up to the end of the object. -/
lemma Collected.readMembers_eq (hslots : Slots slots) (hmember : Describes slots member)
    (h : Collected slots r ms r') {fuel : ℕ} (hfuel : ms.length < fuel) (first : Bool)
    (rest : List Token) :
    readMembers member fuel first r
        (separated first (ms.map Tree.namedTokens) ++ .closeObject :: rest) =
      .ok (r', .closeObject :: rest) := by
  induction h generalizing fuel first with
  | nil r =>
    obtain ⟨fuel, rfl⟩ := Nat.exists_eq_succ_of_ne_zero (Nat.ne_of_gt hfuel)
    rfl
  | @unknown r r' name t ms hname _ ih =>
    obtain ⟨fuel, rfl⟩ := Nat.exists_eq_succ_of_ne_zero (Nat.ne_of_gt (Nat.zero_lt_of_lt hfuel))
    unfold readMembers
    rw [nextMember_named]
    dsimp only [bind, Except.bind]
    rw [hmember.unknown name hname r]
    dsimp only [takeColon]
    rw [skip_tokens]
    exact ih (Nat.lt_of_succ_lt_succ hfuel) false
  | @known r r' s t a ms hs htaken ha _ ih =>
    obtain ⟨fuel, rfl⟩ := Nat.exists_eq_succ_of_ne_zero (Nat.ne_of_gt (Nat.zero_lt_of_lt hfuel))
    unfold readMembers
    rw [nextMember_named]
    dsimp only [bind, Except.bind]
    rw [hmember.known s hs r, Slot.member, if_neg (ne_true_of_eq_false htaken)]
    dsimp only [takeColon, bind, Except.bind]
    rw [(hslots.reads s hs).reads ha]
    exact ih (Nat.lt_of_succ_lt_succ hfuel) false

/-- What a member does to the record, if it does not come repeatedly. -/
lemma cases_of_member (hmember : Describes slots member) (r : σ) (name : String) :
    member r name = .repeated ∨
      (member r name = .unknown ∧ ∀ s ∈ slots, s.name ≠ name) ∨
      ∃ s ∈ slots, s.name = name ∧ s.taken r = false ∧ member r name = .known fun ts => do
        let (a, ts) ← s.item ts
        return (s.put r a, ts) := by
  by_cases hname : ∃ s ∈ slots, s.name = name
  · obtain ⟨s, hs, rfl⟩ := hname
    have heq := hmember.known s hs r
    unfold Slot.member at heq
    cases htaken : s.taken r with
    | true =>
      rw [htaken, if_pos rfl] at heq
      exact Or.inl heq
    | false =>
      rw [htaken, if_neg Bool.false_ne_true] at heq
      exact Or.inr (Or.inr ⟨s, hs, rfl, htaken, heq⟩)
  · have hunknown : ∀ s ∈ slots, s.name ≠ name := fun s hs heq => hname ⟨s, hs, heq⟩
    exact Or.inr (Or.inl ⟨hmember.unknown name hunknown r, hunknown⟩)

lemma of_takeColon {ts rest : List Token} (h : takeColon ts = .ok rest) : ts = .colon :: rest := by
  unfold takeColon at h
  split at h
  · cases h
  · cases h
    rfl
  · cases h

lemma of_takeCloseList {ts rest : List Token} (h : takeCloseList ts = .ok rest) :
    ts = .closeList :: rest := by
  unfold takeCloseList at h
  split at h
  · cases h
  · cases h
    rfl
  · cases h

/-- What was read into a place. -/
lemma of_slot_item (hslots : Slots slots) {s : Slot σ} (hs : s ∈ slots) {ts rest : List Token}
    (h : (do
      let (a, ts) ← s.item ts
      return (s.put r a, ts)) = Except.ok (ε := TextFault) (r', rest)) :
    ∃ (t : Tree) (a : s.α), ts = t.tokens ++ rest ∧ s.meaning t = some a ∧ r' = s.put r a := by
  obtain ⟨⟨a, ts'⟩, ha, hput⟩ := exists_of_bind_eq_ok h
  clear h
  cases hput
  obtain ⟨t, hts, ht⟩ := (hslots.reads s hs).exists_tree ha
  exact ⟨t, a, hts, ht, rfl⟩

/-- What was read as the members of an object has been collected. -/
lemma exists_collected_of_readMembers (hslots : Slots slots) (hmember : Describes slots member)
    {fuel : ℕ} {first : Bool} {ts rest : List Token}
    (h : readMembers member fuel first r ts = .ok (r', rest)) :
    ∃ (ms : List (String × Tree)) (rest' : List Token), rest = .closeObject :: rest' ∧
      ts = separated first (ms.map Tree.namedTokens) ++ rest ∧ Collected slots r ms r' := by
  induction fuel generalizing first r ts with
  | zero => cases h
  | succ fuel ih =>
    unfold readMembers at h
    obtain ⟨⟨name, ts'⟩, hnext, hmore⟩ := exists_of_bind_eq_ok h
    clear h
    rcases of_nextMember hnext with ⟨rfl, ⟨rest', rfl⟩, rfl⟩ | ⟨name, rfl, rfl⟩
    · cases hmore
      exact ⟨[], rest', rfl, rfl, .nil _⟩
    · have hsplit : ∀ (t : Tree) (ms : List (String × Tree)),
          (if first then [] else [Token.comma]) ++ .text (some name) :: .colon ::
              (t.tokens ++ (separated false (ms.map Tree.namedTokens) ++ rest)) =
            separated first (((name, t) :: ms).map Tree.namedTokens) ++ rest := by
        intro t ms
        simp [separated, Tree.namedTokens, Tree.memberTokens, Tree.named]
      dsimp only at hmore
      rcases cases_of_member hmember r name with
        heq | ⟨heq, hunknown⟩ | ⟨s, hs, rfl, htaken, heq⟩
      · rw [heq] at hmore
        cases hmore
      · rw [heq] at hmore
        obtain ⟨us, hcolon, hvalue⟩ := exists_of_bind_eq_ok hmore
        obtain ⟨vs, hskip, hmembers⟩ := exists_of_bind_eq_ok hvalue
        obtain rfl := of_takeColon hcolon
        obtain ⟨t, rfl⟩ := exists_tree_of_skip hskip
        obtain ⟨ms, rest', hrest, rfl, hcollected⟩ := ih hmembers
        exact ⟨(name, t) :: ms, rest', hrest, hsplit t ms, .unknown hunknown hcollected⟩
      · rw [heq] at hmore
        obtain ⟨us, hcolon, hvalue⟩ := exists_of_bind_eq_ok hmore
        obtain ⟨⟨r'', vs⟩, hitem, hmembers⟩ := exists_of_bind_eq_ok hvalue
        obtain rfl := of_takeColon hcolon
        obtain ⟨t, a, rfl, ht, rfl⟩ := of_slot_item hslots hs hitem
        obtain ⟨ms, rest', hrest, rfl, hcollected⟩ := ih hmembers
        exact ⟨(s.name, t) :: ms, rest', hrest, hsplit t ms, .known hs htaken ht hcollected⟩

/-- Items that can be collected under the names in order are read up to the end of the list. -/
lemma Collected.readInOrder_eq (hslots : Slots slots) (hmember : Describes slots member)
    {names : List String} {items : List Tree} (hnames : ∀ name ∈ names, ∃ s ∈ slots, s.name = name)
    (hlength : items.length ≤ names.length) (h : Collected slots r (names.zip items) r')
    (first : Bool) (rest : List Token) :
    readInOrder member names first r
        (separated first (items.map Tree.tokens) ++ .closeList :: rest) =
      .ok (r', .closeList :: rest) := by
  induction names generalizing items r first with
  | nil =>
    obtain rfl : items = [] := List.eq_nil_of_length_eq_zero (Nat.le_zero.mp hlength)
    cases h
    rfl
  | cons name names ih =>
    cases items with
    | nil =>
      cases h
      rfl
    | cons t items =>
      rw [List.zip_cons_cons] at h
      cases h with
      | unknown hunknown =>
        obtain ⟨s, hs, heq⟩ := hnames name List.mem_cons_self
        exact absurd heq (hunknown s hs)
      | @known _ _ s _ a _ hs htaken ha hrest =>
        unfold readInOrder
        dsimp only
        rw [nextElement_item]
        dsimp only [bind, Except.bind]
        rw [hmember.known s hs r, Slot.member, if_neg (ne_true_of_eq_false htaken)]
        dsimp only [bind, Except.bind]
        rw [(hslots.reads s hs).reads ha]
        exact ih (fun n hn => hnames n (List.mem_cons_of_mem _ hn))
          (Nat.le_of_succ_le_succ hlength) hrest false

/-- What was read as the items of a list has been collected under the names in order. -/
lemma exists_collected_of_readInOrder (hslots : Slots slots) (hmember : Describes slots member)
    {names : List String} {first : Bool} {ts rest : List Token}
    (h : readInOrder member names first r ts = .ok (r', .closeList :: rest)) :
    ∃ items : List Tree, items.length ≤ names.length ∧
      ts = separated first (items.map Tree.tokens) ++ .closeList :: rest ∧
        Collected slots r (names.zip items) r' := by
  induction names generalizing first r ts with
  | nil =>
    cases h
    exact ⟨[], Nat.le_refl _, rfl, .nil _⟩
  | cons name names ih =>
    unfold readInOrder at h
    obtain ⟨⟨more, ts'⟩, hnext, hmore⟩ := exists_of_bind_eq_ok h
    clear h
    rcases of_nextElement hnext with ⟨rfl, ⟨rest', rfl⟩, rfl⟩ | ⟨rfl, rfl⟩
    · cases hmore
      exact ⟨[], Nat.zero_le _, rfl, .nil _⟩
    · dsimp only at hmore
      rcases cases_of_member hmember r name with
        heq | ⟨heq, -⟩ | ⟨s, hs, rfl, htaken, heq⟩
      · rw [heq] at hmore
        cases hmore
      · rw [heq] at hmore
        cases hmore
      · rw [heq] at hmore
        obtain ⟨⟨r'', vs⟩, hitem, hitems⟩ := exists_of_bind_eq_ok hmore
        obtain ⟨t, a, rfl, ht, rfl⟩ := of_slot_item hslots hs hitem
        obtain ⟨items, hlength, rfl, hcollected⟩ := ih hitems
        exact ⟨t :: items, Nat.succ_le_succ hlength, by simp [separated],
          .known hs htaken ht hcollected⟩

/-- A reader of records gives what the members say that it collects from either form. -/
theorem reads_record {α : Type} {start : σ} {names : List String}
    {finish : RecordForm → σ → Except TextFault α} {meaning : Tree → Option α}
    (hslots : Slots slots) (hmember : Describes slots member)
    (hnames : names = slots.map Slot.name)
    (hmeaning : ∀ t a, meaning t = some a ↔ ∃ form ms r,
      t.record? names = some (form, ms) ∧ Collected slots start ms r ∧ finish form r = .ok a) :
    Reads (readRecord start names member finish) meaning where
  reads := by
    intro t a h rest
    obtain ⟨form, ms, r, hrecord, hcollected, hfinish⟩ := (hmeaning t a).mp h
    rcases Tree.cases_of_record? hrecord with ⟨rfl, rfl⟩ | ⟨rfl, items, rfl, hlength, rfl⟩
    · have hfuel : ms.length <
          (separated true (ms.map Tree.namedTokens) ++ .closeObject :: rest).length + 1 := by
        have hlength := length_le_length_separated (f := Tree.namedTokens)
          (fun m => List.cons_ne_nil _ _) true ms
        rw [List.length_append]
        omega
      rw [Tree.tokens_named_append, readRecord, hcollected.readMembers_eq hslots hmember hfuel]
      dsimp only [bind, Except.bind]
      rw [hfinish]
      rfl
    · have hall : ∀ name ∈ names, ∃ s ∈ slots, s.name = name := fun name hname =>
        List.mem_map.mp (hnames ▸ hname)
      rw [Tree.tokens_list_append, readRecord,
        hcollected.readInOrder_eq hslots hmember hall hlength]
      dsimp only [bind, Except.bind]
      rw [hfinish]
      rfl
  exists_tree := by
    intro ts a rest h
    unfold readRecord at h
    split at h
    · cases h
    · next ts =>
      obtain ⟨⟨r, us⟩, hmembers, hmore⟩ := exists_of_bind_eq_ok h
      obtain ⟨b, hfinish, hend⟩ := exists_of_bind_eq_ok hmore
      obtain ⟨vs, hclose, hresult⟩ := exists_of_bind_eq_ok hend
      clear h hmore hend
      cases hresult
      obtain ⟨ms, rest', rfl, rfl, hcollected⟩ :=
        exists_collected_of_readMembers hslots hmember hmembers
      cases hclose
      refine ⟨.object (ms.map Tree.named), (Tree.tokens_named_append ms rest).symm, ?_⟩
      exact (hmeaning _ _).mpr ⟨.named, ms, r, Tree.record?_object names ms, hcollected, hfinish⟩
    · next ts =>
      obtain ⟨⟨r, us⟩, hitems, hmore⟩ := exists_of_bind_eq_ok h
      obtain ⟨b, hfinish, hend⟩ := exists_of_bind_eq_ok hmore
      obtain ⟨vs, hclose, hresult⟩ := exists_of_bind_eq_ok hend
      clear h hmore hend
      cases hresult
      obtain rfl := of_takeCloseList hclose
      obtain ⟨items, hlength, rfl, hcollected⟩ :=
        exists_collected_of_readInOrder hslots hmember hitems
      refine ⟨.list items, (Tree.tokens_list_append items rest).symm, ?_⟩
      exact (hmeaning _ _).mpr
        ⟨.listed, _, r, Tree.record?_list hlength, hcollected, hfinish⟩
    · cases h

end Slots

/-! ### Records of two members -/

namespace Tree

/-- What the members say under a name, and nothing if it does not come. -/
def maybe? {α : Type} (ms : List (String × Tree)) (name : String) (meaning : Tree → Option α) :
    Option (Option α) :=
  member? ms name (fun t => (meaning t).map some) (some none)

/-- A name that may be missing says what it says, or what it says if it is missing. -/
lemma member?_eq_bind {α : Type} (ms : List (String × Tree)) (name : String)
    (meaning : Tree → Option α) (missing : Option α) :
    member? ms name meaning missing = (maybe? ms name meaning).bind fun a => a.or missing := by
  unfold maybe? member?
  split
  · rfl
  · next t _ =>
    change meaning t = ((meaning t).map some).bind _
    cases meaning t <;> rfl
  · rfl

/-- A name that says something does not come, or it comes once with a value that has a meaning. -/
lemma valuesOf_of_maybe? {α : Type} {ms : List (String × Tree)} {name : String}
    {meaning : Tree → Option α} {a : Option α} (h : maybe? ms name meaning = some a) :
    valuesOf name ms = [] ∨ ∃ t x, valuesOf name ms = [t] ∧ meaning t = some x := by
  unfold maybe? member? at h
  split at h
  · next hnone => exact Or.inl hnone
  · next t hone =>
    obtain ⟨x, hx, -⟩ := Option.map_eq_some_iff.mp h
    exact Or.inr ⟨t, x, hone, hx⟩
  · cases h

end Tree

section Pairs

variable {σ α β γ : Type} (e : σ ≃ Option α × Option β) {name name' : String} {item : Reader α}
  {item' : Reader β} {meaning : Tree → Option α} {meaning' : Tree → Option β}

/-- The first of two places. -/
def firstOf (name : String) (item : Reader α) (meaning : Tree → Option α) : Slot σ where
  name := name
  item := item
  meaning := meaning
  taken r := (e r).1.isSome
  put r a := e.symm (some a, (e r).2)
  get r := (e r).1

/-- The second of two places. -/
def secondOf (name : String) (item : Reader β) (meaning : Tree → Option β) : Slot σ where
  name := name
  item := item
  meaning := meaning
  taken r := (e r).2.isSome
  put r b := e.symm ((e r).1, some b)
  get r := (e r).2

/-- What holds of both places holds of all. -/
lemma forall_mem_pair {P : Slot σ → Prop} {s s' : Slot σ} (h : P s) (h' : P s') :
    ∀ t ∈ [s, s'], P t :=
  List.forall_mem_cons.mpr ⟨h, List.forall_mem_singleton.mpr h'⟩

lemma slots_pair (hne : name ≠ name') (hitem : Reads item meaning) (hitem' : Reads item' meaning') :
    Slots [firstOf e name item meaning, secondOf e name' item' meaning'] where
  nodup := by
    simpa [firstOf, secondOf] using hne
  reads := forall_mem_pair hitem hitem'
  taken_put := forall_mem_pair
    (fun r a => congrArg (fun p => p.1.isSome) (e.apply_symm_apply (some a, (e r).2)))
    (fun r b => congrArg (fun p => p.2.isSome) (e.apply_symm_apply ((e r).1, some b)))
  get_put := forall_mem_pair (fun r a => by simp [firstOf]) (fun r b => by simp [secondOf])
  frame := forall_mem_pair
    (forall_mem_pair (fun hself => absurd rfl hself) (fun _ r a => by simp [firstOf, secondOf]))
    (forall_mem_pair (fun _ r b => by simp [firstOf, secondOf]) (fun hself => absurd rfl hself))

/-- What an empty place has in the end. -/
lemma Slot.Filled.maybe?_eq {s : Slot σ} {r r' : σ} {ms : List (String × Tree)}
    (h : s.Filled r ms r') (hr : s.get r = none) :
    Tree.maybe? ms s.name s.meaning = some (s.get r') := by
  unfold Tree.maybe? Tree.member?
  rcases h with ⟨hnone, hget⟩ | ⟨t, a, hone, ha, hget⟩
  · rw [hnone, hget, hr]
  · rw [hone, hget]
    exact congrArg (Option.map some) ha

/-- Both places have in the end what is said under their names. -/
lemma Collected.maybe?_pair (hslots : Slots [firstOf e name item meaning,
      secondOf e name' item' meaning']) {ms : List (String × Tree)} {r : σ}
    (hr : Collected [firstOf e name item meaning, secondOf e name' item' meaning']
      (e.symm (none, none)) ms r) :
    Tree.maybe? ms name meaning = some (e r).1 ∧
      Tree.maybe? ms name' meaning' = some (e r).2 := by
  have hfilled := hr.filled hslots (s := firstOf e name item meaning) List.mem_cons_self
  have hfilled' := hr.filled hslots (s := secondOf e name' item' meaning')
    (List.mem_cons_of_mem _ List.mem_cons_self)
  exact ⟨hfilled.maybe?_eq (by simp [firstOf]), hfilled'.maybe?_eq (by simp [secondOf])⟩

/-- A record of two members is read as what is said under the two names. -/
lemma reads_maybe {member : σ → String → Member σ} (finish : RecordForm → σ → Except TextFault γ)
    (hne : name ≠ name') (hitem : Reads item meaning) (hitem' : Reads item' meaning')
    (hfirst : ∀ r, member r name = place (e r).1 item fun a => e.symm (some a, (e r).2))
    (hsecond : ∀ r, member r name' = place (e r).2 item' fun b => e.symm ((e r).1, some b))
    (hunknown : ∀ n, name ≠ n → name' ≠ n → ∀ r, member r n = .unknown) :
    Reads (readRecord (e.symm (none, none)) [name, name'] member finish) fun t =>
      (t.record? [name, name']).bind fun record =>
        (Tree.maybe? record.2 name meaning).bind fun a =>
          (Tree.maybe? record.2 name' meaning').bind fun b =>
            (finish record.1 (e.symm (a, b))).toOption := by
  have hslots := slots_pair e hne hitem hitem'
  have hmember : Describes [firstOf e name item meaning, secondOf e name' item' meaning'] member :=
    ⟨forall_mem_pair hfirst hsecond, fun n hn => hunknown n (hn _ List.mem_cons_self)
      (hn _ (List.mem_cons_of_mem _ List.mem_cons_self))⟩
  refine reads_record hslots hmember rfl fun t c => ?_
  rw [Option.bind_eq_some_iff]
  constructor
  · rintro ⟨⟨form, ms⟩, hrecord, hrest⟩
    obtain ⟨a, ha, hrest⟩ := Option.bind_eq_some_iff.mp hrest
    obtain ⟨b, hb, hfinish⟩ := Option.bind_eq_some_iff.mp hrest
    obtain ⟨r, hr⟩ := exists_collected hslots (e.symm (none, none)) ms
      (forall_mem_pair ⟨Tree.valuesOf_of_maybe? ha, fun h => by simp [firstOf] at h⟩
        ⟨Tree.valuesOf_of_maybe? hb, fun h => by simp [secondOf] at h⟩)
    obtain ⟨hfirst, hsecond⟩ := hr.maybe?_pair e hslots
    rw [ha, Option.some.injEq] at hfirst
    rw [hb, Option.some.injEq] at hsecond
    have hr' : e.symm (a, b) = r := by rw [hfirst, hsecond, Prod.mk.eta, e.symm_apply_apply]
    rw [hr'] at hfinish
    refine ⟨form, ms, r, hrecord, hr, ?_⟩
    cases hresult : finish form r with
    | error fault =>
      rw [hresult] at hfinish
      cases hfinish
    | ok c' =>
      rw [hresult] at hfinish
      rw [Option.some.inj hfinish]
  · rintro ⟨form, ms, r, hrecord, hr, hfinish⟩
    obtain ⟨hfirst, hsecond⟩ := hr.maybe?_pair e hslots
    refine ⟨(form, ms), hrecord, ?_⟩
    rw [hfirst, Option.bind_some, hsecond, Option.bind_some, Prod.mk.eta, e.symm_apply_apply,
      hfinish]
    rfl

/-- A record of two members is read as what is said under the two names, where a missing name may
have a meaning that depends on the form. -/
theorem reads_pair (missing : RecordForm → Option α) (missing' : RecordForm → Option β)
    (make : α → β → γ) {member : σ → String → Member σ}
    {finish : RecordForm → σ → Except TextFault γ}
    (hne : name ≠ name') (hitem : Reads item meaning) (hitem' : Reads item' meaning')
    (hfirst : ∀ r, member r name = place (e r).1 item fun a => e.symm (some a, (e r).2))
    (hsecond : ∀ r, member r name' = place (e r).2 item' fun b => e.symm ((e r).1, some b))
    (hunknown : ∀ n, name ≠ n → name' ≠ n → ∀ r, member r n = .unknown)
    (hfinish : ∀ form a b, (finish form (e.symm (a, b))).toOption =
      (a.or (missing form)).bind fun x => (b.or (missing' form)).map (make x)) :
    Reads (readRecord (e.symm (none, none)) [name, name'] member finish) fun t =>
      (t.record? [name, name']).bind fun record =>
        (Tree.member? record.2 name meaning (missing record.1)).bind fun x =>
          (Tree.member? record.2 name' meaning' (missing' record.1)).map (make x) := by
  have hmaybe := reads_maybe e finish hne hitem hitem' hfirst hsecond hunknown
  convert hmaybe using 4 with t record
  rw [Tree.member?_eq_bind, Tree.member?_eq_bind]
  simp only [hfinish]
  cases Tree.maybe? record.2 name meaning with
  | none => rfl
  | some a =>
    cases Tree.maybe? record.2 name' meaning' with
    | none => simp
    | some b => rfl

end Pairs

end ShapeGrammar.Json
