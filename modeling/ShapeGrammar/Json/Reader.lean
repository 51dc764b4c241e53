import ShapeGrammar.Json.Token

/-!
# Reading data from tokens

A `Reader` takes a value from the front of a list of tokens, or says what is wrong with the first
token that does not fit.  Readers look at tokens from left to right and never go back, so a text
with several faults is reported for the leftmost one.

Records can be written in two ways, as an object with named members in any order, or as a list of
the members in their declared order.  Of an object, unknown members are passed over, whatever their
value is (`skip`), and a member that comes twice is a fault.
-/

namespace ShapeGrammar.Json

/-- Takes a value from the front of a list of tokens. -/
abbrev Reader (α : Type) := List Token → Except TextFault (α × List Token)

/-! ### Passing over a value -/

/-- What is open around a value that is passed over. -/
inductive Bracket where
  | list
  | object
deriving DecidableEq

/-- What comes next while a value is passed over. -/
inductive Awaited where
  /-- A value. -/
  | value
  /-- The name of a member. -/
  | name
  /-- The colon after a name. -/
  | colon
  /-- A comma, or the end of the innermost bracket. -/
  | more
deriving DecidableEq

/-- Pass over the rest of a value inside the open brackets `stack`, innermost first.  Only the form
of the value matters, and it may be nested to any depth. -/
def skipInside : Awaited → List Bracket → List Token → Except TextFault (List Token)
  | _, _, [] => .error .ended
  | .value, stack, .openList :: .closeList :: ts =>
    if stack.isEmpty then .ok ts else skipInside .more stack ts
  | .value, stack, .openObject :: .closeObject :: ts =>
    if stack.isEmpty then .ok ts else skipInside .more stack ts
  | .value, stack, .openList :: ts => skipInside .value (.list :: stack) ts
  | .value, stack, .openObject :: ts => skipInside .name (.object :: stack) ts
  | .value, stack, t :: ts =>
    match t with
    | .closeObject => .error .malformed
    | .closeList => .error .malformed
    | .colon => .error .malformed
    | .comma => .error .malformed
    | .brokenText _ passed => .error passed
    | .broken _ passed => .error passed
    | _ => if stack.isEmpty then .ok ts else skipInside .more stack ts
  | .name, stack, .text _ :: ts => skipInside .colon stack ts
  | .name, _, .brokenText _ passed :: _ => .error passed
  | .colon, stack, .colon :: ts => skipInside .value stack ts
  | .more, .list :: stack, .comma :: ts => skipInside .value (.list :: stack) ts
  | .more, .object :: stack, .comma :: ts => skipInside .name (.object :: stack) ts
  | .more, .list :: stack, .closeList :: ts =>
    if stack.isEmpty then .ok ts else skipInside .more stack ts
  | .more, .object :: stack, .closeObject :: ts =>
    if stack.isEmpty then .ok ts else skipInside .more stack ts
  | _, _, _ :: _ => .error .malformed

/-- Pass over a value. -/
def skip (ts : List Token) : Except TextFault (List Token) := skipInside .value [] ts

/-! ### Punctuation -/

/-- Take the colon between a name and its value. -/
def takeColon : List Token → Except TextFault (List Token)
  | [] => .error .ended
  | .colon :: ts => .ok ts
  | _ => .error .malformed

/-- Take the end of a list. -/
def takeCloseList : List Token → Except TextFault (List Token)
  | [] => .error .ended
  | .closeList :: ts => .ok ts
  | _ => .error .malformed

/-- Take the end of an object. -/
def takeCloseObject : List Token → Except TextFault (List Token)
  | [] => .error .ended
  | .closeObject :: ts => .ok ts
  | _ => .error .malformed

/-- Go to the next element of a list: `true` before an element, `false` before the end of the list.
`first` says that there was no element yet. -/
def nextElement (first : Bool) : Reader Bool
  | [] => .error .ended
  | .closeList :: ts => .ok (false, .closeList :: ts)
  | t :: ts =>
    if first then .ok (true, t :: ts)
    else if t = .comma then
      match ts with
      | [] => .error .ended
      | .closeList :: _ => .error .malformed
      | ts => .ok (true, ts)
    else .error .malformed

/-- The name that the list of tokens starts with. -/
def memberName : Reader (Option String)
  | [] => .error .ended
  | .text (some name) :: ts => .ok (some name, ts)
  | .text none :: _ => .error .malformed
  | .brokenText wanted _ :: _ => .error wanted
  | _ => .error .malformed

/-- Go to the next member of an object: its name, or `none` before the end of the object. -/
def nextMember (first : Bool) : Reader (Option String)
  | [] => .error .ended
  | .closeObject :: ts => .ok (none, .closeObject :: ts)
  | t :: ts =>
    if first then memberName (t :: ts)
    else if t = .comma then memberName ts
    else .error .malformed

/-! ### Scalars -/

/-- A double within range. -/
def readFloat : Reader Float
  | [] => .error .ended
  | .number n :: ts =>
    match n.toFloat? with
    | some x => .ok (x, ts)
    | none => .error .malformed
  | t :: _ => .error t.unexpected

/-- A number that is within range as a double, in the 32-bit format. -/
def readSingle : Reader Float32
  | [] => .error .ended
  | .number n :: ts =>
    match n.toSingle? with
    | some x => .ok (x, ts)
    | none => .error .malformed
  | t :: _ => .error t.unexpected

/-- A whole number of 64 bits. -/
def readNatural : Reader Nat
  | [] => .error .ended
  | .number n :: ts =>
    match n.natural? with
    | some k => .ok (k, ts)
    | none => .error (Token.number n).unexpected
  | t :: _ => .error t.unexpected

/-- A truth value. -/
def readBool : Reader Bool
  | [] => .error .ended
  | .boolean b :: ts => .ok (b, ts)
  | t :: _ => .error t.unexpected

/-- A string. -/
def readString : Reader String
  | [] => .error .ended
  | .text (some s) :: ts => .ok (s, ts)
  | t :: _ => .error t.unexpected

/-- The word `null`. -/
def readNull : Reader Unit
  | [] => .error .ended
  | .null :: ts => .ok ((), ts)
  | t :: _ => .error t.unexpected

/-- A value, or `null` for none. -/
def readOption {α : Type} (item : Reader α) : Reader (Option α)
  | .null :: ts => .ok (none, ts)
  | ts => do
    let (a, ts) ← item ts
    return (some a, ts)

/-! ### Lists -/

/-- The next element of a list, if there is one. -/
def readElement? {α : Type} (item : Reader α) (first : Bool) : Reader (Option α) := fun ts => do
  match ← nextElement first ts with
  | (false, ts) => return (none, ts)
  | (true, ts) =>
    let (a, ts) ← item ts
    return (some a, ts)

/-- The next element of a list that must have one. -/
def readElement {α : Type} (item : Reader α) (first : Bool) : Reader α := fun ts => do
  match ← readElement? item first ts with
  | (none, _) => throw .mismatched
  | (some a, ts) => return (a, ts)

/-- The elements up to the end of a list.  Every element takes a token, so as much fuel as there are
tokens is enough. -/
def readElements {α : Type} (item : Reader α) : Nat → Bool → Reader (List α)
  | 0, _ => fun _ => .error .malformed
  | fuel + 1, first => fun ts => do
    match ← readElement? item first ts with
    | (none, ts) => return ([], ts)
    | (some a, ts) =>
      let (as, ts) ← readElements item fuel false ts
      return (a :: as, ts)

/-- A list of any length. -/
def readList {α : Type} (item : Reader α) : Reader (List α)
  | [] => .error .ended
  | .openList :: ts => do
    let (as, ts) ← readElements item (ts.length + 1) true ts
    return (as, ← takeCloseList ts)
  | t :: _ => .error t.unexpected

/-! ### Records -/

/-- What a member means to the record that is being read. -/
inductive Member (σ : Type) where
  /-- Nothing; its value is passed over. -/
  | unknown
  /-- It was there before. -/
  | repeated
  /-- Its value is read into the record. -/
  | known (read : Reader σ)

/-- The members up to the end of an object, read into a record one by one.  Every member takes a
token, so as much fuel as there are tokens is enough. -/
def readMembers {σ : Type} (member : σ → String → Member σ) : Nat → Bool → σ → Reader σ
  | 0, _, _ => fun _ => .error .malformed
  | fuel + 1, first, record => fun ts => do
    match ← nextMember first ts with
    | (none, ts) => return (record, ts)
    | (some name, ts) =>
      match member record name with
      | .repeated => throw .mismatched
      | .unknown =>
        let ts ← skip (← takeColon ts)
        readMembers member fuel false record ts
      | .known read =>
        let (record, ts) ← read (← takeColon ts)
        readMembers member fuel false record ts

/-- A member that is read into an empty place of the record. -/
def place {α σ : Type} (current : Option α) (item : Reader α) (store : α → σ) : Member σ :=
  if current.isSome then .repeated
  else .known fun ts => do
    let (a, ts) ← item ts
    return (store a, ts)

/-- A value that must have been there. -/
def required {α : Type} : Option α → Except TextFault α
  | none => .error .mismatched
  | some a => .ok a

/-- The form in which a record is written. -/
inductive RecordForm where
  /-- As an object with named members. -/
  | named
  /-- As a list of the members in their declared order. -/
  | listed
deriving DecidableEq

/-- The elements of a list, read into a record as the members `names`.  The list may end early. -/
def readInOrder {σ : Type} (member : σ → String → Member σ) : List String → Bool → σ → Reader σ
  | [], _, record => fun ts => .ok (record, ts)
  | name :: names, first, record => fun ts => do
    match ← nextElement first ts with
    | (false, ts) => return (record, ts)
    | (true, ts) =>
      match member record name with
      | .known read =>
        let (record, ts) ← read ts
        readInOrder member names false record ts
      | _ => throw .mismatched

/-- A record in either of its forms.  The members `names` are collected from `start` on, and
`finish` makes the record from what there was. -/
def readRecord {σ α : Type} (start : σ) (names : List String) (member : σ → String → Member σ)
    (finish : RecordForm → σ → Except TextFault α) : Reader α
  | [] => .error .ended
  | .openObject :: ts => do
    let (record, ts) ← readMembers member (ts.length + 1) true start ts
    let a ← finish .named record
    return (a, ← takeCloseObject ts)
  | .openList :: ts => do
    let (record, ts) ← readInOrder member names true start ts
    let a ← finish .listed record
    return (a, ← takeCloseList ts)
  | t :: _ => .error t.unexpected

/-- Nothing may follow the value of a text. -/
def atEnd : List Token → Except TextFault Unit
  | [] => .ok ()
  | _ :: _ => .error .malformed

end ShapeGrammar.Json
