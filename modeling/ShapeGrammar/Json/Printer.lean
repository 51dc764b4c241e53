import ShapeGrammar.Decimal.Layout

/-!
# Writing data files

A `Value` is what a data file can say.  `compact` writes it without blanks, and `pretty` with two
blanks of indentation for each bracket around a line.  A number that has no text in data files is
written as `null`.
-/

namespace ShapeGrammar.Json

/-- A value to write. -/
inductive Value where
  | null
  | boolean (value : Bool)
  | natural (value : Nat)
  | double (value : Float)
  | single (value : Float32)
  | text (value : String)
  | list (items : List Value)
  | object (members : List (String × Value))

/-- A hexadecimal digit. -/
def hexDigit (n : Nat) : Char := if n < 10 then Char.ofNat (48 + n) else Char.ofNat (87 + n)

/-- A character inside a string.  Only quotes, backslashes and control characters are escaped. -/
def escape (c : Char) : List Char :=
  if c = '"' then ['\\', '"']
  else if c = '\\' then ['\\', '\\']
  else if c = '\x08' then ['\\', 'b']
  else if c = '\t' then ['\\', 't']
  else if c = '\n' then ['\\', 'n']
  else if c = '\x0c' then ['\\', 'f']
  else if c = '\r' then ['\\', 'r']
  else if c < ' ' then ['\\', 'u', '0', '0', hexDigit (c.toNat / 16), hexDigit (c.toNat % 16)]
  else [c]

/-- A string in quotes. -/
def quoted (s : String) : List Char := '"' :: (s.toList.flatMap escape ++ ['"'])

/-- The word for nothing. -/
def nullText : List Char := ['n', 'u', 'l', 'l']

/-- The words for truth values. -/
def booleanText : Bool → List Char
  | true => ['t', 'r', 'u', 'e']
  | false => ['f', 'a', 'l', 's', 'e']

/-- Texts with something in between. -/
def joined (separator : List Char) : List (List Char) → List Char
  | [] => []
  | [t] => t
  | t :: ts => t ++ separator ++ joined separator ts

/-- The layout of brackets: what follows an opening bracket, what stands between items, what
precedes a closing bracket, each by the number of brackets around it, and what stands between a
name and its value. -/
structure Spacing where
  afterOpen : Nat → List Char
  between : Nat → List Char
  beforeClose : Nat → List Char
  afterName : List Char

/-- No blanks at all. -/
def Spacing.compact : Spacing := ⟨fun _ => [], fun _ => [','], fun _ => [], [':']⟩

/-- A line break and the indentation inside `depth` brackets. -/
def lineBreak (depth : Nat) : List Char := '\n' :: List.replicate (2 * depth) ' '

/-- Every item on a line of its own. -/
def Spacing.pretty : Spacing where
  afterOpen depth := lineBreak (depth + 1)
  between depth := ',' :: lineBreak (depth + 1)
  beforeClose depth := lineBreak depth
  afterName := [':', ' ']

/-- Items in brackets, inside `depth` other brackets. -/
def bracketed (spacing : Spacing) (depth : Nat) (opening closing : Char)
    (items : List (List Char)) : List Char :=
  if items.isEmpty then [opening, closing]
  else
    opening :: (spacing.afterOpen depth ++ joined (spacing.between depth) items
      ++ spacing.beforeClose depth ++ [closing])

mutual

/-- The text of a value inside `depth` brackets. -/
def Value.write (spacing : Spacing) (depth : Nat) : Value → List Char
  | .null => nullText
  | .boolean b => booleanText b
  | .natural n => Nat.toDigits 10 n
  | .double x => (Number.data? x).getD nullText
  | .single x => (Number.dataSingle? x).getD nullText
  | .text s => quoted s
  | .list items => bracketed spacing depth '[' ']' (writeItems spacing (depth + 1) items)
  | .object members =>
    bracketed spacing depth '\x7b' '\x7d' (writeMembers spacing (depth + 1) members)

/-- The texts of the items of a list. -/
def writeItems (spacing : Spacing) (depth : Nat) : List Value → List (List Char)
  | [] => []
  | v :: vs => v.write spacing depth :: writeItems spacing depth vs

/-- The texts of the members of an object. -/
def writeMembers (spacing : Spacing) (depth : Nat) : List (String × Value) → List (List Char)
  | [] => []
  | (name, v) :: vs =>
    (quoted name ++ spacing.afterName ++ v.write spacing depth) :: writeMembers spacing depth vs

end

/-- A value, or `null` for none. -/
def Value.optional : Option Value → Value
  | none => .null
  | some v => v

/-- A value without blanks. -/
def Value.compact (v : Value) : String := String.ofList (v.write .compact 0)

/-- A value on indented lines. -/
def Value.pretty (v : Value) : String := String.ofList (v.write .pretty 0)

end ShapeGrammar.Json
