import MathEdit.Text

/-! # JSON values

A `Json S` is a JSON value whose strings have values in `S`, with the members of an object in the
order of the text. Values that are written have texts for strings; a value that was read has
`Option Text`, because an escape in a string can name half of a surrogate pair, which no text holds.
`Json.render` writes a value over several lines, two spaces deeper for each level.
-/

namespace MathEdit

/-- A JSON value with strings in `S`. -/
inductive Json (S : Type) where
  | null
  | bool (b : Bool)
  /-- A number without a fraction and an exponent, other than minus zero. -/
  | integer (n : Int)
  /-- Any other number, as it is spelled. -/
  | decimal (spelling : Text)
  | string (s : S)
  | array (items : List (Json S))
  | object (members : List (S × Json S))
  deriving Repr

namespace Json

/-- The digits of a number. -/
def digits (n : Nat) : Text := Nat.toDigits 10 n

/-- The decimal spelling of an integer. -/
def integerText (n : Int) : Text := if n < 0 then '-' :: digits n.natAbs else digits n.natAbs

/-- The four hexadecimal digits of a number below 65536, in small letters. -/
def hex4 (n : Nat) : Text :=
  [n / 4096 % 16, n / 256 % 16, n / 16 % 16, n % 16].map Nat.digitChar

/-- A character inside a string: quotation marks, backslashes and control characters are escaped,
and everything else is written as it is. -/
def escapeChar (c : Char) : Text :=
  if c = '"' then ['\\', '"']
  else if c = '\\' then ['\\', '\\']
  else if c = '\x08' then ['\\', 'b']
  else if c = '\x0c' then ['\\', 'f']
  else if c = '\n' then ['\\', 'n']
  else if c = '\r' then ['\\', 'r']
  else if c = '\t' then ['\\', 't']
  else if c.toNat < 0x20 then '\\' :: 'u' :: hex4 c.toNat
  else [c]

/-- A text as a string between quotation marks. -/
def stringText (s : Text) : Text := '"' :: s.flatMap escapeChar ++ ['"']

/-- A line end and the indentation of a level. -/
def newline (level : Nat) : Text := '\n' :: List.replicate (2 * level) ' '

mutual

/-- A value inside `level` arrays and objects. -/
def renderAt (level : Nat) : Json Text → Text
  | .null => "null".toList
  | .bool true => "true".toList
  | .bool false => "false".toList
  | .integer n => integerText n
  | .decimal spelling => spelling
  | .string s => stringText s
  | .array [] => ['[', ']']
  | .array (item :: items) =>
      '[' :: newline (level + 1) ++ renderAt (level + 1) item ++ renderItems (level + 1) items ++
        newline level ++ [']']
  | .object [] => ['{', '}']
  | .object ((key, value) :: members) =>
      '{' :: newline (level + 1) ++ stringText key ++ ": ".toList ++ renderAt (level + 1) value ++
        renderMembers (level + 1) members ++ newline level ++ ['}']

/-- The items of an array after the first. -/
def renderItems (level : Nat) : List (Json Text) → Text
  | [] => []
  | item :: items =>
      ',' :: newline level ++ renderAt level item ++ renderItems level items

/-- The members of an object after the first. -/
def renderMembers (level : Nat) : List (Text × Json Text) → Text
  | [] => []
  | (key, value) :: members =>
      ',' :: newline level ++ stringText key ++ ": ".toList ++ renderAt level value ++
        renderMembers level members

end

/-- A value over several lines. -/
def render (j : Json Text) : Text := renderAt 0 j

/-- A natural number as a value. -/
def nat (n : Nat) : Json Text := .integer n

/-- An object with its members. -/
def record (members : List (String × Json Text)) : Json Text :=
  .object (members.map fun (key, value) => (key.toList, value))

/-- A value, or `null` for none. -/
def nullable {α : Type} (value : α → Json Text) : Option α → Json Text
  | some a => value a
  | none => .null

end Json

end MathEdit
