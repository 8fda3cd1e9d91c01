import MathEdit.Json.Lexeme

/-! # Reading JSON

`Json.read?` reads a text as one JSON value. The tokens are taken one at a time by `Reading.step`,
and the arrays and objects that are still open are kept in a list, so nesting has no limit.
-/

namespace MathEdit.Json

/-- An array or object that is still open, with what it holds so far. -/
inductive Frame where
  | array (items : List (Json Str))
  /-- An object whose member with this key has no value yet. -/
  | object (members : List (Str × Json Str)) (key : Str)
  deriving Repr

/-- What can come next, and the open arrays and objects around it, innermost first. -/
inductive Reading where
  /-- A value. -/
  | value (frames : List Frame)
  /-- The first item of an array, or its end. -/
  | itemOrEnd (frames : List Frame)
  /-- The first key of an object, or its end. -/
  | keyOrEnd (frames : List Frame)
  /-- A key, after a comma. -/
  | nextKey (members : List (Str × Json Str)) (frames : List Frame)
  /-- The colon after a key. -/
  | colon (members : List (Str × Json Str)) (key : Str) (frames : List Frame)
  /-- A comma or the end of an array. -/
  | afterItem (items : List (Json Str)) (frames : List Frame)
  /-- A comma or the end of an object. -/
  | afterMember (members : List (Str × Json Str)) (frames : List Frame)
  /-- Nothing: the value is complete. -/
  | done (j : Json Str)
  deriving Repr

namespace Reading

/-- Puts a complete value where it belongs. -/
def complete (j : Json Str) : List Frame → Reading
  | [] => done j
  | .array items :: frames => afterItem (items ++ [j]) frames
  | .object members key :: frames => afterMember (members ++ [(key, j)]) frames

/-- Takes the first token of a value. -/
def start (k : Token) (frames : List Frame) : Option Reading :=
  match k with
  | .leftBracket => some (itemOrEnd frames)
  | .leftBrace => some (keyOrEnd frames)
  | .scalar j => some (complete j frames)
  | .string s => some (complete (.string s) frames)
  | _ => none

/-- Takes one token. -/
def step (s : Reading) (k : Token) : Option Reading :=
  match s, k with
  | value frames, k => start k frames
  | itemOrEnd frames, .rightBracket => some (complete (.array []) frames)
  | itemOrEnd frames, k => start k (.array [] :: frames)
  | keyOrEnd frames, .rightBrace => some (complete (.object []) frames)
  | keyOrEnd frames, .string s => some (colon [] s frames)
  | nextKey members frames, .string s => some (colon members s frames)
  | colon members key frames, .colon => some (value (.object members key :: frames))
  | afterItem items frames, .comma => some (value (.array items :: frames))
  | afterItem items frames, .rightBracket => some (complete (.array items) frames)
  | afterMember members frames, .comma => some (nextKey members frames)
  | afterMember members frames, .rightBrace => some (complete (.object members) frames)
  | _, _ => none

end Reading

/-- The value that a text is. -/
def read? (t : Text) : Option (Json Str) := do
  match ← (← tokens? t).foldlM Reading.step (.value []) with
  | .done j => some j
  | _ => none

end MathEdit.Json
