import MathEdit.Position.LineIndex

/-! # Positions in a document

A place in a document is a byte offset. Editors name places by other means: by an offset in UTF-16
code units, or by a line and a column in bytes or in units. A `Document` is a text with the index of
its lines.

* **`Document.lineCol? e offset`**: the line and column of a byte offset.
* **`Document.offsetAt? e line col`**: the byte offset of a line and column.
* **`Document.unitsBefore?`** and **`Text.boundary?`**: the same for plain offsets.
* **`Position.resolve? p`**: the byte offset of any kind of position.

Each has a result exactly where the place exists, and never inside a character.
-/

namespace MathEdit

/-- The units that columns and offsets are counted in. -/
inductive Encoding where
  | utf8
  | utf16
  deriving DecidableEq, Repr

/-- The number of units of a character. -/
def Encoding.size : Encoding → Char → Nat
  | utf8 => Char.utf8Size
  | utf16 => Text.units16

/-- A text with the index of its lines. -/
structure Document where
  text : Text
  index : LineIndex

namespace Document

open Text

/-- A text as a document. -/
def ofText (t : Text) : Document := ⟨t, .ofText t⟩

/-- The line and column of a byte offset, which has at most 32 bits. -/
def lineCol? (d : Document) (e : Encoding) (offset : Nat) : Option (Nat × Nat) := do
  let (line, col) ← if offset < UInt32.size then d.index.lineCol? offset else none
  match e with
  | .utf8 => return (line, col)
  | .utf16 => return (line, ← d.index.toUnits? line col)

/-- The byte offset of a line and a byte column, which goes up to the line feed that ends the
line. -/
def offsetOf? (d : Document) (line col : Nat) : Option Nat := do
  let start ← d.index.start? line
  let (_, rest) ← splitAt? Char.utf8Size start d.text
  if start + col ≤ start + width (firstLine rest) then
    boundary? Char.utf8Size (start + col) d.text
  else none

/-- The byte offset of a line and column. -/
def offsetAt? (d : Document) (e : Encoding) (line col : Nat) : Option Nat :=
  match e with
  | .utf8 => d.offsetOf? line col
  | .utf16 => do d.offsetOf? line (← d.index.toBytes? line col)

/-- The number of units before a byte offset. -/
def unitsBefore? (d : Document) (e : Encoding) (offset : Nat) : Option Nat :=
  (splitAt? Char.utf8Size offset d.text).map fun (before, _) => measure e.size before

end Document

/-- A place in a document, as an editor names it. -/
inductive Position where
  | offset (e : Encoding) (units : Nat)
  | lineCol (e : Encoding) (line col : Nat)
  deriving DecidableEq, Repr

namespace Position

/-- The byte offset of a position, if the document has it. -/
def resolve? (p : Position) (d : Document) : Option Nat :=
  match p with
  | offset e units => Text.boundary? e.size units d.text
  | lineCol e line col => d.offsetAt? e line col

/-- A position as a message shows it. -/
def describe : Position → String
  | offset .utf8 n => s!"Offset({n})"
  | offset .utf16 n => s!"Utf16Offset({n})"
  | lineCol .utf8 line col => s!"LineCol \x7b line: {line}, col: {col} \x7d"
  | lineCol .utf16 line col => s!"Utf16LineCol \x7b line: {line}, col: {col} \x7d"

end Position

end MathEdit
