import MathEdit.Text

/-! # Line indices

A `LineIndex` says where the lines of a text are. Lines end at the line feed alone, and the place
before it is the last of its line. Columns are counted in bytes, and an index converts them from and
to UTF-16 code units. Only the characters of more than one byte make a difference between the two,
so an index keeps these for each line.

* **`LineIndex.Describes`**: what an index is to answer about a text.
* **`WideChar.toBytes?`**: the conversion of a column in units, by the wide characters of its line.
* **`LineIndex.ofText`**: an index that is computed anew for each question.
-/

namespace MathEdit

namespace Text

/-- The part of a text before the line with a given number, and the text from there on. -/
def splitLine? : Nat → Text → Option (Text × Text)
  | 0, t => some ([], t)
  | _ + 1, [] => none
  | n + 1, c :: t =>
      (splitLine? (if c = '\n' then n else n + 1) t).map fun (before, rest) => (c :: before, rest)

/-- The first line of a text, without the line feed that ends it. -/
def firstLine (t : Text) : Text := t.takeWhile (· ≠ '\n')

/-- The part of a text after its last line feed. -/
def lastLine (t : Text) : Text := (t.reverse.takeWhile (· ≠ '\n')).reverse

/-- The line of a text with a given number, between the text before it and the text after it, which
starts with the line feed that ends the line. -/
structure IsLine (t : Text) (number : Nat) (before line after : Text) : Prop where
  append_eq : before ++ (line ++ after) = t
  count_eq : before.count '\n' = number
  ends_before : before = [] ∨ before.getLast? = some '\n'
  newline_notMem : '\n' ∉ line
  starts_after : after = [] ∨ after.head? = some '\n'

end Text

/-! ## Wide characters -/

/-- A character of more than one byte in a line. -/
structure WideChar where
  /-- The byte column of the character. -/
  start : Nat
  bytes : Nat
  /-- The number of UTF-16 code units of the character. -/
  units : Nat
  deriving DecidableEq, Repr

namespace WideChar

/-- The wide characters of a text that starts at a byte column. -/
def ofText : (column : Nat) → Text → List WideChar
  | _, [] => []
  | column, c :: t =>
      if c.utf8Size = 1 then ofText (column + 1) t
      else ⟨column, c.utf8Size, Text.units16 c⟩ :: ofText (column + c.utf8Size) t

/-- The byte column of a column in units: each wide character before the column moves it by the
bytes that it has more than units. A column has at most 32 bits. -/
def toBytes? : List WideChar → (column : Nat) → Option Nat
  | [], column => some column
  | w :: ws, column =>
      if w.start < column then
        let moved := column + (w.bytes - w.units)
        if moved < UInt32.size then toBytes? ws moved else none
      else some column

end WideChar

/-! ## Indices -/

/-- What is known about the lines of a text. Lines and columns are counted from zero. -/
structure LineIndex where
  /-- The line and byte column of an offset. -/
  lineCol? : (offset : Nat) → Option (Nat × Nat)
  /-- The offset of the first place of a line. -/
  start? : (line : Nat) → Option Nat
  /-- The column in units of a byte column. -/
  toUnits? : (line col : Nat) → Option Nat
  /-- The byte column of a column in units. -/
  toBytes? : (line col : Nat) → Option Nat

namespace LineIndex

open Text

/-- Whether an index answers rightly about a text. It knows nothing of offsets past the end or
inside a character, nor of lines that the text does not have. -/
structure Describes (index : LineIndex) (t : Text) : Prop where
  lineCol?_of_line : ∀ {line before front back after}, t.IsLine line before (front ++ back) after →
    index.lineCol? (width before + width front) = some (line, width front)
  lineCol?_eq_none : ∀ {offset}, splitAt? Char.utf8Size offset t = none →
    index.lineCol? offset = none
  start?_of_line : ∀ {line before text after}, t.IsLine line before text after →
    index.start? line = some (width before)
  start?_eq_none : ∀ {line}, t.count '\n' < line → index.start? line = none
  toUnits?_of_line : ∀ {line before front back after}, t.IsLine line before (front ++ back) after →
    index.toUnits? line (width front) = some (measure units16 front)
  toBytes?_of_line : ∀ {line before text after}, t.IsLine line before text after →
    ∀ col, index.toBytes? line col = WideChar.toBytes? (WideChar.ofText 0 text) col

/-- The index of a text. -/
def ofText (t : Text) : LineIndex where
  lineCol? offset := (splitAt? Char.utf8Size offset t).map fun (before, _) =>
    (before.count '\n', width (lastLine before))
  start? line := (splitLine? line t).map fun (before, _) => width before
  toUnits? line col := do
    let (_, rest) ← splitLine? line t
    let (front, _) ← splitAt? Char.utf8Size col (firstLine rest)
    return measure units16 front
  toBytes? line col :=
    let text := (splitLine? line t).elim [] fun (_, rest) => firstLine rest
    WideChar.toBytes? (WideChar.ofText 0 text) col

end LineIndex

end MathEdit
