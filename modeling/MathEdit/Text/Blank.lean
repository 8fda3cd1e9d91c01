import MathEdit.Text

/-! # Blank characters

Whitespace is the White_Space property of the character standard: the ASCII blanks, the next-line
and no-break characters, the general spaces and the line and paragraph separators. `trimStart`,
`trimEnd` and `trim` remove it from the ends of a text.
-/

namespace MathEdit.Text

/-- The ranges of the White_Space property. -/
def blankRanges : List (Nat × Nat) :=
  [(0x09, 0x0d), (0x20, 0x20), (0x85, 0x85), (0xa0, 0xa0), (0x1680, 0x1680), (0x2000, 0x200a),
    (0x2028, 0x2029), (0x202f, 0x202f), (0x205f, 0x205f), (0x3000, 0x3000)]

/-- Whether a code point lies in one of a list of closed ranges. -/
def inRanges (ranges : List (Nat × Nat)) (n : Nat) : Bool :=
  ranges.any fun (first, last) => first ≤ n && n ≤ last

/-- Whether a character is whitespace. -/
def isBlank (c : Char) : Bool := inRanges blankRanges c.toNat

/-- A text without the whitespace at its front. -/
def trimStart (t : Text) : Text := t.dropWhile isBlank

/-- A text without the whitespace at its end. -/
def trimEnd (t : Text) : Text := (t.reverse.dropWhile isBlank).reverse

/-- A text without the whitespace at either end. -/
def trim (t : Text) : Text := trimEnd (trimStart t)

end MathEdit.Text
