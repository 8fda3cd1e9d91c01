import MathEdit.Edit
import MathEdit.Text.Blank

/-! # Bracing scripts while typing

A script of more than one character needs braces. `Script.detect?` looks back from a character that
has just been typed and finds the unbraced script it belongs to, and `Script.Typing` holds what has
to be remembered between keystrokes: that the user asked to leave the next character alone.
-/

namespace MathEdit

/-- An unbraced script, from its marker to the character typed last. -/
structure Script where
  /-- The offset of the `^` or `_`. -/
  marker : Nat
  /-- The characters after the marker. -/
  content : Text
  deriving DecidableEq, Repr

namespace Script

/-- The offset just past the marker. -/
def start (s : Script) : Nat := s.marker + 1

/-- The offset just past the content. -/
def stop (s : Script) : Nat := s.start + Text.width s.content

/-- The content in braces. -/
def braced (s : Script) : Text := '{' :: s.content ++ ['}']

/-- The edit that puts the content in braces. -/
def edit (s : Script) : Edit := ⟨s.start, s.stop, s.braced⟩

/-- The place for the cursor after the edit, before the closing brace. -/
def cursor (s : Script) : Nat := s.start + 1 + Text.width s.content

/-- Whether a character starts a script. -/
def isMarker (c : Char) : Bool := c = '^' || c = '_'

/-- Whether a character cannot be part of an unbraced script. -/
def isDelimiter (c : Char) : Bool := c = '{' || c = '}' || isMarker c || Text.isBlank c

/-- The script of at least two characters that ends a text, given backwards. -/
def ofReverse? : Text → Option Script
  | [] => none
  | typed :: back =>
      let run := back.takeWhile (!isDelimiter ·)
      match back.dropWhile (!isDelimiter ·) with
      | [] => none
      | m :: before =>
          if isMarker m && before.head? ≠ some '\\' && !isDelimiter typed && run ≠ [] then
            some ⟨Text.width before, (typed :: run).reverse⟩
          else none

/-- The unbraced script that ends with the character before `stop` in a line. -/
def detect? (line : Text) (stop : Nat) : Option Script :=
  match Text.splitAt? Char.utf8Size stop line with
  | some (head, _) => ofReverse? head.reverse
  | none => none

/-- The character of a line that ends at an offset. -/
def typedAt? (line : Text) (stop : Nat) : Option Char :=
  match Text.splitAt? Char.utf8Size stop line with
  | some (head, _) => head.getLast?
  | none => none

/-- Whether the next character is to be left alone. -/
structure Typing where
  escapePending : Bool
  deriving DecidableEq, Repr

namespace Typing

/-- Nothing typed yet. -/
def fresh : Typing := ⟨false⟩

/-- Asks to leave the next character alone. -/
def escape (_ : Typing) : Typing := ⟨true⟩

/-- A change of a line that inserted a text ending at `stop`. A space or a deletion takes back what
was asked, one character uses it up, and a longer text does neither. -/
def change (s : Typing) (inserted line : Text) (stop : Nat) : Option Script × Typing :=
  if inserted = [] || inserted.any Text.isBlank then (none, ⟨false⟩)
  else if inserted.length ≠ 1 then (none, s)
  else if s.escapePending then (none, ⟨false⟩)
  else (detect? line stop, s)

/-- The insertion of the character of a line that ends at `stop`. -/
def insert (s : Typing) (line : Text) (stop : Nat) : Option Script × Typing :=
  s.change (typedAt? line stop).toList line stop

end Typing

end Script

end MathEdit
