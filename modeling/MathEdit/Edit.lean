import MathEdit.Text

/-! # Edits

An `Edit` replaces the part of a text between two byte offsets.
-/

namespace MathEdit

/-- A replacement of the part of a text between two offsets. -/
structure Edit where
  start : Nat
  stop : Nat
  replacement : Text
  deriving DecidableEq, Repr

/-- The text after an edit. -/
def Edit.apply (e : Edit) (t : Text) : Text :=
  Text.takeBytes e.start t ++ e.replacement ++ Text.dropBytes e.stop t

end MathEdit
