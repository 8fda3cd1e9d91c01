import MathEdit.Environment
import MathEdit.Token.Scan

/-! # Splitting an equation into aligned rows

An equation with an `=` at its top level can be written as the rows of an aligning environment: the
first row holds both sides of the first `=`, and each further `=` starts a row of its own. Comments
move to the end of their row, where they hide nothing of the layout.

* **`Equation.inner t`**: the equation of `t` without the signs around it.
* **`Equation.breaks t`**: the offsets of the `=` where it is split.
* **`Equation.split? style t`**: the rows in their environment, or `none` if there is no such `=`.
-/

namespace MathEdit

/-- How the rows of a split equation are laid out. -/
structure RowStyle where
  /-- The name of the environment around the rows. -/
  environment : Text
  /-- The number of spaces before each row. -/
  indent : Nat
  deriving DecidableEq, Repr

/-- The standard layout. -/
def RowStyle.standard : RowStyle := ⟨"align".toList, 4⟩

namespace Equation

/-! ## The equation -/

/-- The text between `opening` and `closing`, if it begins and ends with them. -/
def between? (opening closing t : Text) : Option Text :=
  match Text.dropPrefix? opening t with
  | some rest =>
      if closing.isSuffixOf rest then some (rest.take (rest.length - closing.length)) else none
  | none => none

/-- The signs that an equation may stand between. -/
def signs : List (Text × Text) :=
  [("$$".toList, "$$".toList), ("\\[".toList, "\\]".toList), ("$".toList, "$".toList)]

/-- The equation between its signs, or the text as it is if it has none. -/
def inner (t : Text) : Text :=
  (signs.findSome? fun (opening, closing) => between? opening closing (Text.trim t)).getD t

/-! ## Where it is split -/

/-- Whether an equation is split at a token with the tokens `rest` after it: at an `=` outside of
every group, as far as the counter shows, that something follows. -/
def isBreak (t : Token) (rest : List Token) : Bool :=
  t.kind = .operator '=' && t.counter ≤ 0 && rest.any (!·.isBlank)

/-- The offsets of the tokens where an equation is split. -/
def breaksOf : List Token → List Nat
  | [] => []
  | t :: ts => if isBreak t ts then t.position :: breaksOf ts else breaksOf ts

/-- The offsets where an equation is split. -/
def breaks (t : Text) : List Nat := breaksOf (scan t)

/-- The text before the first break, and the texts after each of the breaks. -/
def segmentsOf : List Token → Text × List Text
  | [] => ([], [])
  | t :: ts =>
      let (head, tail) := segmentsOf ts
      if isBreak t ts then ([], head :: tail) else (t.text ++ head, tail)

/-! ## The rows -/

/-- Part of a row, with the comment that ends it taken off. -/
structure Part where
  code : Text
  comment : Option Text
  deriving DecidableEq, Repr

/-- Takes the comment that runs to the end of a text off it. -/
def Part.ofText (t : Text) : Part :=
  let ls := lex t
  match ls.getLast? with
  | some l =>
      if l.kind = .comment then ⟨Text.trimEnd (Lexeme.join ls.dropLast), some l.text⟩ else ⟨t, none⟩
  | none => ⟨t, none⟩

/-- Words with a space between any two of them, empty words left out. -/
def joinWords (words : List Text) : Text :=
  [' '].intercalate (words.filter (· ≠ []))

/-- A row of the split equation. -/
structure Row where
  code : Text
  comments : List Text
  deriving DecidableEq, Repr

/-- The row of both sides of the first break. -/
def firstRow (left right : Part) : Row :=
  ⟨joinWords [left.code, "&=".toList, right.code], left.comment.toList ++ right.comment.toList⟩

/-- The row of a further break. -/
def furtherRow (right : Part) : Row :=
  ⟨joinWords ["&=".toList, right.code], right.comment.toList⟩

/-- A row with its comments at the end, and a row break before them unless it is the last row. -/
def Row.render (row : Row) (last : Bool) : Text :=
  row.code ++ (if last then [] else " \\\\".toList) ++ row.comments.flatMap (' ' :: ·)

/-- The rows in order, all but the last with a row break. -/
def renderRows : List Row → List Text
  | [] => []
  | [row] => [row.render true]
  | row :: next :: rows => row.render false :: renderRows (next :: rows)

/-- The lines of a split equation: the rows, indented, in their environment. -/
def layOut (style : RowStyle) (rows : List Row) : Text :=
  let indent := List.replicate style.indent ' '
  Environment.openingTag style.environment ++
    (renderRows rows).flatMap (fun row => '\n' :: indent ++ row) ++
    '\n' :: Environment.closingTag style.environment

/-- The split equation, or `none` if there is nothing to split. -/
def split? (style : RowStyle) (t : Text) : Option Text :=
  match segmentsOf (scan (inner t)) with
  | (left, right :: further) =>
      let part (t : Text) : Part := Part.ofText (Text.trim t)
      some (layOut style
        (firstRow (part left) (part right) :: further.map fun t => furtherRow (part t)))
  | (_, []) => none

/-- The split equation, or the text as it is. -/
def split (style : RowStyle) (t : Text) : Text := (split? style t).getD t

end Equation

end MathEdit
