import MathEdit.Text

/-! # Atoms of a document

For the search for math a document is a list of atoms: escapes (a backslash and the character after
it), comments (`%` up to the end of the line), and all other characters one by one. A delimiter
counts only where an atom starts, so neither an escaped character nor a comment can be part of one.
-/

namespace MathEdit

/-- A piece of a document that the search for math takes in one step. -/
inductive Atom where
  | plain (c : Char)
  /-- A backslash and the character after it. -/
  | escape (c : Char)
  /-- A `%`, with the characters after it up to the end of the line. -/
  | comment (body : Text)
  /-- A backslash that ends the text. -/
  | backslash
  deriving DecidableEq, Repr

namespace Atom

/-- The source text of an atom. -/
def text : Atom → Text
  | plain c => [c]
  | escape c => ['\\', c]
  | comment body => '%' :: body
  | backslash => ['\\']

/-- The length of an atom in bytes. -/
def width (a : Atom) : Nat := Text.width a.text

/-- The source text of a run of atoms. -/
def join (as : List Atom) : Text := as.flatMap text

/-- No atoms make up the empty text. -/
@[simp] theorem join_nil : join [] = [] := rfl

/-- An atom stands before the text of the atoms behind it. -/
@[simp] theorem join_cons (a : Atom) (as : List Atom) : join (a :: as) = a.text ++ join as := rfl

/-- The texts of two runs of atoms follow on each other. -/
@[simp] theorem join_append (as bs : List Atom) : join (as ++ bs) = join as ++ join bs := by
  simp [join]

end Atom

/-- The atoms of a text. -/
def atoms : Text → List Atom
  | [] => []
  | c :: t =>
      if c = '\\' then
        match t with
        | [] => [.backslash]
        | d :: rest => .escape d :: atoms rest
      else if c = '%' then
        .comment (t.takeWhile (· ≠ '\n')) :: atoms (t.dropWhile (· ≠ '\n'))
      else .plain c :: atoms t
termination_by t => t.length
decreasing_by
  · exact Nat.lt_succ_of_lt (Nat.lt_succ_self _)
  · exact Nat.lt_succ_of_le (List.dropWhile_sublist _).length_le
  · simp

/-- The atoms of a text make up the text. -/
@[simp] theorem join_atoms (t : Text) : Atom.join (atoms t) = t := by
  fun_induction atoms t with
  | case1 => rfl
  | case2 => rfl
  | case3 d rest ih => simp [Atom.text, ih]
  | case4 t _ ih =>
      simp only [ne_eq, decide_not] at ih
      simp [Atom.text, ih]
  | case5 c t _ _ ih => simp [Atom.text, ih]

end MathEdit
