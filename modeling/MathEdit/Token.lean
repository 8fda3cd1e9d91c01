import MathEdit.Text

/-! # Tokens of math source

A `Token.Kind` says what a piece of source is, a `Lexeme` is a kind with its source text, and a
`Token` is a lexeme at its place: a byte offset and a nesting depth. Depth counts openers up and
closers down and is free to fall below zero on unbalanced source. It is an exact count; what the
counter of a scan shows of it, in 32 bits, is `Token.counter`.
-/

namespace MathEdit

/-- The constructs that open and close a level of nesting. -/
inductive Group where
  /-- Braces, `{ … }`. -/
  | brace
  /-- Brackets, `[ … ]`. -/
  | bracket
  /-- Parentheses, `( … )`. -/
  | paren
  /-- An environment, `\begin{name} … \end{name}`. -/
  | environment (name : Text)
  /-- A pair of delimiters that grow, `\left … \right`. -/
  | delimiter
  deriving DecidableEq, Repr

namespace Token

/-- What a piece of source is. -/
inductive Kind where
  | opening (group : Group)
  | closing (group : Group)
  /-- A character that aligns or separates terms. -/
  | operator (sign : Char)
  /-- A script marker, `^` or `_`. -/
  | script (marker : Char)
  /-- A backslash and letters; the name is the letters. -/
  | command (name : Text)
  /-- A backslash and one character that is no letter. -/
  | escaped (character : Char)
  | dollar
  /-- A run of characters without a meaning of their own. -/
  | plain
  | blank
  /-- A `%` and the rest of its line. -/
  | comment
  deriving DecidableEq, Repr

namespace Kind

/-- Whether a token of this kind starts a level of nesting. -/
def isOpening : Kind → Bool
  | opening _ => true
  | _ => false

/-- Whether a token of this kind ends a level of nesting. -/
def isClosing : Kind → Bool
  | closing _ => true
  | _ => false

/-- Whether the kind is one of the single characters `{`, `[` and `(`. -/
def isGroupOpen : Kind → Bool
  | opening .brace | opening .bracket | opening .paren => true
  | _ => false

/-- The row break `\\`. -/
def rowBreak : Kind := escaped '\\'

/-- How the depth changes over a token of this kind. -/
def shift : Kind → Int
  | opening _ => 1
  | closing _ => -1
  | _ => 0

end Kind

end Token

/-- A piece of source with its kind. -/
structure Lexeme where
  kind : Token.Kind
  text : Text
  deriving DecidableEq, Repr

/-- A lexeme at its byte offset and nesting depth. -/
structure Token extends Lexeme where
  position : Nat
  /-- The depth around the token: an opener has the depth before it, a closer the depth after it,
  so the two ends of a group have the same depth. -/
  depth : Int
  deriving DecidableEq, Repr

namespace Token

/-- The length of a token in bytes. -/
def len (t : Token) : Nat := Text.width t.text

/-- The offset just past a token. -/
def stop (t : Token) : Nat := t.position + t.len

/-- What a signed counter of 32 bits shows for a number: above 2³¹ - 1 it goes on at -2³¹, and
below -2³¹ at 2³¹ - 1. -/
def shown (n : Int) : Int := n.bmod UInt32.size

/-- The depth of a token as the counter of the scan shows it. -/
def counter (t : Token) : Int := shown t.depth

/-- The depth of a token on the counter, but never less than zero. -/
def effectiveDepth (t : Token) : Nat := t.counter.toNat

/-- The depth after a token. -/
def depthAfter (t : Token) : Int := if t.kind.isOpening then t.depth + 1 else t.depth

/-- Whether a token takes part in the layout only. -/
def isBlank (t : Token) : Bool := t.kind = .blank

end Token

/-- The source text of a run of lexemes. -/
def Lexeme.join (ls : List Lexeme) : Text := ls.flatMap Lexeme.text

/-- The source text of a run of tokens. -/
def Token.join (ts : List Token) : Text := ts.flatMap fun t => t.text

/-- Puts lexemes at their places: the first one at `position`, with `depth` before it. -/
def Token.place : (position : Nat) → (depth : Int) → List Lexeme → List Token
  | _, _, [] => []
  | position, depth, l :: ls =>
      ⟨l, position, if l.kind.isClosing then depth - 1 else depth⟩ ::
        place (position + Text.width l.text) (depth + l.kind.shift) ls

/-- The depth after a run of lexemes that starts at depth zero. -/
def Lexeme.depth : List Lexeme → Int
  | [] => 0
  | l :: ls => l.kind.shift + depth ls

namespace Token

/-- There are no tokens without lexemes. -/
@[simp] theorem place_nil (position : Nat) (depth : Int) : place position depth [] = [] := rfl

/-- Places are handed on: what comes after a run starts where the run ends. -/
theorem place_append (position : Nat) (depth : Int) (ls ms : List Lexeme) :
    place position depth (ls ++ ms)
      = place position depth ls
        ++ place (position + Text.width (Lexeme.join ls)) (depth + Lexeme.depth ls) ms := by
  induction ls generalizing position depth with
  | nil => simp [Lexeme.join, Lexeme.depth]
  | cons l ls ih => simp [place, ih, Lexeme.join, Lexeme.depth, Nat.add_assoc, Int.add_assoc]

/-- Placing changes no lexeme. -/
@[simp] theorem map_toLexeme_place (position : Nat) (depth : Int) (ls : List Lexeme) :
    (place position depth ls).map Token.toLexeme = ls := by
  induction ls generalizing position depth with
  | nil => rfl
  | cons l ls ih => simp [place, ih]

/-- A token does not stop before it starts. -/
theorem position_le_stop (t : Token) : t.position ≤ t.stop := Nat.le_add_right _ _

/-- No token reaches past the end of the source. -/
theorem stop_le_of_mem_place {position : Nat} {depth : Int} {ls : List Lexeme} {t : Token}
    (h : t ∈ place position depth ls) : t.stop ≤ position + Text.width (Lexeme.join ls) := by
  induction ls generalizing position depth with
  | nil => simp at h
  | cons l ls ih =>
      simp only [place, List.mem_cons] at h
      simp only [Lexeme.join, List.flatMap_cons, Text.width, Text.measure_append] at *
      rcases h with rfl | h
      · simp only [stop, len, Text.width]
        omega
      · have := ih h
        omega

end Token

end MathEdit
