import MathEdit.Text.Blank
import MathEdit.Token

/-! # Scanning math source

`lex` cuts a text into lexemes from left to right, and `scan` puts them at their places. Every text
has a scan: source that is malformed only shows in the depths.

* **`Lexeme.first c t`**: the first lexeme of `c :: t` and the text after it. A lexeme is a single
  sign, a backslash construct, or a maximal run of comment, whitespace or plain characters.
* **`lex t`**: the lexemes of `t`; **`join_lex`** says that their texts make up `t`.
-/

namespace MathEdit

/-- The characters that align or separate terms. -/
def operators : List Char := ['&', '=', '+', '-', '*', '/', '<', '>', ',', ';', ':']

/-- The kind of a character that is a token by itself. -/
def sign? (c : Char) : Option Token.Kind :=
  match c with
  | '{' => some (.opening .brace)
  | '}' => some (.closing .brace)
  | '[' => some (.opening .bracket)
  | ']' => some (.closing .bracket)
  | '(' => some (.opening .paren)
  | ')' => some (.closing .paren)
  | '^' => some (.script '^')
  | '_' => some (.script '_')
  | '$' => some .dollar
  | c => if c ∈ operators then some (.operator c) else none

/-- Whether a character ends a run of plain characters. -/
def isSpecial (c : Char) : Bool :=
  c = '\\' || c = '%' || (sign? c).isSome || Text.isBlank c

/-- Whether a character belongs to the comment that began before it on the line. -/
def inComment (c : Char) : Bool := c ≠ '\n' && c ≠ '\r'

/-- Whether a character ends the name of an environment, rightly or wrongly. -/
def endsName (c : Char) : Bool := c = '}' || c = '{' || c = '\\' || c = '\n' || c = '\r'

/-- The name in the group `{name}` at the front of a text, and the text after the group. The name is
not empty and ends on its line, without braces or backslashes in it. -/
def nameGroup? : Text → Option (Text × Text)
  | '{' :: t =>
      match t.takeWhile (!endsName ·), t.dropWhile (!endsName ·) with
      | [], _ => none
      | name, '}' :: rest => some (name, rest)
      | _, _ => none
  | _ => none

namespace Lexeme

/-- The lexeme of `\name` before the text `rest`, where a name group may follow. -/
def word (name rest : Text) : Lexeme × Text :=
  let plain : Lexeme × Text := (⟨.command name, '\\' :: name⟩, rest)
  let environment (kind : Group → Token.Kind) : Lexeme × Text :=
    match nameGroup? rest with
    | some (env, rest) =>
        (⟨kind (.environment env), '\\' :: name ++ '{' :: env ++ ['}']⟩, rest)
    | none => plain
  if name = "left".toList then (⟨.opening .delimiter, '\\' :: name⟩, rest)
  else if name = "right".toList then (⟨.closing .delimiter, '\\' :: name⟩, rest)
  else if name = "begin".toList then environment .opening
  else if name = "end".toList then environment .closing
  else plain

/-- The lexeme of a backslash before the text given, and what follows it. -/
def backslash : Text → Lexeme × Text
  | [] => (⟨.plain, ['\\']⟩, [])
  | c :: t =>
      if c.isAlpha then word ((c :: t).takeWhile Char.isAlpha) ((c :: t).dropWhile Char.isAlpha)
      else (⟨.escaped c, ['\\', c]⟩, t)

/-- The lexeme of `c` and the characters of a class after it, and what follows them. -/
def run (kind : Token.Kind) (c : Char) (inRun : Char → Bool) (t : Text) : Lexeme × Text :=
  (⟨kind, c :: t.takeWhile inRun⟩, t.dropWhile inRun)

/-- The first lexeme of `c :: t`, and what follows it. -/
def first (c : Char) (t : Text) : Lexeme × Text :=
  if c = '\\' then backslash t
  else match sign? c with
    | some kind => (⟨kind, [c]⟩, t)
    | none =>
        if c = '%' then run .comment c inComment t
        else if Text.isBlank c then run .blank c Text.isBlank t
        else run .plain c (!isSpecial ·) t

/-! ## The parts make up the whole -/

/-- A name group is a name between braces. -/
theorem eq_append_of_nameGroup? {t name rest : Text} (h : nameGroup? t = some (name, rest)) :
    t = '{' :: name ++ '}' :: rest := by
  unfold nameGroup? at h
  split at h
  · next t =>
      split at h
      · simp at h
      · next name' rest' hd _ =>
          obtain ⟨rfl, rfl⟩ := Prod.mk.inj (Option.some.inj h)
          rw [← hd]
          simp
      · simp at h
  · simp at h

/-- A backslash and letters are read as a front of the text. -/
theorem text_append_word (name rest : Text) :
    (word name rest).1.text ++ (word name rest).2 = '\\' :: name ++ rest := by
  simp only [word]
  split
  · rfl
  · split
    · rfl
    · split
      · split
        · next h => simp [eq_append_of_nameGroup? h]
        · rfl
      · split
        · split
          · next h => simp [eq_append_of_nameGroup? h]
          · rfl
        · rfl

/-- So is whatever a backslash begins. -/
theorem text_append_backslash (t : Text) :
    (backslash t).1.text ++ (backslash t).2 = '\\' :: t := by
  unfold backslash
  split
  · rfl
  · split
    · rw [text_append_word, List.cons_append, List.takeWhile_append_dropWhile]
    · rfl

/-- The first lexeme and what follows it make up the text. -/
theorem text_append_first (c : Char) (t : Text) :
    (first c t).1.text ++ (first c t).2 = c :: t := by
  unfold first
  split
  · next h => subst h; exact text_append_backslash t
  · split
    · rfl
    · split
      · simp [run]
      · split <;> simp [run]

/-- Some text is read for a word. -/
theorem text_word_ne_nil (name rest : Text) : (word name rest).1.text ≠ [] := by
  simp only [word]
  repeat' split
  all_goals simp

/-- No lexeme is empty. -/
theorem text_first_ne_nil (c : Char) (t : Text) : (first c t).1.text ≠ [] := by
  unfold first
  split
  · unfold backslash
    split
    · simp
    · split
      · exact text_word_ne_nil _ _
      · simp
  · split
    · simp
    · split
      · simp [run]
      · split <;> simp [run]

/-- A lexeme takes something off the text. -/
theorem length_first_lt (c : Char) (t : Text) : (first c t).2.length < (c :: t).length := by
  have h := congrArg List.length (text_append_first c t)
  have := List.length_pos_iff.2 (text_first_ne_nil c t)
  simp only [List.length_append] at h
  omega

end Lexeme

/-! ## The scan -/

/-- The lexemes of a text, from left to right. -/
def lex : Text → List Lexeme
  | [] => []
  | c :: t => (Lexeme.first c t).1 :: lex (Lexeme.first c t).2
termination_by t => t.length
decreasing_by exact Lexeme.length_first_lt c t

/-- The tokens of a text. -/
def scan (t : Text) : List Token := Token.place 0 0 (lex t)

/-- The depth at the end of a text. -/
def finalDepth (t : Text) : Int := Lexeme.depth (lex t)

/-- There are no lexemes in an empty text. -/
@[simp] theorem lex_nil : lex [] = [] := by rw [lex]

/-- The first lexeme is read, and then those of the rest. -/
theorem lex_cons (c : Char) (t : Text) :
    lex (c :: t) = (Lexeme.first c t).1 :: lex (Lexeme.first c t).2 := by rw [lex]

/-- The lexemes of a text make up the text. -/
@[simp] theorem join_lex (t : Text) : Lexeme.join (lex t) = t := by
  fun_induction lex t with
  | case1 => rfl
  | case2 c t ih =>
      change _ ++ Lexeme.join _ = _
      rw [ih, Lexeme.text_append_first]

/-- The tokens of a text make up the text. -/
@[simp] theorem join_scan (t : Text) : Token.join (scan t) = t := by
  have h : Token.join (scan t) = Lexeme.join ((scan t).map Token.toLexeme) := by
    simp [Token.join, Lexeme.join, List.flatMap_map]
  rw [h, scan, Token.map_toLexeme_place, join_lex]

end MathEdit
