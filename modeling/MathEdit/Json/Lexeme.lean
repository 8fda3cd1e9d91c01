import MathEdit.Json

/-! # The tokens of JSON

`Json.tokens?` cuts a text into the punctuation, literals, numbers and strings of JSON and refuses a
text that does not consist of them. A string is first a list of characters and UTF-16 units, and has
a text if the units pair up.
-/

namespace MathEdit.Json

/-- The value of a string that was read: `none` if half of a surrogate pair stands in it. -/
abbrev Str := Option Text

/-- A token of JSON. -/
inductive Token where
  | leftBrace
  | rightBrace
  | leftBracket
  | rightBracket
  | comma
  | colon
  /-- A literal, a number or a string. -/
  | scalar (value : Json Str)
  | string (value : Str)
  deriving Repr

/-! ## Strings -/

/-- A piece of a string: a character, or a UTF-16 unit given by its number. -/
inductive Piece where
  | char (c : Char)
  | unit (n : Nat)
  deriving DecidableEq, Repr

/-- The value of a hexadecimal digit. -/
def hexValue? (c : Char) : Option Nat :=
  if '0' ≤ c ∧ c ≤ '9' then some (c.toNat - '0'.toNat)
  else if 'a' ≤ c ∧ c ≤ 'f' then some (c.toNat - 'a'.toNat + 10)
  else if 'A' ≤ c ∧ c ≤ 'F' then some (c.toNat - 'A'.toNat + 10)
  else none

/-- The number of four hexadecimal digits. -/
def unit? (a b c d : Char) : Option Nat := do
  return (((← hexValue? a) * 16 + (← hexValue? b)) * 16 + (← hexValue? c)) * 16 + (← hexValue? d)

/-- The character that a backslash and one letter stand for. -/
def escaped? : Char → Option Char
  | '"' => some '"'
  | '\\' => some '\\'
  | '/' => some '/'
  | 'b' => some '\x08'
  | 'f' => some '\x0c'
  | 'n' => some '\n'
  | 'r' => some '\r'
  | 't' => some '\t'
  | _ => none

/-- The pieces of a string up to its closing quotation mark, and the text after that. Control
characters must be escaped. -/
def pieces? : Text → Option (List Piece × Text)
  | '"' :: t => some ([], t)
  | '\\' :: 'u' :: a :: b :: c :: d :: t =>
      match unit? a b c d, pieces? t with
      | some n, some (ps, rest) => some (.unit n :: ps, rest)
      | _, _ => none
  | '\\' :: e :: t =>
      match escaped? e, pieces? t with
      | some c, some (ps, rest) => some (.char c :: ps, rest)
      | _, _ => none
  | c :: t =>
      if c.toNat < 0x20 then none
      else
        match pieces? t with
        | some (ps, rest) => some (.char c :: ps, rest)
        | none => none
  | [] => none

/-- The text of a string, if each leading half of a surrogate pair is followed by a trailing half
and there are no others. -/
def joinPieces : List Piece → Str
  | [] => some []
  | .char c :: ps => (joinPieces ps).map (c :: ·)
  | .unit n :: ps =>
      if n < 0xd800 || 0xe000 ≤ n then (joinPieces ps).map (Char.ofNat n :: ·)
      else
        match ps with
        | .unit m :: rest =>
            if n < 0xdc00 && 0xdc00 ≤ m && m < 0xe000 then
              (joinPieces rest).map
                (Char.ofNat (0x10000 + (n - 0xd800) * 0x400 + (m - 0xdc00)) :: ·)
            else none
        | _ => none

/-! ## Numbers -/

/-- The digits at the front of a text, of which there must be one, and the text after them. -/
def digits? (t : Text) : Option (Text × Text) :=
  if t.takeWhile Char.isDigit = [] then none
  else some (t.takeWhile Char.isDigit, t.dropWhile Char.isDigit)

/-- The fraction at the front of a text, if it has a point, and the text after it. -/
def fraction? : Text → Option (Text × Text)
  | '.' :: t => (digits? t).map fun (ds, rest) => ('.' :: ds, rest)
  | t => some ([], t)

/-- The exponent at the front of a text, if it has an `e`, and the text after it. -/
def exponent? : Text → Option (Text × Text)
  | c :: t =>
      if c = 'e' || c = 'E' then
        match t with
        | s :: u =>
            if s = '+' || s = '-' then (digits? u).map fun (ds, rest) => (c :: s :: ds, rest)
            else (digits? t).map fun (ds, rest) => (c :: ds, rest)
        | [] => none
      else some ([], c :: t)
  | [] => some ([], [])

/-- The number that digits spell. -/
def natOfDigits (ds : Text) : Nat := ds.foldl (fun n c => 10 * n + (c.toNat - '0'.toNat)) 0

/-- The number at the front of a text without its sign, and the text after it. The whole part has no
leading zero. -/
def number? (negative : Bool) (t : Text) : Option (Json Str × Text) := do
  let (whole, rest) ← digits? t
  if whole.head? = some '0' && whole ≠ ['0'] then none
  else
    let (fraction, rest) ← fraction? rest
    let (exponent, rest) ← exponent? rest
    let n := natOfDigits whole
    let value : Json Str :=
      if fraction = [] && exponent = [] && !(negative && n = 0) then
        .integer (if negative then -n else n)
      else .decimal ((if negative then ['-'] else []) ++ whole ++ fraction ++ exponent)
    return (value, rest)

/-! ## Tokens -/

/-- The space between tokens. -/
def isSpace (c : Char) : Bool := c = ' ' || c = '\t' || c = '\n' || c = '\r'

/-- The literal `word` at the front of a text. -/
def literal? (word : String) (value : Json Str) (t : Text) : Option (Token × Text) :=
  (Text.dropPrefix? word.toList t).map fun rest => (.scalar value, rest)

/-- The token at the front of `c :: t`, and the text after it. -/
def token? (c : Char) (t : Text) : Option (Token × Text) :=
  match c with
  | '{' => some (.leftBrace, t)
  | '}' => some (.rightBrace, t)
  | '[' => some (.leftBracket, t)
  | ']' => some (.rightBracket, t)
  | ',' => some (.comma, t)
  | ':' => some (.colon, t)
  | 'n' => literal? "ull" .null t
  | 't' => literal? "rue" (.bool true) t
  | 'f' => literal? "alse" (.bool false) t
  | '"' => (pieces? t).map fun (ps, rest) => (.string (joinPieces ps), rest)
  | '-' => (number? true t).map fun (value, rest) => (.scalar value, rest)
  | c => (number? false (c :: t)).map fun (value, rest) => (.scalar value, rest)

/-- Reading a string takes its closing quotation mark at least, so less is left. -/
theorem length_of_pieces? {t rest : Text} {ps : List Piece} (h : pieces? t = some (ps, rest)) :
    rest.length < t.length := by
  fun_induction pieces? t generalizing ps with
  | case1 t =>
      obtain ⟨-, rfl⟩ := Prod.mk.inj (Option.some.inj h)
      simp
  | case2 a b c d t n ps' rest' hp hn ih =>
      obtain ⟨-, rfl⟩ := Prod.mk.inj (Option.some.inj h)
      have := ih hp
      simp only [List.length_cons]
      omega
  | case3 => simp at h
  | case4 e t _ c ps' rest' hp he ih =>
      obtain ⟨-, rfl⟩ := Prod.mk.inj (Option.some.inj h)
      have := ih hp
      simp only [List.length_cons]
      omega
  | case5 => simp at h
  | case6 => simp at h
  | case7 c t _ _ _ _ ps' rest' hp ih =>
      obtain ⟨-, rfl⟩ := Prod.mk.inj (Option.some.inj h)
      have := ih hp
      simp only [List.length_cons]
      omega
  | case8 => simp at h
  | case9 => simp at h

/-- There is a digit at least, so less is left. -/
theorem length_of_digits? {t ds rest : Text} (h : digits? t = some (ds, rest)) :
    rest.length < t.length := by
  unfold digits? at h
  split at h
  · simp at h
  · next hne =>
      obtain ⟨-, rfl⟩ := Prod.mk.inj (Option.some.inj h)
      have ht := congrArg List.length (List.takeWhile_append_dropWhile (p := Char.isDigit) (l := t))
      have := List.length_pos_iff.2 hne
      rw [List.length_append] at ht
      omega

/-- There may be no fraction, so no more is left. -/
theorem length_of_fraction? {t ds rest : Text} (h : fraction? t = some (ds, rest)) :
    rest.length ≤ t.length := by
  unfold fraction? at h
  split at h
  · obtain ⟨⟨ds', rest'⟩, hd, he⟩ := Option.map_eq_some_iff.1 h
    obtain ⟨-, rfl⟩ := Prod.mk.inj he
    exact Nat.le_succ_of_le (Nat.le_of_lt (length_of_digits? hd))
  · obtain ⟨-, rfl⟩ := Prod.mk.inj (Option.some.inj h)
    exact Nat.le_refl _

/-- Nor need there be an exponent. -/
theorem length_of_exponent? {t ds rest : Text} (h : exponent? t = some (ds, rest)) :
    rest.length ≤ t.length := by
  unfold exponent? at h
  split at h
  · split at h
    · split at h
      · split at h
        · obtain ⟨⟨ds', rest'⟩, hd, he⟩ := Option.map_eq_some_iff.1 h
          obtain ⟨-, rfl⟩ := Prod.mk.inj he
          exact Nat.le_succ_of_le (Nat.le_succ_of_le (Nat.le_of_lt (length_of_digits? hd)))
        · obtain ⟨⟨ds', rest'⟩, hd, he⟩ := Option.map_eq_some_iff.1 h
          obtain ⟨-, rfl⟩ := Prod.mk.inj he
          exact Nat.le_succ_of_le (Nat.le_of_lt (length_of_digits? hd))
      · simp at h
    · obtain ⟨-, rfl⟩ := Prod.mk.inj (Option.some.inj h)
      exact Nat.le_refl _
  · obtain ⟨-, rfl⟩ := Prod.mk.inj (Option.some.inj h)
    exact Nat.le_refl _

/-- A number has digits, so less is left behind it. -/
theorem length_of_number? {negative : Bool} {t rest : Text} {value : Json Str}
    (h : number? negative t = some (value, rest)) : rest.length < t.length := by
  obtain ⟨⟨whole, r⟩, hw, h⟩ := Option.bind_eq_some_iff.1 h
  dsimp only at h
  split at h
  · simp at h
  · obtain ⟨⟨fraction, r'⟩, hf, h⟩ := Option.bind_eq_some_iff.1 h
    obtain ⟨⟨exponent, r''⟩, hx, h⟩ := Option.bind_eq_some_iff.1 h
    obtain ⟨-, rfl⟩ := Prod.mk.inj (Option.some.inj h)
    exact Nat.lt_of_le_of_lt (length_of_exponent? hx)
      (Nat.lt_of_le_of_lt (length_of_fraction? hf) (length_of_digits? hw))

/-- What is left behind a literal is no longer than the text. -/
theorem length_of_literal? {word : String} {value : Json Str} {t rest : Text} {k : Token}
    (h : literal? word value t = some (k, rest)) : rest.length ≤ t.length := by
  obtain ⟨r, hr, he⟩ := Option.map_eq_some_iff.1 h
  obtain ⟨-, rfl⟩ := Prod.mk.inj he
  rw [Text.eq_append_of_dropPrefix? hr, List.length_append]
  omega

/-- A token takes something off the text. -/
theorem length_of_token? {c : Char} {t rest : Text} {k : Token}
    (h : token? c t = some (k, rest)) : rest.length < (c :: t).length := by
  have sign {k' : Token} (h : some (k', t) = some (k, rest)) :
      rest.length < (c :: t).length := by
    obtain ⟨-, rfl⟩ := Prod.mk.inj (Option.some.inj h)
    simp
  unfold token? at h
  split at h
  iterate 6 exact sign h
  iterate 3 exact Nat.lt_succ_of_le (length_of_literal? h)
  · obtain ⟨⟨ps, r⟩, hp, he⟩ := Option.map_eq_some_iff.1 h
    obtain ⟨-, rfl⟩ := Prod.mk.inj he
    exact Nat.lt_succ_of_lt (length_of_pieces? hp)
  · obtain ⟨⟨ps, r⟩, hp, he⟩ := Option.map_eq_some_iff.1 h
    obtain ⟨-, rfl⟩ := Prod.mk.inj he
    exact Nat.lt_succ_of_lt (length_of_number? hp)
  · obtain ⟨⟨ps, r⟩, hp, he⟩ := Option.map_eq_some_iff.1 h
    obtain ⟨-, rfl⟩ := Prod.mk.inj he
    exact length_of_number? hp

/-- The tokens of a text, with the space between them left out. -/
def tokens? (t : Text) : Option (List Token) :=
  match t with
  | [] => some []
  | c :: t =>
      if isSpace c then tokens? t
      else
        match _h : token? c t with
        | some (k, rest) => (tokens? rest).map (k :: ·)
        | none => none
termination_by t.length
decreasing_by
  · simp
  · exact length_of_token? _h

end MathEdit.Json
