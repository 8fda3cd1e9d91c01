import MathEdit.Json.Lexeme
import MathEdit.Proofs.Text.Runs
import Mathlib.Data.List.Basic

/-! # Numbers of JSON

An integer has one spelling, its digits behind a minus sign if it is negative. With a fraction or an
exponent there are more, and minus zero is among these numbers too. The reader takes as many
characters as can belong to a number, so a number ends where a character follows that cannot.

* **`IsDecimal`**: how the numbers other than integers are spelled.
* **`natOfDigits_digits`**, **`head?_digits`**: digits without a leading zero.
* **`isToken_number`**: a number is read up to its end, with its value. -/

namespace MathEdit.Json

/-! ## How numbers are spelled -/

/-- Whether a text consists of digits. -/
def IsDigits (t : Text) : Prop := t ≠ [] ∧ ∀ c ∈ t, c.isDigit = true

/-- The ways to spell a fraction: not at all, or as digits behind a point. -/
inductive IsFraction : Text → Prop where
  | none : IsFraction []
  | digits {ds : Text} (h : IsDigits ds) : IsFraction ('.' :: ds)

/-- The ways to spell an exponent: not at all, or as digits behind an `e` and perhaps a sign. -/
inductive IsExponent : Text → Prop where
  | none : IsExponent []
  | digits {e : Char} {sign ds : Text} (he : e = 'e' ∨ e = 'E')
      (hsign : sign = [] ∨ sign = ['+'] ∨ sign = ['-']) (h : IsDigits ds) :
      IsExponent (e :: (sign ++ ds))

/-- The sign of a number. -/
def signText (negative : Bool) : Text := if negative then ['-'] else []

/-- The ways to spell a number that is not an integer: with a fraction, with an exponent, or as
minus zero. -/
inductive IsDecimal : Text → Prop where
  | parts (negative : Bool) (n : Nat) {fraction exponent : Text} (hfraction : IsFraction fraction)
      (hexponent : IsExponent exponent)
      (h : fraction ≠ [] ∨ exponent ≠ [] ∨ negative = true ∧ n = 0) :
      IsDecimal (signText negative ++ digits n ++ fraction ++ exponent)

/-- Whether a text begins with nothing that belongs to a number or a word: it is empty, or begins
with a space or with a sign that comes behind a value or a key. -/
def Ends (rest : Text) : Prop :=
  ∀ c ∈ rest.head?, isSpace c = true ∨ c = ',' ∨ c = ':' ∨ c = ']' ∨ c = '}'

/-! ## Digits -/

variable {ds fraction exponent rest : Text} {n : Nat} {c : Char}

/-- A number is written in digits. -/
theorem isDigits_digits (n : Nat) : IsDigits (digits n) :=
  ⟨by simp [digits], fun _ hc => Nat.isDigit_of_mem_toDigits (by decide) (by decide) hc⟩

/-- Digits spell the number that they are the digits of. -/
theorem natOfDigits_digits (n : Nat) : natOfDigits (digits n) = n :=
  Nat.ofDigitChars_toDigits (by decide) (by decide)

/-- Only zero begins with a zero. -/
theorem head?_digits (hn : 0 < n) : (digits n).head? ≠ some '0' := by
  induction n using Nat.strongRecOn with
  | ind n ih =>
      by_cases hten : n < 10
      · have hdigit : ∀ m < 10, 0 < m → [Nat.digitChar m].head? ≠ some '0' := by decide
        rw [digits, Nat.toDigits_of_lt_base hten]
        exact hdigit n hten hn
      · -- the digits in front of the last one are those of a smaller number
        have hsplit : digits n = digits (n / 10) ++ digits (n % 10) := by
          have h := Nat.toDigits_append_toDigits (b := 10) (n := n / 10) (d := n % 10)
            (by decide) (by omega) (by omega)
          rw [Nat.div_add_mod] at h
          exact h.symm
        rw [hsplit, List.head?_append_of_ne_nil _ (isDigits_digits _).1]
        exact ih (n / 10) (by omega) (by omega)

/-- Digits are read up to the first character that is none. -/
theorem digits?_append (h : IsDigits ds) (hrest : ∀ c ∈ rest.head?, c.isDigit = false) :
    digits? (ds ++ rest) = some (ds, rest) := by
  rw [digits?, Text.takeWhile_append_of_all h.2 hrest, Text.dropWhile_append_of_all h.2 hrest,
    if_neg h.1]

/-! ## Numbers -/

/-- What can follow a number goes on with no part of it. -/
theorem Ends.of_mem_head? (h : Ends rest) (hc : c ∈ rest.head?) :
    c.isDigit = false ∧ c ≠ '.' ∧ c ≠ 'e' ∧ c ≠ 'E' := by
  have hend := h c hc
  simp only [isSpace, Bool.or_eq_true, decide_eq_true_eq] at hend
  rcases hend with (((rfl | rfl) | rfl) | rfl) | rfl | rfl | rfl | rfl <;> decide

/-- A fraction is read up to where neither a digit nor a point comes. -/
theorem fraction?_append (h : IsFraction fraction)
    (hrest : ∀ c ∈ rest.head?, c.isDigit = false ∧ c ≠ '.') :
    fraction? (fraction ++ rest) = some (fraction, rest) := by
  cases h with
  | none =>
      cases rest with
      | nil => rfl
      | cons c rest =>
          rw [List.nil_append, fraction?]
          rintro _ ⟨⟩
          exact (hrest '.' rfl).2 rfl
  | digits h =>
      rw [List.cons_append, fraction?, digits?_append h fun c hc => (hrest c hc).1]
      rfl

/-- An exponent is read up to where neither a digit nor an `e` comes. -/
theorem exponent?_append (h : IsExponent exponent)
    (hrest : ∀ c ∈ rest.head?, c.isDigit = false ∧ c ≠ 'e' ∧ c ≠ 'E') :
    exponent? (exponent ++ rest) = some (exponent, rest) := by
  cases h with
  | none =>
      cases rest with
      | nil => rfl
      | cons c rest =>
          obtain ⟨-, he, hE⟩ := hrest c rfl
          rw [List.nil_append, exponent?.eq_def]
          dsimp only
          rw [if_neg (by simp [he, hE])]
  | @digits e sign ds he hsign h =>
      have hrest' : ∀ c ∈ rest.head?, c.isDigit = false := fun c hc => (hrest c hc).1
      obtain ⟨d, ds, rfl⟩ := List.exists_cons_of_ne_nil h.1
      have hd : d ≠ '+' ∧ d ≠ '-' := by
        have hdigit : d.isDigit = true := h.2 d List.mem_cons_self
        constructor <;> rintro rfl <;> cases hdigit
      rw [List.cons_append, exponent?.eq_def]
      dsimp only
      rw [if_pos (by simpa using he)]
      -- without a sign, with plus and with minus
      rcases hsign with rfl | rfl | rfl
      · rw [List.nil_append, List.cons_append]
        dsimp only
        rw [if_neg (by simp [hd]), ← List.cons_append, digits?_append h hrest']
        rfl
      · rw [List.append_assoc, List.singleton_append]
        dsimp only
        rw [if_pos (by decide), digits?_append h hrest']
        rfl
      · rw [List.append_assoc, List.singleton_append]
        dsimp only
        rw [if_pos (by decide), digits?_append h hrest']
        rfl

/-- A fraction, or what comes behind it, does not begin with a digit. -/
theorem IsFraction.of_mem_head? (h : IsFraction fraction)
    (hrest : ∀ c ∈ rest.head?, c.isDigit = false)
    (hc : c ∈ (fraction ++ rest).head?) : c.isDigit = false := by
  cases h with
  | none => exact hrest c hc
  | digits =>
      obtain ⟨⟩ := hc
      rfl

/-- An exponent, or what comes behind it, begins with neither a digit nor a point. -/
theorem IsExponent.of_mem_head? (h : IsExponent exponent)
    (hrest : ∀ c ∈ rest.head?, c.isDigit = false ∧ c ≠ '.') (hc : c ∈ (exponent ++ rest).head?) :
    c.isDigit = false ∧ c ≠ '.' := by
  cases h with
  | none => exact hrest c hc
  | digits he =>
      obtain ⟨⟩ := hc
      rcases he with rfl | rfl <;> decide

/-- The value of a number by its parts. -/
def valueOfParts (negative : Bool) (n : Nat) (fraction exponent : Text) : Json Str :=
  if fraction = [] && exponent = [] && !(negative && n = 0) then
    .integer (if negative then -n else n)
  else .decimal (signText negative ++ digits n ++ fraction ++ exponent)

/-- The parts of a number are read up to its end. -/
theorem number?_append (negative : Bool) (n : Nat) (hfraction : IsFraction fraction)
    (hexponent : IsExponent exponent) (hrest : Ends rest) :
    number? negative (digits n ++ fraction ++ exponent ++ rest) =
      some (valueOfParts negative n fraction exponent, rest) := by
  have hend : ∀ c ∈ rest.head?, c.isDigit = false ∧ c ≠ '.' ∧ c ≠ 'e' ∧ c ≠ 'E' :=
    fun c hc => hrest.of_mem_head? hc
  have hexponent' : ∀ c ∈ (exponent ++ rest).head?, c.isDigit = false ∧ c ≠ '.' := fun c hc =>
    hexponent.of_mem_head? (fun c hc => ⟨(hend c hc).1, (hend c hc).2.1⟩) hc
  have hwhole : ∀ c ∈ (fraction ++ (exponent ++ rest)).head?, c.isDigit = false := fun c hc =>
    hfraction.of_mem_head? (fun c hc => (hexponent' c hc).1) hc
  -- a number that starts with zero is zero
  have hzero : ¬ (decide ((digits n).head? = some '0') && decide (digits n ≠ ['0'])) = true := by
    simp only [Bool.and_eq_true, decide_eq_true_eq]
    rintro ⟨hhead, hne⟩
    rcases Nat.eq_zero_or_pos n with rfl | hn
    · exact hne rfl
    · exact head?_digits hn hhead
  -- each part is read up to the next one
  have hread := digits?_append (isDigits_digits n) hwhole
  have hreadFraction := fraction?_append hfraction hexponent'
  have hreadExponent := exponent?_append hexponent
    fun c hc => ⟨(hend c hc).1, (hend c hc).2.2⟩
  rw [number?, List.append_assoc, List.append_assoc, hread]
  simp only [Option.bind_eq_bind, Option.bind_some, if_neg hzero, hreadFraction, hreadExponent,
    natOfDigits_digits]
  rfl

/-! ## Tokens -/

/-- Whether a text is one token where a value or a key ends behind it. -/
def IsToken (t : Text) (k : Token) : Prop :=
  ∃ c u, t = c :: u ∧ isSpace c = false ∧ ∀ rest, Ends rest → token? c (u ++ rest) = some (k, rest)

/-- A digit is the first character of a number. -/
theorem token?_of_isDigit (hc : c.isDigit = true) (t : Text) :
    token? c t = (number? false (c :: t)).map fun (value, rest) => (.scalar value, rest) := by
  unfold token?
  split
  iterate 11 cases hc
  rfl

/-- **A number** is one token, with the value that its parts have. -/
theorem isToken_number (negative : Bool) (n : Nat) (hfraction : IsFraction fraction)
    (hexponent : IsExponent exponent) :
    IsToken (signText negative ++ digits n ++ fraction ++ exponent)
      (.scalar (valueOfParts negative n fraction exponent)) := by
  cases negative with
  | true =>
      refine ⟨'-', digits n ++ fraction ++ exponent, by simp [signText], rfl, fun rest hrest => ?_⟩
      rw [token?, number?_append true n hfraction hexponent hrest]
      rfl
  | false =>
      -- without a sign the token starts with a digit
      obtain ⟨d, ds, hd⟩ := List.exists_cons_of_ne_nil (isDigits_digits n).1
      have hdigit : d.isDigit = true :=
        (isDigits_digits n).2 d (by rw [hd]; exact List.mem_cons_self)
      have hspace : isSpace d = false := by
        refine Bool.eq_false_iff.2 fun hspace => ?_
        simp only [isSpace, Bool.or_eq_true, decide_eq_true_eq] at hspace
        rcases hspace with ((rfl | rfl) | rfl) | rfl <;> cases hdigit
      refine ⟨d, ds ++ fraction ++ exponent, by simp [signText, hd], hspace, fun rest hrest => ?_⟩
      have hread := number?_append false n hfraction hexponent hrest
      rw [hd, List.cons_append, List.cons_append, List.cons_append] at hread
      rw [token?_of_isDigit hdigit, hread]
      rfl

/-- An integer is read back as it is written. -/
theorem isToken_integer (n : Int) : IsToken (integerText n) (.scalar (.integer n)) := by
  cases n with
  | ofNat m =>
      have hnumber := isToken_number false m .none .none
      simp only [List.append_nil] at hnumber
      exact hnumber
  | negSucc m =>
      have hnumber := isToken_number true (m + 1) .none .none
      have hvalue : valueOfParts true (m + 1) [] [] = .integer (Int.negSucc m) := by
        simp [valueOfParts, Int.negSucc_eq]
      have htext : integerText (Int.negSucc m) = signText true ++ digits (m + 1) :=
        if_pos (Int.negSucc_lt_zero m)
      simp only [List.append_nil] at hnumber
      rwa [htext, ← hvalue]

/-- So is any other number, with its spelling kept. -/
theorem isToken_decimal {t : Text} (h : IsDecimal t) : IsToken t (.scalar (.decimal t)) := by
  cases h with
  | @parts negative n fraction exponent hfraction hexponent h =>
      have hvalue : valueOfParts negative n fraction exponent =
          .decimal (signText negative ++ digits n ++ fraction ++ exponent) := by
        refine if_neg fun hinteger => ?_
        simp only [Bool.and_eq_true, decide_eq_true_eq, Bool.not_eq_true', Bool.and_eq_false_iff,
          decide_eq_false_iff_not] at hinteger
        obtain ⟨⟨hf, he⟩, hzero⟩ := hinteger
        rcases h with h | h | ⟨hsign, hn⟩
        · exact h hf
        · exact h he
        · simp [hsign, hn] at hzero
      rw [← hvalue]
      exact isToken_number negative n hfraction hexponent

end MathEdit.Json
