import MathEdit.Json.Lexeme
import Mathlib.Data.List.Basic

/-! # Strings of JSON

A string of JSON spells pieces, and its pieces make up a text. A piece may be spelled in several
ways: as the character itself, with a letter behind a backslash, or by the number of a UTF-16 unit.
A character beyond the basic plane has two units, and a unit that is half of such a pair belongs to
no text alone.

* **`SpellsPieces`**, **`MakesUp`**, **`SpellsString`**: how strings are spelled, without regard to
  the reader.
* **`pieces?_append`**: the reader finds the pieces that are spelled.
* **`joinPieces_eq_some_iff`**: it puts them together to the text that they make up. -/

namespace MathEdit.Json

/-! ## How strings are spelled -/

/-- The ways to spell a piece of a string. -/
inductive SpellsPiece : Text → Piece → Prop where
  | plain {c : Char} (hquote : c ≠ '"') (hbackslash : c ≠ '\\') (hcontrol : 0x20 ≤ c.toNat) :
      SpellsPiece [c] (.char c)
  | letter {e c : Char} (h : escaped? e = some c) : SpellsPiece ['\\', e] (.char c)
  | unit {a b c d : Char} {n : Nat} (h : unit? a b c d = some n) :
      SpellsPiece ['\\', 'u', a, b, c, d] (.unit n)

/-- The ways to spell pieces one after another. -/
inductive SpellsPieces : Text → List Piece → Prop where
  | nil : SpellsPieces [] []
  | cons {t u : Text} {p : Piece} {ps : List Piece} (hp : SpellsPiece t p)
      (hps : SpellsPieces u ps) : SpellsPieces (t ++ u) (p :: ps)

/-- The UTF-16 units of a character. -/
def utf16Units (c : Char) : List Nat :=
  if c.toNat < 0x10000 then [c.toNat]
  else [0xd800 + (c.toNat - 0x10000) / 0x400, 0xdc00 + (c.toNat - 0x10000) % 0x400]

/-- Whether pieces make up a text: each character of it is one piece or given by its units. -/
inductive MakesUp : List Piece → Text → Prop where
  | nil : MakesUp [] []
  | char {ps : List Piece} {s : Text} (c : Char) (h : MakesUp ps s) :
      MakesUp (.char c :: ps) (c :: s)
  | units {ps : List Piece} {s : Text} (c : Char) (h : MakesUp ps s) :
      MakesUp ((utf16Units c).map .unit ++ ps) (c :: s)

/-- The ways to spell a string between quotation marks. It has no value if its pieces make up no
text. -/
inductive SpellsString : Text → Str → Prop where
  | text {t s : Text} {ps : List Piece} (hspells : SpellsPieces t ps) (h : MakesUp ps s) :
      SpellsString ('"' :: t ++ ['"']) (some s)
  | halves {t : Text} {ps : List Piece} (hspells : SpellsPieces t ps) (h : ∀ s, ¬ MakesUp ps s) :
      SpellsString ('"' :: t ++ ['"']) none

/-! ## What the reader finds -/

variable {t s : Text} {ps : List Piece}

/-- **The pieces of a string** are found up to its closing quotation mark. -/
theorem pieces?_append (h : SpellsPieces t ps) (rest : Text) :
    pieces? (t ++ '"' :: rest) = some (ps, rest) := by
  induction h with
  | nil => rfl
  | @cons t u p ps hp hps ih =>
      rw [List.append_assoc]
      cases hp with
      | plain hquote hbackslash hcontrol =>
          rw [List.singleton_append, pieces?, if_neg (Nat.not_lt.2 hcontrol), ih]
          · exact hquote
          · exact fun _ _ _ _ _ heq => absurd heq hbackslash
          · exact fun _ _ heq => absurd heq hbackslash
      | letter h =>
          rw [List.cons_append, List.singleton_append, pieces?, h, ih]
          -- the letter of a unit stands for no character
          rintro _ _ _ _ _ rfl
          cases h
      | unit h =>
          simp only [List.cons_append, List.nil_append, pieces?, h, ih]

/-- The character of a valid number has that number. -/
theorem toNat_ofNat {n : Nat} (h : n.isValidChar) : (Char.ofNat n).toNat = n := by
  rw [Char.ofNat, dif_pos h]
  rfl

/-- A unit that is no half of a pair is the number of its character. -/
theorem utf16Units_ofNat {n : Nat} (h : n < 0xd800 ∨ 0xe000 ≤ n) (hn : n < 0x10000) :
    utf16Units (Char.ofNat n) = [n] := by
  have hvalid : n.isValidChar := by
    rw [Nat.isValidChar]
    omega
  rw [utf16Units, toNat_ofNat hvalid, if_pos hn]

/-- Two halves are the units of the character that they are joined to. -/
theorem utf16Units_of_pair {n m : Nat} (hn : 0xd800 ≤ n) (hn' : n < 0xdc00) (hm : 0xdc00 ≤ m)
    (hm' : m < 0xe000) :
    utf16Units (Char.ofNat (0x10000 + (n - 0xd800) * 0x400 + (m - 0xdc00))) = [n, m] := by
  have hvalid : (0x10000 + (n - 0xd800) * 0x400 + (m - 0xdc00)).isValidChar := by
    rw [Nat.isValidChar]
    omega
  have hhigh : 0xd800 + (0x10000 + (n - 0xd800) * 0x400 + (m - 0xdc00) - 0x10000) / 0x400 = n := by
    omega
  have hlow : 0xdc00 + (0x10000 + (n - 0xd800) * 0x400 + (m - 0xdc00) - 0x10000) % 0x400 = m := by
    omega
  rw [utf16Units, toNat_ofNat hvalid, if_neg (by omega), hhigh, hlow]

/-- The character with some units is found by its number. -/
theorem joinPieces_units (c : Char) (ps : List Piece) :
    joinPieces ((utf16Units c).map .unit ++ ps) = (joinPieces ps).map (c :: ·) := by
  have hvalid : c.toNat < 0xd800 ∨ 0xdfff < c.toNat ∧ c.toNat < 0x110000 := c.valid
  unfold utf16Units
  split
  -- a character of the basic plane is no half of a pair
  · have halone : (decide (c.toNat < 0xd800) || decide (0xe000 ≤ c.toNat)) = true := by
      simp only [Bool.or_eq_true, decide_eq_true_eq]
      omega
    rw [List.map_singleton, List.singleton_append, joinPieces.eq_def]
    dsimp only
    rw [if_pos halone, Char.ofNat_toNat]
  · next hc =>
      have hhalf : ¬ (decide (0xd800 + (c.toNat - 0x10000) / 0x400 < 0xd800) ||
          decide (0xe000 ≤ 0xd800 + (c.toNat - 0x10000) / 0x400)) = true := by
        simp only [Bool.or_eq_true, decide_eq_true_eq]
        omega
      -- a further one is a pair, and its number comes back
      have hpair : (decide (0xd800 + (c.toNat - 0x10000) / 0x400 < 0xdc00) &&
          decide (0xdc00 ≤ 0xdc00 + (c.toNat - 0x10000) % 0x400) &&
          decide (0xdc00 + (c.toNat - 0x10000) % 0x400 < 0xe000)) = true := by
        simp only [Bool.and_eq_true, decide_eq_true_eq]
        omega
      have hnumber : 0x10000 + (0xd800 + (c.toNat - 0x10000) / 0x400 - 0xd800) * 0x400 +
          (0xdc00 + (c.toNat - 0x10000) % 0x400 - 0xdc00) = c.toNat := by omega
      rw [List.map_cons, List.map_singleton, List.cons_append, List.singleton_append, joinPieces,
        if_neg hhalf]
      simp only [if_pos hpair, hnumber, Char.ofNat_toNat]

/-- **The text of a string** is the one that its pieces make up. -/
theorem joinPieces_eq_some_iff (hunits : ∀ n, .unit n ∈ ps → n < 0x10000) :
    joinPieces ps = some s ↔ MakesUp ps s := by
  constructor
  · intro h
    fun_induction joinPieces ps generalizing s with
    | case1 =>
        obtain rfl := Option.some.inj h
        exact .nil
    | case2 c ps ih =>
        obtain ⟨s, hs, rfl⟩ := Option.map_eq_some_iff.1 h
        exact .char c (ih (fun n hn => hunits n (.tail _ hn)) hs)
    -- a unit of its own is a character
    | case3 n ps hn ih =>
        obtain ⟨s, hs, rfl⟩ := Option.map_eq_some_iff.1 h
        have hmakes := ih (fun m hm => hunits m (.tail _ hm)) hs
        have hsingle := utf16Units_ofNat (by simpa using hn) (hunits n List.mem_cons_self)
        simpa [hsingle] using hmakes.units (Char.ofNat n)
    -- two halves are one
    | case4 n hn m rest hm ih =>
        obtain ⟨s, hs, rfl⟩ := Option.map_eq_some_iff.1 h
        have hmakes := ih (fun k hk => hunits k (.tail _ (.tail _ hk))) hs
        simp only [Bool.or_eq_true, Bool.and_eq_true, decide_eq_true_eq, not_or,
          Nat.not_lt, Nat.not_le] at hn hm
        have hpair := utf16Units_of_pair hn.1 hm.1.1 hm.1.2 hm.2
        simpa [hpair] using
          hmakes.units (Char.ofNat (0x10000 + (n - 0xd800) * 0x400 + (m - 0xdc00)))
    | case5 | case6 => cases h
  · intro h
    clear hunits
    induction h with
    | nil => rfl
    | char c _ ih => rw [joinPieces, ih, Option.map_some]
    | units c _ ih => rw [joinPieces_units, ih, Option.map_some]

/-- A hexadecimal digit is worth less than sixteen. -/
theorem hexValue?_lt {c : Char} {n : Nat} (h : hexValue? c = some n) : n < 16 := by
  have hle {a b : Char} (h : a ≤ b) : a.toNat ≤ b.toNat := h
  have hnine : '9'.toNat = 57 ∧ 'f'.toNat = 102 ∧ 'F'.toNat = 70 := by decide
  have hzero : '0'.toNat = 48 ∧ 'a'.toNat = 97 ∧ 'A'.toNat = 65 := by decide
  unfold hexValue? at h
  split at h
  · next hc =>
      have := hle hc.2
      obtain rfl := Option.some.inj h
      omega
  · split at h
    · next hc =>
        have := hle hc.2
        obtain rfl := Option.some.inj h
        omega
    · split at h
      · next hc =>
          have := hle hc.2
          obtain rfl := Option.some.inj h
          omega
      · cases h

/-- Four digits make a number of 16 bits. -/
theorem unit?_lt {a b c d : Char} {n : Nat} (h : unit? a b c d = some n) : n < 0x10000 := by
  simp only [unit?, Option.bind_eq_bind, Option.bind_eq_some_iff, Option.pure_def,
    Option.some.injEq] at h
  obtain ⟨i, hi, j, hj, k, hk, l, hl, rfl⟩ := h
  have := hexValue?_lt hi
  have := hexValue?_lt hj
  have := hexValue?_lt hk
  have := hexValue?_lt hl
  omega

/-- The units of a string have sixteen bits. -/
theorem SpellsPieces.lt_of_mem (h : SpellsPieces t ps) : ∀ n, .unit n ∈ ps → n < 0x10000 := by
  induction h with
  | nil => simp
  | cons hp _ ih =>
      intro n hn
      rcases List.mem_cons.1 hn with rfl | hn
      · cases hp with
        | unit h => exact unit?_lt h
      · exact ih n hn

/-- **A string** is read with its value, and nothing behind it. -/
theorem token?_string {spelling : Text} {s : Str} (h : SpellsString spelling s) :
    ∃ body, spelling = '"' :: body ∧
      ∀ rest, token? '"' (body ++ rest) = some (.string s, rest) := by
  cases h with
  | @text t s ps hspells h =>
      refine ⟨t ++ ['"'], rfl, fun rest => ?_⟩
      rw [List.append_assoc, List.singleton_append, token?, pieces?_append hspells, Option.map_some]
      dsimp only
      rw [(joinPieces_eq_some_iff hspells.lt_of_mem).2 h]
  | @halves t ps hspells h =>
      have hnone : joinPieces ps = none := by
        refine Option.eq_none_iff_forall_ne_some.2 fun s hs => ?_
        exact h s ((joinPieces_eq_some_iff hspells.lt_of_mem).1 hs)
      refine ⟨t ++ ['"'], rfl, fun rest => ?_⟩
      rw [List.append_assoc, List.singleton_append, token?, pieces?_append hspells, Option.map_some]
      dsimp only
      rw [hnone]

end MathEdit.Json
