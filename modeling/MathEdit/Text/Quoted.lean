import MathEdit.Text.Glyph

/-! # Quoted texts

Messages show a name between quotation marks, with escapes that make every character visible: `\0`,
`\t`, `\r` and `\n`, a backslash before the backslash and before a quotation mark, and `\u{…}` with
the hexadecimal code point for a character that has no glyph of its own.
-/

namespace MathEdit.Text

/-- The lower-case hexadecimal digits of a number, without leading zeros. -/
def hexDigits (n : Nat) : Text := Nat.toDigits 16 n

/-- The visible form of one character. -/
def quotedChar (c : Char) : Text :=
  if c = '\x00' then ['\\', '0']
  else if c = '\t' then ['\\', 't']
  else if c = '\r' then ['\\', 'r']
  else if c = '\n' then ['\\', 'n']
  else if c = '\\' || c = '"' then ['\\', c]
  else if hasGlyph c then [c]
  else ['\\', 'u', '{'] ++ hexDigits c.toNat ++ ['}']

/-- A name or a path in a message. -/
def quoted (t : Text) : Text := ['"'] ++ t.flatMap quotedChar ++ ['"']

/-! ## Everything shows -/

/-- Hexadecimal digits are visible. -/
theorem hasGlyph_of_mem_hexDigits {n : Nat} {c : Char} (h : c ∈ hexDigits n) :
    hasGlyph c = true := by
  have hdigit : ∀ d < 16, hasGlyph (Nat.digitChar d) = true := by decide +kernel
  -- the digits are put in front of those that have been found
  have hcore : ∀ (fuel n : Nat) (ds : Text), (∀ c ∈ ds, hasGlyph c = true) →
      ∀ c ∈ Nat.toDigitsCore 16 fuel n ds, hasGlyph c = true := by
    intro fuel
    induction fuel with
    | zero => exact fun n ds hds => hds
    | succ fuel ih =>
        intro n ds hds
        have hcons : ∀ c ∈ (n % 16).digitChar :: ds, hasGlyph c = true :=
          List.forall_mem_cons.2 ⟨hdigit _ (Nat.mod_lt n (by decide)), hds⟩
        rw [Nat.toDigitsCore]
        split
        · exact hcons
        · exact ih _ _ hcons
  exact hcore _ n [] (by simp) c h

/-- The visible form of a character is visible. -/
theorem hasGlyph_of_mem_quotedChar {c d : Char} (h : d ∈ quotedChar c) : hasGlyph d = true := by
  have hsigns : ['\\', '0', 't', 'r', 'n', '"', 'u', '{', '}'].all hasGlyph = true := by
    decide +kernel
  have hfixed {ds : Text} (hds : ds ⊆ ['\\', '0', 't', 'r', 'n', '"', 'u', '{', '}'])
      (hd : d ∈ ds) :
      hasGlyph d = true := List.all_eq_true.1 hsigns d (hds hd)
  unfold quotedChar at h
  split at h
  · exact hfixed (by simp) h
  split at h
  · exact hfixed (by simp) h
  split at h
  · exact hfixed (by simp) h
  split at h
  · exact hfixed (by simp) h
  split at h
  · next hc =>
      rcases Bool.or_eq_true_iff.1 hc with hc | hc <;> rw [of_decide_eq_true hc] at h <;>
        exact hfixed (by simp) h
  split at h
  · next hc => rwa [List.mem_singleton.1 h]
  · rcases List.mem_append.1 h with h | h
    · rcases List.mem_append.1 h with h | h
      · exact hfixed (by simp) h
      · exact hasGlyph_of_mem_hexDigits h
    · exact hfixed (by simp) h

/-- **Quotation makes visible**: every character of a quoted text has a glyph. -/
theorem hasGlyph_of_mem_quoted {t : Text} {c : Char} (h : c ∈ quoted t) : hasGlyph c = true := by
  have hquote : hasGlyph '"' = true := by decide +kernel
  rcases List.mem_append.1 h with h | h
  · rcases List.mem_append.1 h with h | h
    · rwa [List.mem_singleton.1 h]
    · obtain ⟨d, -, hd⟩ := List.mem_flatMap.1 h
      exact hasGlyph_of_mem_quotedChar hd
  · rwa [List.mem_singleton.1 h]

example : quoted "a\n\"é\x7f\"".toList = "\"a\\n\\\"é\\u\x7b7f\x7d\\\"\"".toList := by
  decide +kernel

end MathEdit.Text
