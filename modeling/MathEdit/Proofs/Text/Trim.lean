import Mathlib.Data.List.TakeWhile
import MathEdit.Text.Blank
import MathEdit.Proofs.Text.Runs

/-! # Trimmed texts

Trimming takes whitespace off the ends of a text and leaves what stands between them. -/

namespace MathEdit.Text

variable {s u : Text}

/-- Trimming at the end takes characters away and adds none. -/
theorem trimEnd_sublist (t : Text) : (trimEnd t).Sublist t :=
  List.reverse_sublist.1 (by simpa [trimEnd] using List.dropWhile_sublist _)

/-- So does trimming on both sides. -/
theorem trim_sublist (t : Text) : (trim t).Sublist t :=
  (trimEnd_sublist (trimStart t)).trans (List.dropWhile_sublist _)

/-- Nothing is left of the blank texts. -/
theorem trim_eq_nil_iff {t : Text} : trim t = [] ↔ ∀ c ∈ t, isBlank c = true := by
  rw [← List.dropWhile_eq_nil_iff, ← trimStart, trim, trimEnd, List.reverse_eq_nil_iff,
    List.dropWhile_eq_nil_iff]
  constructor
  · intro h
    by_contra hne
    -- the first character that is left is not blank
    have hfirst : isBlank ((trimStart t).head hne) = false := List.head_dropWhile_not isBlank hne
    rw [h _ (List.mem_reverse.2 (List.head_mem hne))] at hfirst
    cases hfirst
  · intro h
    simp [h]

/-- A text is its trimmed part and the whitespace behind it. -/
theorem exists_trimEnd_append (t : Text) :
    ∃ blanks, t = trimEnd t ++ blanks ∧ ∀ c ∈ blanks, isBlank c = true := by
  refine ⟨(t.reverse.takeWhile isBlank).reverse, ?_, ?_⟩
  · rw [trimEnd, ← List.reverse_append, List.takeWhile_append_dropWhile, List.reverse_reverse]
  · intro c hc
    exact List.mem_takeWhile_imp (List.mem_reverse.1 hc)

/-- What is trimmed at the end is the front of the text. -/
theorem trimEnd_prefix_self (t : Text) : trimEnd t <+: t := by
  obtain ⟨blanks, hsplit, -⟩ := exists_trimEnd_append t
  exact ⟨blanks, hsplit.symm⟩

/-- Trimming stops at text that is not blank. -/
theorem trim_append_append (hs : ∃ c ∈ s, isBlank c = false) (hu : ∃ c ∈ u, isBlank c = false)
    (t : Text) : trim (s ++ t ++ u) = trimStart s ++ t ++ trimEnd u := by
  have hs : s.dropWhile isBlank ≠ [] := by simpa [List.dropWhile_eq_nil_iff] using hs
  have hu : u.reverse.dropWhile isBlank ≠ [] := by simpa [List.dropWhile_eq_nil_iff] using hu
  rw [trim, trimStart, List.append_assoc, dropWhile_append_of_stops hs, ← List.append_assoc,
    trimEnd, List.reverse_append, dropWhile_append_of_stops hu, List.reverse_append,
    List.reverse_reverse]
  rfl

end MathEdit.Text
