import MathEdit.Environment
import MathEdit.Token.Scan

/-! # Names of environments and their tags -/

namespace MathEdit.Environment

/-- How an opening tag starts. -/
theorem openingStart_eq : openingStart = ['\\', 'b', 'e', 'g', 'i', 'n', '{'] := by cbv

/-- How a closing tag starts. -/
theorem closingStart_eq : closingStart = ['\\', 'e', 'n', 'd', '{'] := by cbv

/-- An opening tag is the command `\begin` with a name group. -/
theorem openingTag_eq (name : Text) :
    openingTag name = '\\' :: "begin".toList ++ '{' :: name ++ ['}'] := by
  rw [openingTag, openingStart_eq]
  rfl

/-- A closing tag is the command `\end` with a name group. -/
theorem closingTag_eq (name : Text) :
    closingTag name = '\\' :: "end".toList ++ '{' :: name ++ ['}'] := by
  rw [closingTag, closingStart_eq]
  rfl

/-- A name is a base and at most a star after it. -/
theorem eq_base_or_eq_append (name : Text) : name = base name ∨ name = base name ++ ['*'] := by
  unfold base
  split
  · next h =>
      obtain ⟨front, rfl⟩ := List.getLast?_eq_some_iff.1 h
      rw [List.dropLast_concat]
      exact .inr rfl
  · exact .inl rfl

/-- A valid name is not empty. -/
theorem ne_nil_of_isName {name : Text} (h : isName name = true) : name ≠ [] := by
  rintro rfl
  simp [isName, base] at h

/-- A name has no character that ends a name group. -/
theorem endsName_of_mem {name : Text} (h : isName name = true) :
    ∀ c ∈ name, endsName c = false := by
  have halpha {c : Char} (hc : c.isAlpha = true) : endsName c = false := by
    rw [← Bool.not_eq_true]
    intro he
    simp only [endsName, Bool.or_eq_true, decide_eq_true_eq] at he
    rcases he with (((rfl | rfl) | rfl) | rfl) | rfl <;> exact absurd hc (by decide)
  simp only [isName, Bool.and_eq_true, List.all_eq_true] at h
  intro c hc
  rcases eq_base_or_eq_append name with hbase | hbase
  · rw [hbase] at hc
    exact halpha (h.2 c hc)
  · rw [hbase, List.mem_append, List.mem_singleton] at hc
    rcases hc with hc | rfl
    · exact halpha (h.2 c hc)
    · rfl

end MathEdit.Environment
