import MathEdit.References
import MathEdit.Proofs.Text.Trim
import Mathlib.Data.List.Infix
import Mathlib.Data.List.TakeWhile

/-! # Lines

The lines of a text hold no newline, so a join of lines has one newline less than it has lines.
Trimming takes none of them if the first line and the last one are not blank.
-/

namespace MathEdit.Text

variable {s t u l line first last : Text} {inside lines : List Text}

/-- A piece between two places of a character does not have the character. -/
theorem not_mem_of_mem_splitOnP {p : Char → Bool} (h : l ∈ t.splitOnP p) :
    ∀ c ∈ l, p c = false := by
  induction t generalizing l with
  | nil => simp_all
  | cons c t ih =>
      -- a separator starts a new piece, any other character joins the first one
      rw [List.splitOnP_cons_eq_if_modifyHead] at h
      split at h
      · obtain rfl | h := List.mem_cons.1 h
        · simp
        · exact ih h
      · next hc =>
          obtain ⟨piece, pieces, hpieces⟩ := List.exists_cons_of_ne_nil (List.splitOnP_ne_nil p t)
          rw [hpieces, List.modifyHead_cons] at h
          obtain rfl | h := List.mem_cons.1 h
          · have hpiece := ih (hpieces ▸ List.mem_cons_self)
            simpa [hc] using hpiece
          · exact ih (hpieces ▸ List.mem_cons_of_mem piece h)

/-- No line has a newline in it. -/
theorem newline_not_mem_of_mem_lines (h : l ∈ t.lines) : '\n' ∉ l := by
  have hpieces : ∀ piece ∈ t.splitOn '\n', '\n' ∉ piece := by
    intro piece hpiece hmem
    rw [List.splitOn_eq_splitOnP] at hpiece
    simpa using not_mem_of_mem_splitOnP hpiece _ hmem
  -- a line is a piece, or a piece without its carriage return
  have hended : ∀ line ∈ (t.splitOn '\n').dropLast.map
      (fun l => if l.getLast? = some '\r' then l.dropLast else l), '\n' ∉ line := by
    intro line hline
    obtain ⟨piece, hpiece, rfl⟩ := List.mem_map.1 hline
    have hmem := hpieces piece (List.mem_of_mem_dropLast hpiece)
    split
    · exact mt List.mem_of_mem_dropLast hmem
    · exact hmem
  unfold lines at h
  dsimp only at h
  split at h
  · exact hended l h
  · exact hended l h
  · next last _ hlast =>
      obtain h | h := List.mem_append.1 h
      · exact hended l h
      · obtain rfl := List.mem_singleton.1 h
        exact hpieces l (List.mem_of_getLast? hlast)

/-- A join ends with the last text, and each of the others has a newline after it. -/
theorem intercalate_concat (lines : List Text) (last : Text) :
    ['\n'].intercalate (lines ++ [last]) = lines.flatMap (· ++ ['\n']) ++ last := by
  induction lines with
  | nil => simp
  | cons l lines ih =>
      rw [List.cons_append, List.intercalate_cons_of_ne_nil (by simp), ih]
      simp

/-- Lines put together have a newline between any two. -/
theorem count_newline_intercalate (h : ∀ l ∈ lines, '\n' ∉ l) :
    (['\n'].intercalate lines).count '\n' = lines.length - 1 := by
  induction lines with
  | nil => simp
  | cons l lines ih =>
      have hl : l.count '\n' = 0 := List.count_eq_zero.2 (h l List.mem_cons_self)
      cases lines with
      | nil => simpa using hl
      | cons m lines =>
          rw [List.intercalate_cons_cons, List.count_append, List.count_append, hl,
            ih fun k hk => h k (.tail l hk)]
          simp [Nat.add_comm]

/-- A join keeps its newlines when it is trimmed if its first text and its last are not blank. -/
theorem count_newline_trim_intercalate (h : ∀ l ∈ first :: inside ++ [last], '\n' ∉ l)
    (hfirst : ∃ c ∈ first, isBlank c = false) (hlast : ∃ c ∈ last, isBlank c = false) :
    (trim (['\n'].intercalate (first :: inside ++ [last]))).count '\n' = inside.length + 1 := by
  have hcount := count_newline_intercalate h
  have hfree : '\n' ∉ first ∧ '\n' ∉ last := ⟨h first (by simp), h last (by simp)⟩
  have hstart : '\n' ∉ trimStart first := mt (List.dropWhile_sublist _).mem hfree.1
  have hend : '\n' ∉ trimEnd last := mt (trimEnd_sublist last).mem hfree.2
  -- only blanks of the first and of the last line go, so the newlines between them stay
  rw [intercalate_concat, List.flatMap_cons, List.append_assoc first] at hcount ⊢
  rw [trim_append_append hfirst hlast]
  simp only [List.count_append, List.count_eq_zero.2 hfree.1, List.count_eq_zero.2 hfree.2,
    List.count_eq_zero.2 hstart, List.count_eq_zero.2 hend] at hcount ⊢
  rw [hcount]
  simp

end MathEdit.Text
