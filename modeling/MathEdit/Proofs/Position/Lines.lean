import Mathlib.Data.List.TakeWhile
import MathEdit.Position.LineIndex
import MathEdit.Proofs.Text.Cuts

/-! # The lines of a text

Every place of a text lies on exactly one line, whose number is the count of the line feeds before
the place. The index that is computed from a text answers accordingly.

* **`Text.splitLine?_append`**, **`Text.of_splitLine?`**: the part of a text before a line.
* **`Text.IsLine.eq`**, **`Text.exists_isLine_append`**: the line of a number and that of a place.
* **`LineIndex.describes_ofText`**: the index of a text describes it. -/

namespace MathEdit

namespace Text

variable {t before line after front back start rest : Text} {n : Nat}

/-- What comes before a line starts with a line feed or with more that comes before the line. -/
theorem ends_cons {c : Char} (h : c :: before = [] ∨ (c :: before).getLast? = some '\n') :
    (before = [] ∨ before.getLast? = some '\n') ∧ (c = '\n' ∨ 0 < before.count '\n') := by
  cases before with
  | nil => simpa using h
  | cons b before =>
      rw [List.getLast?_cons_cons] at h
      have hlast := h.resolve_left (List.cons_ne_nil _ _)
      exact ⟨.inr hlast, .inr (List.count_pos_iff.2 (List.mem_of_getLast? hlast))⟩

/-- A line starts behind the line feeds that its number counts. -/
theorem splitLine?_append (h : before = [] ∨ before.getLast? = some '\n') (rest : Text) :
    splitLine? (before.count '\n') (before ++ rest) = some (before, rest) := by
  induction before with
  | nil => cases rest <;> rfl
  | cons c before ih =>
      obtain ⟨hends, hfeed⟩ := ends_cons h
      by_cases hc : c = '\n'
      · simp [hc, splitLine?, ih hends]
      · obtain ⟨n, hn⟩ : ∃ n, before.count '\n' = n + 1 :=
          Nat.exists_eq_add_one.2 (hfeed.resolve_left hc)
        rw [List.count_cons_of_ne hc, List.cons_append, hn, splitLine?, if_neg hc, ← hn, ih hends]
        rfl

/-- The part of a text before a line ends there. -/
theorem of_splitLine? (h : splitLine? n t = some (before, rest)) :
    before ++ rest = t ∧ before.count '\n' = n ∧ (before = [] ∨ before.getLast? = some '\n') := by
  fun_induction splitLine? n t generalizing before with
  | case1 t => simp_all
  | case2 n => simp at h
  | case3 n c t ih =>
      obtain ⟨⟨front, back⟩, hsplit, hpair⟩ := Option.map_eq_some_iff.1 h
      obtain ⟨rfl, rfl⟩ := Prod.mk.inj hpair
      obtain ⟨rfl, hcount, hends⟩ := ih hsplit
      refine ⟨rfl, ?_, .inr ?_⟩
      · by_cases hc : c = '\n' <;> simp_all
      · by_cases hc : c = '\n' <;> cases front <;> simp_all [List.getLast?_cons_cons]

/-- A text has a line just if it has that many line feeds. -/
theorem splitLine?_eq_none_iff : splitLine? n t = none ↔ t.count '\n' < n := by
  induction t generalizing n with
  | nil => cases n <;> simp [splitLine?]
  | cons c t ih =>
      cases n with
      | zero => simp [splitLine?]
      | succ n =>
          rw [splitLine?, Option.map_eq_none_iff, ih, List.count_cons]
          by_cases hc : c = '\n'
          · simp [hc]
          · simp [hc]

/-- The text behind the last line feed holds no line feed. -/
theorem exists_append_lastLine (t : Text) : ∃ start, t = start ++ lastLine t ∧
    (start = [] ∨ start.getLast? = some '\n') ∧ '\n' ∉ lastLine t := by
  refine ⟨(t.reverse.dropWhile (· ≠ '\n')).reverse, ?_, ?_, ?_⟩
  · rw [lastLine, ← List.reverse_append, List.takeWhile_append_dropWhile, List.reverse_reverse]
  · have hstop := head?_dropWhile (p := (· ≠ '\n')) t.reverse
    rw [List.getLast?_reverse, List.reverse_eq_nil_iff]
    cases hd : t.reverse.dropWhile (· ≠ '\n') with
    | nil => exact .inl rfl
    | cons c rest => exact .inr (by simpa using hstop c (by rw [hd]; rfl))
  · intro hmem
    simpa using List.mem_takeWhile_imp (List.mem_reverse.1 hmem)

/-- A line without a line feed, at the start of a line, is the last one. -/
theorem lastLine_append (hstart : start = [] ∨ start.getLast? = some '\n') (h : '\n' ∉ line) :
    lastLine (start ++ line) = line := by
  have hall : ∀ c ∈ line.reverse, (decide (c ≠ '\n')) = true := by
    intro c hc
    exact decide_eq_true fun heq => h (heq ▸ List.mem_reverse.1 hc)
  rw [lastLine, List.reverse_append, takeWhile_append_of_all hall, List.reverse_reverse]
  rcases hstart with rfl | hlast
  · simp
  · simp [hlast]

namespace IsLine

variable (h : t.IsLine n before line after)
include h

/-- A text is split where its line starts. -/
theorem splitLine?_eq : splitLine? n t = some (before, line ++ after) := by
  rw [← h.append_eq, ← h.count_eq]
  exact splitLine?_append h.ends_before _

/-- And the line goes up to the next line end. -/
theorem firstLine_eq : firstLine (line ++ after) = line := by
  have hall : ∀ c ∈ line, (decide (c ≠ '\n')) = true := by
    intro c hc
    exact decide_eq_true fun heq => h.newline_notMem (heq ▸ hc)
  refine takeWhile_append_of_all hall ?_
  rcases h.starts_after with rfl | hfirst
  · simp
  · simp [hfirst]

/-- A text has one line of each number. -/
theorem eq {before' line' after' : Text} (h' : t.IsLine n before' line' after') :
    before = before' ∧ line = line' ∧ after = after' := by
  have hsplit := h.splitLine?_eq.symm.trans h'.splitLine?_eq
  obtain ⟨hbefore, hrest⟩ := Prod.mk.inj (Option.some.inj hsplit)
  have hline : line = line' := by rw [← h.firstLine_eq, hrest, h'.firstLine_eq]
  exact ⟨hbefore, hline, List.append_cancel_left (hline ▸ hrest)⟩

end IsLine

/-- A line goes on to the next line feed. -/
theorem isLine_append (hends : before = [] ∨ before.getLast? = some '\n') (hfree : '\n' ∉ front)
    (back : Text) : (before ++ (front ++ back)).IsLine (before.count '\n') before
      (front ++ firstLine back) (back.dropWhile (· ≠ '\n')) := by
  have hback : firstLine back ++ back.dropWhile (· ≠ '\n') = back :=
    List.takeWhile_append_dropWhile
  refine ⟨by rw [List.append_assoc, hback], rfl, hends, fun hmem => ?_, ?_⟩
  · rcases List.mem_append.1 hmem with hmem | hmem
    · exact hfree hmem
    · simpa using List.mem_takeWhile_imp hmem
  · have hstop := head?_dropWhile (p := (· ≠ '\n')) back
    cases hd : back.dropWhile (· ≠ '\n') with
    | nil => exact .inl rfl
    | cons c rest => exact .inr (by simpa using hstop c (by rw [hd]; rfl))

/-- Every place is on a line. -/
theorem exists_isLine_append (front back : Text) : ∃ before line after,
    (front ++ back).IsLine (front.count '\n') before (lastLine front ++ line) after ∧
      front = before ++ lastLine front := by
  obtain ⟨before, hfront, hends, hfree⟩ := exists_append_lastLine front
  have hline := isLine_append hends hfree back
  have hcount : before.count '\n' = front.count '\n' := by
    rw [hfront, List.count_append, List.count_eq_zero.2 hfree, Nat.add_zero]
  rw [hcount, ← List.append_assoc, ← hfront] at hline
  exact ⟨before, _, _, hline, hfront⟩

/-- A text has a line of each number up to the count of its line feeds. -/
theorem exists_isLine (h : n ≤ t.count '\n') :
    ∃ before line after, t.IsLine n before line after := by
  cases hsplit : splitLine? n t with
  | none => exact absurd (splitLine?_eq_none_iff.1 hsplit) (Nat.not_lt.2 h)
  | some parts =>
      obtain ⟨rfl, rfl, hends⟩ := of_splitLine? hsplit
      have hfree : '\n' ∉ ([] : Text) := List.not_mem_nil
      exact ⟨_, _, _, isLine_append hends hfree parts.2⟩

namespace IsLine

variable {n' : Nat} {before' front' back' after' : Text}
  (h : t.IsLine n before (front ++ back) after)
include h

/-- Up to a place on the line, the front of the line is the last line. -/
theorem lastLine_eq : lastLine (before ++ front) = front :=
  lastLine_append h.ends_before fun hmem => h.newline_notMem (List.mem_append_left _ hmem)

/-- The line feeds up to the place are those before the line. -/
theorem count_append_eq : (before ++ front).count '\n' = n := by
  have hfree : '\n' ∉ front := fun hmem => h.newline_notMem (List.mem_append_left _ hmem)
  rw [List.count_append, List.count_eq_zero.2 hfree, h.count_eq, Nat.add_zero]

/-- A place is on one line only. -/
theorem eq_of_append (h' : t.IsLine n' before' (front' ++ back') after')
    (hplace : before ++ front = before' ++ front') :
    n = n' ∧ before = before' ∧ front = front' := by
  have hfront : front = front' := by rw [← h.lastLine_eq, hplace, h'.lastLine_eq]
  refine ⟨by rw [← h.count_append_eq, hplace, h'.count_append_eq], ?_, hfront⟩
  exact List.append_cancel_right (hfront ▸ hplace)

end IsLine

end Text

/-! ## The index of a text -/

namespace LineIndex

open Text

/-- **The index of a text** describes it. -/
theorem describes_ofText (t : Text) : (ofText t).Describes t where
  lineCol?_of_line {line before front back after} h := by
    -- the offset cuts the text at the place
    have hcut : splitAt? Char.utf8Size (width before + width front) t =
        some (before ++ front, back ++ after) := by
      rw [splitAt?_eq_some_iff, width_append, ← h.append_eq]
      simp
    simp [ofText, hcut, h.count_append_eq, h.lastLine_eq]
  lineCol?_eq_none h := by simp [ofText, h]
  start?_of_line h := by simp [ofText, h.splitLine?_eq]
  start?_eq_none h := by simp [ofText, splitLine?_eq_none_iff.2 h]
  toUnits?_of_line {line before front back after} h := by
    have hcut : splitAt? Char.utf8Size (width front) (front ++ back) = some (front, back) :=
      splitAt?_width_append front back
    have hline := h.firstLine_eq
    simp_all [ofText, h.splitLine?_eq]
  toBytes?_of_line h col := by simp [ofText, h.splitLine?_eq, h.firstLine_eq]

end LineIndex

end MathEdit
