import MathEdit.Proofs.Region.Bytes.Search
import MathEdit.Proofs.Text.Trim

/-! # Windows in bytes

The window around an offset is cut at two offsets that may be inside of characters. In bytes, steps
lead from each of them to a boundary, and a walk back along the newlines leads to the start of a
paragraph, which reads the line between every two of them.

* **`Text.floorBoundary?_eq`**, **`Text.ceilBoundary?_eq`**: the steps come to the cuts that are
  rounded down and up.
* **`Text.paragraphBefore?_eq`**: the walk comes to the start of the last paragraph.
* **`Text.searchWindow?_eq`**: so the window is found. -/

namespace MathEdit

open Region

namespace Text

/-! ## Boundaries -/

/-- A boundary is where a text can be cut in two. -/
theorem isBoundary_iff {n : Nat} {t : Text} :
    isBoundary t n = true ↔ ∃ before after, t = before ++ after ∧ n = width before :=
  isSome_boundary?_iff

/-- A text can be cut at its start. -/
theorem isBoundary_zero (t : Text) : isBoundary t 0 = true := isBoundary_iff.2 ⟨[], t, rfl, rfl⟩

/-- And at its end. -/
theorem isBoundary_width (t : Text) : isBoundary t (width t) = true :=
  isBoundary_iff.2 ⟨t, [], (List.append_nil t).symm, rfl⟩

/-- The boundaries of a text are boundaries behind another character. -/
theorem isBoundary_cons {n : Nat} {t : Text} (h : isBoundary t n = true) (c : Char) :
    isBoundary (c :: t) (c.utf8Size + n) = true := by
  obtain ⟨before, after, rfl, rfl⟩ := isBoundary_iff.1 h
  exact isBoundary_iff.2 ⟨c :: before, after, rfl, rfl⟩

/-- Rounded down, a cut that is at no boundary is the one a byte before. -/
theorem takeBytes_succ {n : Nat} {t : Text} (h : ¬ isBoundary t (n + 1) = true) :
    takeBytes (n + 1) t = takeBytes n t := by
  induction t generalizing n with
  | nil => rfl
  | cons c t ih =>
      rw [takeBytes, takeBytes]
      by_cases hle : c.utf8Size ≤ n
      · have hrest : n + 1 - c.utf8Size = n - c.utf8Size + 1 := by omega
        have hn : c.utf8Size + (n - c.utf8Size + 1) = n + 1 := by omega
        rw [if_pos hle, if_pos (Nat.le_succ_of_le hle), hrest, ih]
        exact fun hb => h (hn ▸ isBoundary_cons hb c)
      · have hne : c.utf8Size ≠ n + 1 := by
          rintro hsize
          exact h (hsize ▸ isBoundary_cons (isBoundary_zero t) c)
        rw [if_neg hle, if_neg (by omega)]

/-- Rounded up, a cut that is at no boundary is the one a byte later. -/
theorem takeBytesUp_succ {n : Nat} {t : Text} (h : ¬ isBoundary t n = true) :
    takeBytesUp (n + 1) t = takeBytesUp n t := by
  induction t generalizing n with
  | nil => rfl
  | cons c t ih =>
      cases n with
      | zero => exact absurd (isBoundary_zero _) h
      | succ n =>
          rw [takeBytesUp, takeBytesUp]
          by_cases hle : c.utf8Size ≤ n + 1
          · have hrest : n + 1 + 1 - c.utf8Size = n + 1 - c.utf8Size + 1 := by omega
            have hn : c.utf8Size + (n + 1 - c.utf8Size) = n + 1 := by omega
            rw [hrest, ih]
            exact fun hb => h (hn ▸ isBoundary_cons hb c)
          · -- both cuts are inside of the character
            rw [Nat.sub_eq_zero_of_le (by omega), Nat.sub_eq_zero_of_le (by omega)]

/-- **Steps back** to a boundary round down. -/
theorem floorBoundary?_eq (t : Text) (n : Nat) :
    floorBoundary? t n = some (width (takeBytes n t)) := by
  induction n with
  | zero =>
      rw [floorBoundary?, if_pos (isBoundary_zero t)]
      exact congrArg some (Nat.le_zero.1 (width_takeBytes_le 0 t)).symm
  | succ n ih =>
      rw [floorBoundary?]
      split_ifs with h
      · obtain ⟨before, after, rfl, hn⟩ := isBoundary_iff.1 h
        rw [hn, takeBytes_width_append]
      · rw [takeBytes_succ h]
        exact ih

/-- **Steps on** to a boundary round up. -/
theorem ceilBoundary?_eq {t : Text} (ht : width t < 2 ^ 32) {n : Nat} (hn : n ≤ width t) :
    ceilBoundary? t n = some (width (takeBytesUp n t)) := by
  -- the end of the text is a boundary, so the induction is on the bytes up to there
  induction hn using Nat.decreasingInduction with
  | self =>
      rw [ceilBoundary?, if_pos (isBoundary_width t)]
      have h := takeBytesUp_width_append t []
      rw [List.append_nil] at h
      rw [h]
  | of_succ n hlt ih =>
      rw [ceilBoundary?]
      split_ifs with h
      · obtain ⟨before, after, rfl, hn⟩ := isBoundary_iff.1 h
        rw [hn, takeBytesUp_width_append]
      · rw [Word.add?_eq (by omega), Word.ahead?_eq (Nat.lt_succ_self n),
          ← takeBytesUp_succ h]
        exact ih

/-! ## Blank lines -/

/-- The newlines of two texts are those of one and then those of the other. -/
theorem newlines_append (position : Nat) (s t : Text) :
    newlines position (s ++ t) = newlines position s ++ newlines (position + width s) t := by
  induction s generalizing position with
  | nil => rfl
  | cons c s ih =>
      have hwidth : position + width (c :: s) = position + c.utf8Size + width s :=
        (Nat.add_assoc ..).symm
      rw [List.cons_append, newlines, newlines, ih, hwidth]
      split_ifs <;> rfl

end Text

namespace Region

/-- A text has one last paragraph. -/
theorem IsParagraphStart.unique {s : Text} {m n : Nat} (hm : IsParagraphStart s m)
    (hn : IsParagraphStart s n) : m = n := by
  have hle {m n : Nat} (hm : IsParagraphStart s m) (hn : IsParagraphStart s n) : m ≤ n := by
    rcases hm.1 with rfl | ⟨a, b, hab, ha, rfl⟩
    · exact Nat.zero_le n
    · exact hn.2 a b hab ha
  exact Nat.le_antisymm (hle hm hn) (hle hn hm)

/-- Characters of the same line start no paragraph. -/
theorem IsParagraphStart.append_line {s : Text} {n : Nat} (h : IsParagraphStart s n) {line : Text}
    (hline : '\n' ∉ line) : IsParagraphStart (s ++ line) n := by
  induction line generalizing s with
  | nil => rwa [List.append_nil]
  | cons c line ih =>
      rw [List.append_cons]
      refine ih (isParagraphStart_append h ?_) fun hmem => hline (List.mem_cons_of_mem c hmem)
      rintro ⟨front, hfront, -⟩
      have hc := (List.cons.inj (List.append_inj' hfront rfl).2).1
      exact hline (hc ▸ List.mem_cons_self)

/-- A line behind a newline is blank if its characters are. -/
theorem onBlankLine_append_line {line : Text} (hline : '\n' ∉ line) (s : Text) :
    OnBlankLine (s ++ '\n' :: line) ↔ ∀ c ∈ line, Text.isBlank c = true := by
  induction line using List.reverseRecOn with
  | nil => simp [onBlankLine_newline]
  | append_singleton line c ih =>
      rw [List.mem_append, List.mem_singleton, not_or] at hline
      rw [← List.cons_append, ← List.append_assoc, onBlankLine_append (Ne.symm hline.2),
        ih hline.1, List.forall_mem_append, List.forall_mem_singleton]

/-- The next newline starts a paragraph if the line before it is blank. -/
theorem IsParagraphStart.newline {s : Text} {n : Nat} (h : IsParagraphStart (s ++ ['\n']) n)
    {line : Text} (hline : '\n' ∉ line) :
    IsParagraphStart (s ++ '\n' :: line ++ ['\n'])
      (if Text.trim line = [] then Text.width (s ++ '\n' :: line) + 1 else n) := by
  have hblank := onBlankLine_append_line hline s
  rw [← Text.trim_eq_nil_iff] at hblank
  split_ifs with htrim
  · have hwidth : Text.width (s ++ '\n' :: line) + 1 =
        Text.width (s ++ '\n' :: line ++ ['\n']) := (Text.width_append _ ['\n']).symm
    rw [hwidth]
    exact isParagraphStart_of_ends ⟨_, rfl, hblank.2 htrim⟩
  · have hsame : IsParagraphStart (s ++ '\n' :: line) n := by
      rw [List.append_cons]
      exact h.append_line hline
    -- the newline ends no blank line
    refine isParagraphStart_append hsame ?_
    rintro ⟨front, hfront, hends⟩
    obtain rfl := (List.append_inj' hfront rfl).1
    exact htrim (hblank.1 hends)

/-- The first newline starts no paragraph. -/
theorem isParagraphStart_first {line : Text} (hline : '\n' ∉ line) :
    IsParagraphStart (line ++ ['\n']) 0 := by
  have hempty : IsParagraphStart [] 0 := isParagraphStart_paragraphStart []
  refine isParagraphStart_append (hempty.append_line hline) ?_
  rintro ⟨front, hfront, ⟨u, v, hblank, -⟩⟩
  obtain rfl := (List.append_inj' hfront rfl).1
  exact hline (by rw [hblank]; simp)

end Region

namespace Text

/-- The walk back from a newline comes to the start of the paragraph behind it. The newlines that
are still to come are those before the line that the newline ends, or before its last characters. -/
theorem exists_paragraphFrom? {t front line after : Text} (ht : width t < 2 ^ 32)
    (happend : t = front ++ line ++ '\n' :: after) (hline : '\n' ∉ line) :
    ∃ n, paragraphFrom? t (some (width (front ++ line))) (newlines 0 front).reverse = some n ∧
      IsParagraphStart (front ++ line ++ ['\n']) n := by
  induction front using List.reverseRecOn generalizing line after with
  | nil =>
      refine ⟨0, ?_, isParagraphStart_first hline⟩
      rw [newlines, List.reverse_nil, paragraphFrom?]
  | append_singleton front c ih =>
      rw [List.append_assoc front, List.singleton_append] at happend ⊢
      rw [newlines_append, newlines, newlines, Nat.zero_add]
      by_cases hc : c = '\n'
      · subst hc
        have hbefore : t = front ++ [] ++ '\n' :: (line ++ '\n' :: after) := by simp [happend]
        obtain ⟨n, hn, hstart⟩ := ih hbefore List.not_mem_nil
        rw [List.append_nil] at hn hstart
        -- the line is read between its two newlines
        have hslice := slice?_width_append (front ++ ['\n']) line ('\n' :: after)
        rw [← width_append, ← List.append_cons, ← happend] at hslice
        have hle : width (front ++ '\n' :: line) + 1 ≤ width t := by
          rw [happend, width_append (front ++ '\n' :: line)]
          exact Nat.add_le_add_left (Nat.le_add_right _ _) _
        have hlt : width front + 1 ≤ width t := by
          rw [hbefore, List.append_nil, width_append]
          exact Nat.add_le_add_left (Nat.le_add_right _ _) _
        refine ⟨_, ?_, hstart.newline hline⟩
        rw [if_pos rfl, List.reverse_append, List.reverse_singleton, List.singleton_append,
          paragraphFrom?, Word.add?_eq (by omega), Word.add?_eq (by omega)]
        have hwidth : width (front ++ ['\n']) = width front + 1 := width_append front ['\n']
        rw [hwidth] at hslice
        simp only [Option.bind_eq_bind, Option.bind_some, hslice]
        split_ifs
        · rfl
        · exact hn
      · have hnext : '\n' ∉ c :: line := by simp [hline, Ne.symm hc]
        rw [if_neg hc, List.append_nil]
        exact ih happend hnext

/-- The walk back from the end of a text comes to the start of its last paragraph. -/
theorem exists_paragraphFrom?_none {front line : Text} (ht : width (front ++ line) < 2 ^ 32)
    (hline : '\n' ∉ line) :
    ∃ n, paragraphFrom? (front ++ line) none (newlines 0 front).reverse = some n ∧
      IsParagraphStart (front ++ line) n := by
  -- back over the front, up to its last newline
  induction front using List.reverseRecOn generalizing line with
  | nil =>
      have hempty : IsParagraphStart [] 0 := isParagraphStart_paragraphStart []
      refine ⟨0, ?_, hempty.append_line hline⟩
      rw [newlines, List.reverse_nil, paragraphFrom?]
  | append_singleton front c ih =>
      rw [newlines_append, newlines, newlines, Nat.zero_add]
      by_cases hc : c = '\n'
      · subst hc
        have hbefore : front ++ ['\n'] ++ line = front ++ [] ++ '\n' :: line := by simp
        obtain ⟨n, hn, hstart⟩ := exists_paragraphFrom? ht hbefore List.not_mem_nil
        rw [List.append_nil] at hn hstart
        refine ⟨n, ?_, hstart.append_line hline⟩
        rw [if_pos rfl, List.reverse_append, List.reverse_singleton, List.singleton_append,
          paragraphFrom?]
        exact hn
      · have hnext : '\n' ∉ c :: line := by simp [hline, Ne.symm hc]
        rw [List.append_assoc, List.singleton_append] at ht ⊢
        rw [if_neg hc, List.append_nil]
        exact ih ht hnext

/-- **The walk back** from a boundary comes to the start of the last paragraph before it. -/
theorem paragraphBefore?_eq {t front back : Text} (ht : width t < 2 ^ 32)
    (happend : front ++ back = t) :
    paragraphBefore? t (width front) = some (paragraphStart front) := by
  have hslice := slice?_width_append [] front back
  rw [width, measure_nil, Nat.zero_add, List.nil_append, happend] at hslice
  have hfront : width (front ++ []) < 2 ^ 32 := by
    rw [← happend, width_append] at ht
    rw [List.append_nil]
    omega
  obtain ⟨n, hn, hstart⟩ := exists_paragraphFrom?_none hfront List.not_mem_nil
  rw [List.append_nil] at hn hstart
  rw [paragraphBefore?, hslice, Option.bind_eq_bind, Option.bind_some, hn,
    hstart.unique (isParagraphStart_paragraphStart front)]

/-! ## The window -/

/-- Rounded up, a cut behind the end of a text is its end. -/
theorem takeBytesUp_of_le {n : Nat} {t : Text} (h : width t ≤ n) : takeBytesUp n t = t := by
  induction t generalizing n with
  | nil => rfl
  | cons c t ih =>
      have hwidth : width (c :: t) = c.utf8Size + width t := rfl
      have hpos := c.utf8Size_pos
      cases n with
      | zero => omega
      | succ n => rw [takeBytesUp, ih (by omega)]

/-- The window around an offset starts at a paragraph and ends where the cut behind the offset is
rounded up to, and it knows whether that is the end of the document. -/
theorem ends_of_around? {size offset : Nat} {t : Text} {w : Window}
    (h : Window.around? size offset t = some w) :
    w.start = paragraphStart (takeBytes (offset - size) t) ∧
      w.start + width w.piece = width (takeBytesUp (offset + size) t) ∧
      w.more = decide (w.start + width w.piece < width t) := by
  unfold Window.around? at h
  split at h
  · cases h
  · obtain rfl := Option.some.inj h
    obtain ⟨front, back, hfront, hstart⟩ :=
      boundary_paragraphStart (takeBytes (offset - size) t)
    obtain ⟨rest, hrest⟩ := takeBytes_prefix_takeBytesUp
      (Nat.le_trans (Nat.sub_le offset size) (Nat.le_add_right offset size)) t
    -- the piece goes from the paragraph start to the far end of the window
    have hlimit : width front + width (dropBytes (width front) (takeBytesUp (offset + size) t)) =
        width (takeBytesUp (offset + size) t) := by
      rw [← hrest, hfront, List.append_assoc, dropBytes_width_append, width_append front]
    dsimp only
    rw [hstart, hlimit]
    exact ⟨rfl, rfl, rfl⟩

/-- **The window in bytes** is the window, with its start and its end. -/
theorem searchWindow?_eq {t : Text} (ht : width t < 2 ^ 32) (size offset : Nat) :
    searchWindow? size offset t =
      some ((Window.around? size offset t).map fun w => (w.start, w.start + width w.piece)) := by
  have hmul : width t ≤ Word.mulUpTo size 2 ↔ width t ≤ 2 * size := by
    rw [Word.mulUpTo, Word.largest]
    omega
  -- the sum that is rounded up ends at the text, if not before
  have hround : takeBytesUp (min (Word.addUpTo offset size) (width t)) t =
      takeBytesUp (offset + size) t := by
    rw [Word.addUpTo, Word.largest]
    rcases Nat.le_total (offset + size) (width t) with hle | hle
    · congr 1
      omega
    · rw [takeBytesUp_of_le hle, takeBytesUp_of_le (by omega)]
  by_cases hsmall : size = 0 ∨ width t ≤ 2 * size
  · rw [searchWindow?, if_pos (hsmall.imp_right hmul.2), around?_of_unwindowed hsmall]
    rfl
  · cases hwindow : Window.around? size offset t with
    | none => simp [Window.around?, not_or.1 hsmall] at hwindow
    | some w =>
        obtain ⟨hstart, hlimit, -⟩ := ends_of_around? hwindow
        rw [Option.map_some, hlimit, hstart, searchWindow?,
          if_neg fun h => hsmall (h.imp_right hmul.1), floorBoundary?_eq,
          ceilBoundary?_eq ht (Nat.min_le_right _ _), hround]
        simp only [Option.bind_eq_bind, Option.bind_some,
          paragraphBefore?_eq ht (takeBytes_append_dropBytes (offset - size) t)]
        rfl

end Text

end MathEdit
