import MathEdit.Proofs.Position.Columns

/-! # Offsets and their positions

A byte offset that is a boundary between characters has a line and a column, and it has a number of
units before it. Both tell the offset again: the line and column of an offset grow with it, and the
units before it are those before its line and those of its column.

* **`Document.isSome_lineCol?_iff`**, **`Document.isSome_unitsBefore?_iff`**: the offsets that have
  a position are the boundaries.
* **`Document.lineCol?_lt`**: positions come in the order of their offsets.
* **`Document.unitsBefore?_eq_some_iff_boundary?`**: units and bytes before a place tell each other.
* **`Document.lineCol?_utf8_iff_offsetAt?`**, **`Document.unitsBefore?_utf16_iff_boundary?`**: byte
  columns and absolute UTF-16 offsets. -/

namespace MathEdit

namespace Text


/-- The byte offset of a boundary is the width of what comes before it. -/
theorem boundary?_eq_some_iff {size : Char → Nat} (hsize : ∀ c, 0 < size c) {n offset : Nat}
    {t : Text} : boundary? size n t = some offset ↔
      ∃ before after, before ++ after = t ∧ measure size before = n ∧ width before = offset := by
  constructor
  · intro h
    obtain ⟨⟨before, after⟩, hcut, rfl⟩ := Option.map_eq_some_iff.1 h
    exact ⟨before, after, append_of_splitAt? hcut, measure_of_splitAt? hcut, rfl⟩
  · rintro ⟨before, after, rfl, rfl, rfl⟩
    rw [boundary?, splitAt?_measure_append hsize]
    rfl

end Text

/-- Every character has a unit in either encoding. -/
theorem Encoding.size_pos (e : Encoding) (c : Char) : 0 < e.size c := by
  cases e with
  | utf8 => exact c.utf8Size_pos
  | utf16 => exact Text.units16_pos c

namespace Document

open Text

variable {d : Document} {e : Encoding} {offset offset' line col line' col' units : Nat}

/-! ## Units before an offset -/

/-- The units before an offset are those of the text before it, if a character starts there. -/
theorem unitsBefore?_eq_some_iff : d.unitsBefore? e offset = some units ↔
    ∃ s u, s ++ u = d.text ∧ width s = offset ∧ measure e.size s = units := by
  simp [unitsBefore?, splitAt?_eq_some_iff, and_assoc]

/-- The units before an offset are known exactly at the boundaries. -/
theorem isSome_unitsBefore?_iff :
    (d.unitsBefore? e offset).isSome ↔ ∃ s u, s ++ u = d.text ∧ width s = offset := by
  rw [Option.isSome_iff_exists]
  constructor
  · rintro ⟨units, h⟩
    obtain ⟨s, u, happend, hwidth, -⟩ := unitsBefore?_eq_some_iff.1 h
    exact ⟨s, u, happend, hwidth⟩
  · rintro ⟨s, u, happend, hwidth⟩
    exact ⟨_, unitsBefore?_eq_some_iff.2 ⟨s, u, happend, hwidth, rfl⟩⟩

/-- **Units and bytes** before a place tell each other. -/
theorem unitsBefore?_eq_some_iff_boundary? :
    d.unitsBefore? e offset = some units ↔ boundary? e.size units d.text = some offset := by
  rw [unitsBefore?_eq_some_iff, boundary?_eq_some_iff e.size_pos]
  simp only [and_comm]

/-- There is no boundary between the units of a character. -/
theorem boundary?_eq_none_inside {s u : Text} {c : Char} (ht : d.text = s ++ c :: u)
    (hs : measure e.size s < units) (hc : units < measure e.size s + e.size c) :
    boundary? e.size units d.text = none := by
  refine Option.eq_none_iff_forall_ne_some.2 fun offset h => ?_
  obtain ⟨before, after, happend, hunits, -⟩ := (boundary?_eq_some_iff e.size_pos).1 h
  -- what comes before a boundary ends before the character or holds all of it
  obtain ⟨m, rfl, -⟩ | ⟨m, rfl, hm⟩ := List.append_eq_append_iff.1 (happend.trans ht)
  · rw [measure_append] at hs
    omega
  · cases m with
    | nil =>
        rw [List.append_nil] at hunits
        omega
    | cons b m =>
        obtain ⟨rfl, -⟩ := List.cons.inj hm
        rw [measure_append, measure_cons] at hunits
        omega

/-- There is no place behind the end of a document. -/
theorem boundary?_eq_none_of_lt (h : measure e.size d.text < units) :
    boundary? e.size units d.text = none := by
  refine Option.eq_none_iff_forall_ne_some.2 fun offset hboundary => ?_
  obtain ⟨before, after, happend, hunits, -⟩ := (boundary?_eq_some_iff e.size_pos).1 hboundary
  rw [← happend, measure_append] at h
  omega

/-! ## Lines and columns -/

section

variable (hd : d.index.Describes d.text) (hsize : width d.text < UInt32.size)
include hd hsize

/-- An offset has a line and a column exactly if it is a boundary. -/
theorem isSome_lineCol?_iff (e : Encoding) :
    (d.lineCol? e offset).isSome ↔ ∃ s u, s ++ u = d.text ∧ width s = offset := by
  rw [Option.isSome_iff_exists]
  constructor
  · rintro ⟨⟨line, col⟩, h⟩
    obtain ⟨before, front, ⟨back, after, hline⟩, hoffset, -⟩ :=
      (lineCol?_eq_some_iff hd hsize e).1 h
    refine ⟨before ++ front, back ++ after, ?_, by rw [width_append, hoffset]⟩
    rw [← hline.append_eq]
    simp
  · rintro ⟨s, u, happend, rfl⟩
    obtain ⟨before, hplace, hs⟩ := exists_isPlace happend
    have hoffset : width before + width (lastLine s) = width s := by rw [← width_append, ← hs]
    exact ⟨_, (lineCol?_eq_some_iff hd hsize e).2 ⟨before, _, hplace, hoffset, rfl⟩⟩

/-- **The order of positions** is that of their offsets: a later offset is on a later line, or in a
later column of its line. -/
theorem lineCol?_lt (hlt : offset < offset') (h : d.lineCol? e offset = some (line, col))
    (h' : d.lineCol? e offset' = some (line', col')) :
    line < line' ∨ line = line' ∧ col < col' := by
  obtain ⟨before, front, ⟨back, after, hline⟩, rfl, rfl⟩ := (lineCol?_eq_some_iff hd hsize e).1 h
  obtain ⟨before', front', ⟨back', after', hline'⟩, rfl, rfl⟩ :=
    (lineCol?_eq_some_iff hd hsize e).1 h'
  -- the text before the later place starts with the text before the earlier one
  have happend :
      (before ++ front) ++ (back ++ after) = (before' ++ front') ++ (back' ++ after') := by
    simpa using hline.append_eq.trans hline'.append_eq.symm
  obtain ⟨between, hbetween, -⟩ := exists_append_of_width_le happend (by
    rw [width_append, width_append]
    omega)
  have hcount : line' = line + between.count '\n' := by
    rw [← hline'.count_append_eq, hbetween, List.count_append, hline.count_append_eq]
  rcases Nat.lt_or_eq_of_le (Nat.le.intro hcount.symm) with hlater | rfl
  · exact .inl hlater
  · -- on one line the columns are told apart by what stands between the places
    obtain ⟨rfl, -, -⟩ := hline.eq hline'
    refine .inr ⟨rfl, ?_⟩
    rw [List.append_assoc, List.append_cancel_left_eq] at hbetween
    have hmore : between ≠ [] := by
      rintro rfl
      rw [hbetween, List.append_nil] at hlt
      exact Nat.lt_irrefl _ hlt
    obtain ⟨c, between, rfl⟩ := List.exists_cons_of_ne_nil hmore
    have hpos := e.size_pos c
    rw [hbetween, measure_append, measure_cons]
    omega

/-- **Byte positions.** The line and byte column of an offset exist exactly at the boundaries
between characters, they resolve to the offset and nothing else does, and they grow with it. -/
theorem lineCol?_utf8_iff_offsetAt? :
    (∀ offset, (d.lineCol? .utf8 offset).isSome ↔ ∃ s u, s ++ u = d.text ∧ width s = offset) ∧
    (∀ offset line col,
      d.lineCol? .utf8 offset = some (line, col) ↔ d.offsetAt? .utf8 line col = some offset) ∧
    ∀ offset offset' line col line' col', offset < offset' →
      d.lineCol? .utf8 offset = some (line, col) → d.lineCol? .utf8 offset' = some (line', col') →
      line < line' ∨ line = line' ∧ col < col' := by
  refine ⟨fun _ => isSome_lineCol?_iff hd hsize .utf8, fun offset line col => ?_,
    fun _ _ _ _ _ _ => lineCol?_lt hd hsize⟩
  exact (lineCol?_eq_some_iff hd hsize .utf8).trans (offsetOf?_eq_some_iff hd).symm

end

/-- The place before a line feed, which a carriage return comes before, and the line behind it. -/
theorem lineCol?_utf8_iff_offsetAt?_at_line_end :
    (LineIndex.ofText "é\r\n".toList).Describes "é\r\n".toList ∧
      width "é\r\n".toList < UInt32.size ∧
      (ofText "é\r\n".toList).offsetAt? .utf8 0 3 = some 3 ∧
      (ofText "é\r\n".toList).offsetAt? .utf8 1 0 = some 4 ∧
      ¬ ∃ s u, s ++ u = "é\r\n".toList ∧ width s = 1 := by
  have hd : (ofText "é\r\n".toList).index.Describes (ofText "é\r\n".toList).text :=
    LineIndex.describes_ofText _
  have hsize : width (ofText "é\r\n".toList).text < UInt32.size := by decide
  obtain ⟨hsome, hiff, -⟩ := lineCol?_utf8_iff_offsetAt? hd hsize
  exact ⟨hd, hsize, (hiff 3 0 3).1 (by decide), (hiff 4 1 0).1 (by decide),
    fun hinside => absurd ((hsome 1).2 hinside) (by decide)⟩

/-- **Absolute UTF-16 offsets.** The units before an offset are known exactly at the boundaries
between characters. They lead back to the offset, and no other number of units does: a number
between the two units of a character or past the end leads nowhere. On its line, an offset has the
units before the start of the line and those of its column before it. -/
theorem unitsBefore?_utf16_iff_boundary? (hd : d.index.Describes d.text)
    (hsize : width d.text < UInt32.size) :
    (∀ offset, (d.unitsBefore? .utf16 offset).isSome ↔
      ∃ s u, s ++ u = d.text ∧ width s = offset) ∧
    (∀ offset units, d.unitsBefore? .utf16 offset = some units ↔
      boundary? units16 units d.text = some offset) ∧
    (∀ s c u, d.text = s ++ c :: u → units16 c = 2 →
      boundary? units16 (measure units16 s + 1) d.text = none) ∧
    (∀ units, measure units16 d.text < units → boundary? units16 units d.text = none) ∧
    ∀ offset line col, d.lineCol? .utf16 offset = some (line, col) →
      ∃ start units, d.offsetAt? .utf8 line 0 = some start ∧
        d.unitsBefore? .utf16 start = some units ∧
        d.unitsBefore? .utf16 offset = some (units + col) := by
  refine ⟨fun _ => isSome_unitsBefore?_iff, fun _ _ => unitsBefore?_eq_some_iff_boundary?,
    fun s c u ht hc => ?_, fun _ => boundary?_eq_none_of_lt (e := .utf16),
    fun offset line col h => ?_⟩
  · refine boundary?_eq_none_inside (e := .utf16) ht (Nat.lt_succ_self _) ?_
    change measure units16 s + 1 < measure units16 s + units16 c
    omega
  · obtain ⟨before, front, ⟨back, after, hline⟩, rfl, rfl⟩ :=
      (lineCol?_eq_some_iff hd hsize .utf16).1 h
    -- the line starts behind the text before it, and the column counts the rest
    have hstart : d.offsetAt? .utf8 line 0 = some (width before) :=
      (offsetOf?_eq_some_iff hd).2 ⟨before, [], ⟨front ++ back, after, hline⟩, rfl, rfl⟩
    refine ⟨width before, measure units16 before, hstart, ?_, ?_⟩
    · exact unitsBefore?_eq_some_iff.2 ⟨before, _, hline.append_eq, rfl, rfl⟩
    · refine unitsBefore?_eq_some_iff.2
        ⟨before ++ front, back ++ after, ?_, width_append before front, measure_append _ _ _⟩
      rw [← hline.append_eq]
      simp

/-- The units before a place on the second line, behind characters of one unit and of two. -/
theorem unitsBefore?_utf16_iff_boundary?_on_second_line :
    (LineIndex.ofText "é𝑥\n𝑥b".toList).Describes "é𝑥\n𝑥b".toList ∧
      width "é𝑥\n𝑥b".toList < UInt32.size ∧
      (ofText "é𝑥\n𝑥b".toList).lineCol? .utf16 11 = some (1, 2) ∧
      (∃ start units, (ofText "é𝑥\n𝑥b".toList).offsetAt? .utf8 1 0 = some start ∧
        (ofText "é𝑥\n𝑥b".toList).unitsBefore? .utf16 start = some units ∧
        (ofText "é𝑥\n𝑥b".toList).unitsBefore? .utf16 11 = some (units + 2)) ∧
      boundary? units16 6 "é𝑥\n𝑥b".toList = some 11 ∧
      boundary? units16 2 "é𝑥\n𝑥b".toList = none ∧
      boundary? units16 8 "é𝑥\n𝑥b".toList = none := by
  have hd : (ofText "é𝑥\n𝑥b".toList).index.Describes (ofText "é𝑥\n𝑥b".toList).text :=
    LineIndex.describes_ofText _
  have hsize : width (ofText "é𝑥\n𝑥b".toList).text < UInt32.size := by decide
  have hposition : (ofText "é𝑥\n𝑥b".toList).lineCol? .utf16 11 = some (1, 2) := by decide
  obtain ⟨-, hiff, hinside, hbehind, hcolumn⟩ := unitsBefore?_utf16_iff_boundary? hd hsize
  refine ⟨hd, hsize, hposition, hcolumn 11 1 2 hposition, (hiff 11 6).1 (by decide), ?_, ?_⟩
  · exact hinside ['é'] '𝑥' "\n𝑥b".toList rfl (by decide)
  · exact hbehind 8 (by decide)

end Document

end MathEdit
