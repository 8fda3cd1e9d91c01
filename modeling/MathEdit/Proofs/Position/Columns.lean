import MathEdit.Position
import MathEdit.Proofs.Position.Lines
import Mathlib.Data.List.Infix

/-! # Columns in UTF-16 units

An editor that counts columns in UTF-16 units and a document that counts them in bytes name the same
places. The conversion walks over the wide characters of a line and moves the column by what each of
them has in bytes beyond its units. A column between the two units of a character is moved into the
bytes of that character, where no place is, and a column past the line stays past it.

* **`WideChar.toBytes?_ofText_append`**: the walk goes from the units of a part of a line to its
  width.
* **`WideChar.toBytes?_lt`**: and it keeps the order of columns, so no other column gets there.
* **`Document.lineCol?_eq_some_iff`**, **`Document.offsetAt?_utf16_eq_some_iff`**: both directions,
  on the line of the place.
* **`Document.lineCol?_utf16_iff_offsetAt?`**: they undo each other. -/

namespace MathEdit

namespace Text

/-- No character has more UTF-16 units than bytes. -/
theorem units16_le_utf8Size (c : Char) : units16 c ≤ c.utf8Size := by
  have hpos := c.utf8Size_pos
  unfold units16
  split
  · exact hpos
  · next hc =>
      -- beyond the basic plane a character has more than one byte
      have hne : c.utf8Size ≠ 1 := fun hone => hc <| Nat.lt_of_le_of_lt
        (UInt32.le_iff_toNat_le.1 (Char.utf8Size_eq_one_iff.1 hone)) (by decide)
      omega

/-- Every character has a UTF-16 unit. -/
theorem units16_pos (c : Char) : 0 < units16 c := by
  unfold units16
  split <;> decide

/-- And no more than one if it has one byte. -/
theorem units16_of_utf8Size {c : Char} (h : c.utf8Size = 1) : units16 c = 1 := by
  have := units16_le_utf8Size c
  have := units16_pos c
  omega

/-- A text has at most as many units as bytes. -/
theorem measure_units16_le_width (t : Text) : measure units16 t ≤ width t := by
  induction t with
  | nil => exact Nat.le_refl 0
  | cons c t ih =>
      rw [width, measure_cons, measure_cons]
      exact Nat.add_le_add (units16_le_utf8Size c) ih

end Text

/-! ## The walk over the wide characters -/

namespace WideChar

open Text

variable {ws : List WideChar} {w : WideChar} {col col' b b' : Nat}

/-- The wide characters of a text start at or behind the column of the text. -/
theorem le_start_of_mem_ofText {t : Text} (h : w ∈ ofText col t) : col ≤ w.start := by
  induction t generalizing col with
  | nil => simp [ofText] at h
  | cons c t ih =>
      rw [ofText] at h
      split at h
      · exact Nat.le_of_succ_le (ih h)
      · rcases List.mem_cons.1 h with rfl | h
        · exact Nat.le_refl _
        · exact Nat.le_of_add_right_le (ih h)

/-- A column that no wide character comes before stays as it is. -/
theorem toBytes?_of_le (h : ∀ w ∈ ws, col ≤ w.start) : toBytes? ws col = some col := by
  cases ws with
  | nil => rfl
  | cons w ws => rw [toBytes?, if_neg (Nat.not_lt.2 (h w List.mem_cons_self))]

/-- The walk takes the units of a part at the front of a text to the width of that part. -/
theorem toBytes?_ofText_append (front back : Text) (h : col + width front < UInt32.size) :
    toBytes? (ofText col (front ++ back)) (col + measure units16 front) =
      some (col + width front) := by
  induction front generalizing col with
  | nil => exact toBytes?_of_le fun w hw => le_start_of_mem_ofText hw
  | cons c front ih =>
      have hunits := units16_le_utf8Size c
      have hpos := units16_pos c
      rw [width, measure_cons] at h
      rw [List.cons_append, ofText, width, measure_cons, measure_cons]
      split
      · next hc =>
          have hrest := ih (show col + 1 + width front < UInt32.size by rw [width]; omega)
          rw [units16_of_utf8Size hc, hc]
          simpa only [Nat.add_assoc] using hrest
      · -- behind the character the column has its bytes in place of its units
        have hmoved : col + (units16 c + measure units16 front) + (c.utf8Size - units16 c) =
            col + c.utf8Size + measure units16 front := by omega
        have hle := measure_units16_le_width front
        have hrest := ih (show col + c.utf8Size + width front < UInt32.size by rw [width]; omega)
        rw [toBytes?, if_pos (by dsimp only; omega)]
        dsimp only
        rw [hmoved, if_pos (by rw [width] at hle; omega), hrest, width, Nat.add_assoc]

/-- No column is at fewer bytes than it has units. -/
theorem le_of_toBytes? (h : toBytes? ws col = some b) : col ≤ b := by
  induction ws generalizing col with
  | nil => exact Nat.le_of_eq (Option.some.inj h)
  | cons w ws ih =>
      rw [toBytes?] at h
      dsimp only at h
      split at h
      · split at h
        · exact Nat.le_of_add_right_le (ih h)
        · simp at h
      · exact Nat.le_of_eq (Option.some.inj h)

/-- The walk keeps the order of columns. -/
theorem toBytes?_lt (hlt : col < col') (h : toBytes? ws col = some b)
    (h' : toBytes? ws col' = some b') : b < b' := by
  induction ws generalizing col col' with
  | nil =>
      obtain rfl := Option.some.inj h
      exact Nat.lt_of_lt_of_eq hlt (Option.some.inj h')
  | cons w ws ih =>
      rw [toBytes?] at h h'
      dsimp only at h h'
      split at h
      · -- the character is before both columns and moves them alike
        next hw =>
          rw [if_pos (Nat.lt_trans hw hlt)] at h'
          split at h
          · split at h'
            · exact ih (Nat.add_lt_add_right hlt _) h h'
            · simp at h'
          · simp at h
      · obtain rfl := Option.some.inj h
        split at h'
        · split at h'
          · exact Nat.lt_of_lt_of_le hlt (Nat.le_of_add_right_le (le_of_toBytes? h'))
          · simp at h'
        · exact Nat.lt_of_lt_of_eq hlt (Option.some.inj h')

/-- No two columns are taken to one. -/
theorem toBytes?_inj (h : toBytes? ws col = some b) (h' : toBytes? ws col' = some b) :
    col = col' := by
  rcases Nat.lt_trichotomy col col' with hlt | heq | hlt
  · exact absurd (toBytes?_lt hlt h h') (Nat.lt_irrefl b)
  · exact heq
  · exact absurd (toBytes?_lt hlt h' h) (Nat.lt_irrefl b)

end WideChar

/-! ## Places in a document -/

namespace Text

/-- A place of a text by its line: the text before the line, and the part of the line before the
place. -/
def IsPlace (t : Text) (line : Nat) (before front : Text) : Prop :=
  ∃ back after, t.IsLine line before (front ++ back) after

/-- Every boundary of a text is a place. -/
theorem exists_isPlace {t s u : Text} (h : s ++ u = t) :
    ∃ before, t.IsPlace (s.count '\n') before (lastLine s) ∧ s = before ++ lastLine s := by
  obtain ⟨before, line, after, hline, hs⟩ := exists_isLine_append s u
  exact ⟨before, ⟨line, after, h ▸ hline⟩, hs⟩

/-- Two places with one offset are the same. -/
theorem IsPlace.eq {t before front before' front' : Text} {line line' : Nat}
    (h : t.IsPlace line before front) (h' : t.IsPlace line' before' front')
    (hw : width before + width front = width before' + width front') :
    line = line' ∧ before = before' ∧ front = front' := by
  obtain ⟨back, after, hline⟩ := h
  obtain ⟨back', after', hline'⟩ := h'
  have happend :
      (before ++ front) ++ (back ++ after) = (before' ++ front') ++ (back' ++ after') := by
    simpa using hline.append_eq.trans hline'.append_eq.symm
  refine hline.eq_of_append hline' (append_inj_of_width_eq happend ?_).1
  rwa [width_append, width_append]

end Text

namespace Document

open Text

variable {d : Document} {offset line col : Nat}

/-- The offset of a place is at most the length of the text. -/
theorem width_add_width_le {before front : Text} (h : d.text.IsPlace line before front) :
    width before + width front ≤ width d.text := by
  obtain ⟨back, after, hline⟩ := h
  rw [← hline.append_eq, width_append, width_append, width_append]
  omega

section

variable (hd : d.index.Describes d.text)
include hd

/-- The index knows the place of each boundary, and no other offset. -/
theorem lineCol?_index_eq_some_iff : d.index.lineCol? offset = some (line, col) ↔
    ∃ before front, d.text.IsPlace line before front ∧
      width before + width front = offset ∧ width front = col := by
  constructor
  · intro h
    cases hcut : splitAt? Char.utf8Size offset d.text with
    | none => simp [hd.lineCol?_eq_none hcut] at h
    | some parts =>
        obtain ⟨happend, hwidth⟩ := splitAt?_eq_some_iff.1 hcut
        -- the text up to the offset ends in the front of a line
        obtain ⟨before, ⟨back, after, hline⟩, hs⟩ := exists_isPlace happend
        have hoffset : width before + width (lastLine parts.1) = offset := by
          rw [← width_append, ← hs, hwidth]
        rw [← hoffset, hd.lineCol?_of_line hline] at h
        obtain ⟨rfl, rfl⟩ := Prod.mk.inj (Option.some.inj h)
        exact ⟨before, _, ⟨back, after, hline⟩, hoffset, rfl⟩
  · rintro ⟨before, front, ⟨back, after, hline⟩, rfl, rfl⟩
    exact hd.lineCol?_of_line hline

/-- **The line and column** of an offset are those of its place. -/
theorem lineCol?_eq_some_iff (hsize : width d.text < UInt32.size) (e : Encoding) :
    d.lineCol? e offset = some (line, col) ↔ ∃ before front, d.text.IsPlace line before front ∧
      width before + width front = offset ∧ measure e.size front = col := by
  constructor
  · intro h
    by_cases hlt : offset < UInt32.size
    · rw [lineCol?, if_pos hlt] at h
      obtain ⟨⟨l, c⟩, hindex, h⟩ := Option.bind_eq_some_iff.1 h
      obtain ⟨before, front, ⟨back, after, hline⟩, hoffset, rfl⟩ :=
        (lineCol?_index_eq_some_iff hd).1 hindex
      -- bytes are what the index gives, and units are counted over the front of the line
      cases e with
      | utf8 =>
          obtain ⟨rfl, rfl⟩ := Prod.mk.inj (Option.some.inj h)
          exact ⟨before, front, ⟨back, after, hline⟩, hoffset, rfl⟩
      | utf16 =>
          dsimp only at h
          rw [hd.toUnits?_of_line hline] at h
          obtain ⟨rfl, rfl⟩ := Prod.mk.inj (Option.some.inj h)
          exact ⟨before, front, ⟨back, after, hline⟩, hoffset, rfl⟩
    · rw [lineCol?, if_neg hlt] at h
      simp at h
  · rintro ⟨before, front, hplace, rfl, rfl⟩
    -- the place is in the document, so its offset has 32 bits
    have hle := width_add_width_le hplace
    obtain ⟨back, after, hline⟩ := hplace
    rw [lineCol?, if_pos (Nat.lt_of_le_of_lt hle hsize), hd.lineCol?_of_line hline]
    cases e with
    | utf8 => rfl
    | utf16 => simp [hd.toUnits?_of_line hline, Encoding.size]

/-- On a line of the text, a byte column up to the end of the line is counted from its start. -/
theorem offsetOf?_of_line {before text after : Text}
    (hline : d.text.IsLine line before text after) :
    d.offsetOf? line col =
      if col ≤ width text then boundary? Char.utf8Size (width before + col) d.text else none := by
  have hstart := splitAt?_eq_some_iff.2 ⟨hline.append_eq, rfl⟩
  simp only [offsetOf?, hd.start?_of_line hline, hstart, hline.firstLine_eq, Option.bind_eq_bind,
    Option.bind_some, Nat.add_le_add_iff_left]

/-- **The offset** of a line and a byte column is that of their place. -/
theorem offsetOf?_eq_some_iff :
    d.offsetOf? line col = some offset ↔ ∃ before front, d.text.IsPlace line before front ∧
      width before + width front = offset ∧ width front = col := by
  constructor
  · intro h
    by_cases hcount : line ≤ d.text.count '\n'
    · obtain ⟨before, text, after, hline⟩ := exists_isLine hcount
      rw [offsetOf?_of_line hd hline] at h
      split at h
      · next hle =>
          obtain ⟨⟨s, u⟩, hcut, rfl⟩ := Option.map_eq_some_iff.1 h
          obtain ⟨happend, hwidth⟩ := splitAt?_eq_some_iff.1 hcut
          -- the cut comes after the start of the line and before its end
          obtain ⟨front, rfl, hrest⟩ := exists_append_of_width_le
            (hline.append_eq.trans happend.symm) (by omega)
          rw [width_append] at hwidth
          obtain ⟨back, rfl, -⟩ := exists_append_of_width_le hrest.symm (by omega)
          exact ⟨before, front, ⟨back, after, hline⟩, (width_append before front).symm, by omega⟩
      · simp at h
    · simp [offsetOf?, hd.start?_eq_none (Nat.lt_of_not_le hcount)] at h
  · rintro ⟨before, front, ⟨back, after, hline⟩, rfl, rfl⟩
    have hcut : splitAt? Char.utf8Size (width before + width front) d.text =
        some (before ++ front, back ++ after) := by
      rw [splitAt?_eq_some_iff, width_append, ← hline.append_eq]
      simp
    rw [offsetOf?_of_line hd hline, if_pos (by rw [width_append]; omega), boundary?, hcut]
    exact congrArg some (width_append before front)

/-- **The offset** of a line and a column in units is that of their place. -/
theorem offsetAt?_utf16_eq_some_iff (hsize : width d.text < UInt32.size) :
    d.offsetAt? .utf16 line col = some offset ↔ ∃ before front, d.text.IsPlace line before front ∧
      width before + width front = offset ∧ measure units16 front = col := by
  have hwalk {before front back after : Text}
      (hline : d.text.IsLine line before (front ++ back) after) :
      d.index.toBytes? line (measure units16 front) = some (width front) := by
    have hle := width_add_width_le ⟨back, after, hline⟩
    rw [hd.toBytes?_of_line hline]
    have hlt : 0 + width front < UInt32.size := by omega
    simpa using WideChar.toBytes?_ofText_append front back hlt
  constructor
  · intro h
    obtain ⟨bytes, hbytes, h⟩ := Option.bind_eq_some_iff.1 h
    obtain ⟨before, front, ⟨back, after, hline⟩, hoffset, rfl⟩ := (offsetOf?_eq_some_iff hd).1 h
    refine ⟨before, front, ⟨back, after, hline⟩, hoffset, ?_⟩
    have hfront := hwalk hline
    rw [hd.toBytes?_of_line hline] at hbytes hfront
    -- no two columns have the same byte column
    exact WideChar.toBytes?_inj hfront hbytes
  · rintro ⟨before, front, ⟨back, after, hline⟩, hoffset, rfl⟩
    refine Option.bind_eq_some_iff.2 ⟨width front, hwalk hline, ?_⟩
    exact (offsetOf?_eq_some_iff hd).2 ⟨before, front, ⟨back, after, hline⟩, hoffset, rfl⟩

/-- A column in units on a line is that of a place on the line. -/
theorem exists_append_of_offsetAt?_utf16 (hsize : width d.text < UInt32.size)
    (h : d.offsetAt? .utf16 line col = some offset) {before text after : Text}
    (hline : d.text.IsLine line before text after) :
    ∃ front back, front ++ back = text ∧ measure units16 front = col := by
  obtain ⟨before', front, ⟨back, after', hplace⟩, -, hcol⟩ :=
    (offsetAt?_utf16_eq_some_iff hd hsize).1 h
  exact ⟨front, back, (hplace.eq hline).2.1, hcol⟩

/-- **Positions in UTF-16 units.** The line and column of an offset exist exactly at the boundaries
between characters, and they are the only position that resolves to the offset. A column past the
line feed of its line or between the two units of a character resolves to nothing, and neither does
a line that the text does not have. -/
theorem lineCol?_utf16_iff_offsetAt? (hsize : width d.text < UInt32.size) :
    (∀ offset, (d.lineCol? .utf16 offset).isSome ↔ ∃ s u, s ++ u = d.text ∧ width s = offset) ∧
    (∀ offset line col,
      d.lineCol? .utf16 offset = some (line, col) ↔ d.offsetAt? .utf16 line col = some offset) ∧
    (∀ line before text after, d.text.IsLine line before text after →
      (∀ col, measure units16 text < col → d.offsetAt? .utf16 line col = none) ∧
      ∀ front c back, text = front ++ c :: back → units16 c = 2 →
        d.offsetAt? .utf16 line (measure units16 front + 1) = none) ∧
    (∀ line col, d.text.count '\n' < line → d.offsetAt? .utf16 line col = none) ∧
    ∀ line col line' col' offset, d.offsetAt? .utf16 line col = some offset →
      d.offsetAt? .utf16 line' col' = some offset → line = line' ∧ col = col' := by
  have hiff : ∀ offset line col,
      d.lineCol? .utf16 offset = some (line, col) ↔ d.offsetAt? .utf16 line col = some offset :=
    fun offset line col => (lineCol?_eq_some_iff hd hsize .utf16).trans
      (offsetAt?_utf16_eq_some_iff hd hsize).symm
  refine ⟨fun offset => ⟨fun h => ?_, ?_⟩, hiff, ?_, ?_, ?_⟩
  · obtain ⟨⟨line, col⟩, h⟩ := Option.isSome_iff_exists.1 h
    obtain ⟨before, front, ⟨back, after, hline⟩, hoffset, -⟩ :=
      (lineCol?_eq_some_iff hd hsize .utf16).1 h
    refine ⟨before ++ front, back ++ after, ?_, by rw [width_append, hoffset]⟩
    rw [← hline.append_eq]
    simp
  · rintro ⟨s, u, happend, rfl⟩
    obtain ⟨before, hplace, hs⟩ := exists_isPlace happend
    have hoffset : width before + width (lastLine s) = width s := by rw [← width_append, ← hs]
    exact Option.isSome_iff_exists.2
      ⟨_, (lineCol?_eq_some_iff hd hsize .utf16).2 ⟨before, _, hplace, hoffset, rfl⟩⟩
  · intro line before text after hline
    constructor
    · intro col hcol
      refine Option.eq_none_iff_forall_ne_some.2 fun offset h => ?_
      obtain ⟨front, back, rfl, rfl⟩ := exists_append_of_offsetAt?_utf16 hd hsize h hline
      rw [measure_append] at hcol
      omega
    · intro front c back htext hc
      refine Option.eq_none_iff_forall_ne_some.2 fun offset h => ?_
      obtain ⟨front', back', happend, hunits⟩ :=
        exists_append_of_offsetAt?_utf16 hd hsize h hline
      -- a part of the line either ends before the character or holds all of it
      obtain ⟨m, rfl, -⟩ | ⟨m, rfl, hm⟩ := List.append_eq_append_iff.1 (happend.trans htext)
      · rw [measure_append] at hunits
        omega
      · cases m with
        | nil => simp at hunits
        | cons b m =>
            obtain ⟨rfl, -⟩ := List.cons.inj hm
            rw [measure_append, measure_cons, hc] at hunits
            omega
  · intro line col hcount
    refine Option.eq_none_iff_forall_ne_some.2 fun offset h => ?_
    obtain ⟨before, front, ⟨back, after, hline⟩, -, -⟩ :=
      (offsetAt?_utf16_eq_some_iff hd hsize).1 h
    rw [← hline.append_eq, List.count_append, hline.count_eq] at hcount
    omega
  · intro line col line' col' offset h h'
    exact Prod.mk.inj
      (Option.some.inj (((hiff offset line col).2 h).symm.trans ((hiff offset line' col').2 h')))

end

/-- The position behind a character of two units, and the columns in it and past its line. -/
theorem lineCol?_utf16_iff_offsetAt?_behind_pair :
    (LineIndex.ofText "é𝑥\nb".toList).Describes "é𝑥\nb".toList ∧
      width "é𝑥\nb".toList < UInt32.size ∧
      (ofText "é𝑥\nb".toList).offsetAt? .utf16 0 3 = some 6 ∧
      (ofText "é𝑥\nb".toList).offsetAt? .utf16 0 2 = none ∧
      (ofText "é𝑥\nb".toList).offsetAt? .utf16 0 4 = none := by
  have hd : (ofText "é𝑥\nb".toList).index.Describes (ofText "é𝑥\nb".toList).text :=
    LineIndex.describes_ofText _
  have hsize : width (ofText "é𝑥\nb".toList).text < UInt32.size := by decide
  have hline : (ofText "é𝑥\nb".toList).text.IsLine 0 [] "é𝑥".toList "\nb".toList :=
    ⟨rfl, rfl, .inl rfl, by decide, .inr rfl⟩
  obtain ⟨-, hiff, hnone, -⟩ := lineCol?_utf16_iff_offsetAt? hd hsize
  refine ⟨hd, hsize, (hiff 6 0 3).1 (by decide), ?_, ?_⟩
  · exact (hnone 0 _ _ _ hline).2 ['é'] '𝑥' [] rfl (by decide)
  · exact (hnone 0 _ _ _ hline).1 4 (by decide)

end Document

end MathEdit
