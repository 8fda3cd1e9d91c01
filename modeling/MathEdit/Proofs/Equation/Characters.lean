import MathEdit.Proofs.Equation.Inner

/-! # The characters of a split equation

A split moves the comments of an equation and trims its sides, but apart from whitespace it loses no
character of the equation and doubles none: what is new are the marks of the rows and the tags
around them.

* **`Text.ink`**: the characters of a text that are not whitespace, each as often as it occurs.
* **`Equation.ink_pieces`**, **`Equation.ink_rowPieces`**: the ink of a row and of all rows.
* **`Text.Aligning`**: every `&` of a text is that of an alignment mark.
* **`Equation.ink_and_alignments_of_split?`**: the ink of a split equation, and how many alignment
  marks it has. -/

namespace MathEdit

namespace Text

/-! ## Ink -/

/-- The characters of a text that are not whitespace, each as often as it occurs. -/
def ink (t : Text) : Multiset Char := ↑(t.filter (!isBlank ·))

/-- There is no ink in an empty text. -/
@[simp] theorem ink_nil : ink [] = 0 := rfl

/-- The ink of two texts adds up. -/
@[simp] theorem ink_append (s t : Text) : ink (s ++ t) = ink s + ink t := by
  rw [ink, ink, ink, List.filter_append, Multiset.coe_add]

/-- Blanks have no ink. -/
theorem ink_of_isBlank {t : Text} (h : ∀ c ∈ t, isBlank c = true) : ink t = 0 := by
  rw [ink, List.filter_eq_nil_iff.2 (by simpa using h)]
  rfl

/-- So a blank in front adds none. -/
theorem ink_cons_of_isBlank {c : Char} (h : isBlank c = true) (t : Text) :
    ink (c :: t) = ink t := by
  rw [ink, List.filter_cons_of_neg (by simp [h]), ← ink]

/-- Trimming at the end loses no ink. -/
theorem ink_trimEnd (t : Text) : ink (trimEnd t) = ink t := by
  obtain ⟨blanks, hsplit, hblank⟩ := exists_trimEnd_append t
  conv_rhs => rw [hsplit, ink_append, ink_of_isBlank hblank, add_zero]

/-- Nor does trimming in front. -/
theorem ink_trimStart (t : Text) : ink (trimStart t) = ink t := by
  have hblank : ink (t.takeWhile isBlank) = 0 :=
    ink_of_isBlank fun c hc => List.mem_takeWhile_imp hc
  conv_rhs => rw [← List.takeWhile_append_dropWhile (p := isBlank) (l := t), ink_append, hblank,
    zero_add]
  rfl

/-- Trimming loses no ink. -/
theorem ink_trim (t : Text) : ink (trim t) = ink t := by
  rw [trim, ink_trimEnd, ink_trimStart]

/-- The ink of many texts is the sum of what each of them has. -/
theorem ink_flatMap {α : Type} (xs : List α) (f : α → Text) :
    ink (xs.flatMap f) = (xs.map fun x => ink (f x)).sum := by
  induction xs with
  | nil => rfl
  | cons x xs ih => rw [List.flatMap_cons, ink_append, ih, List.map_cons, List.sum_cons]

/-- The characters in the ink are those that are not blank. -/
theorem mem_ink {c : Char} {t : Text} : c ∈ ink t ↔ c ∈ t ∧ isBlank c = false := by
  simp [ink]

/-- And each is there as often as in the text. -/
theorem count_ink {c : Char} (h : isBlank c = false) (t : Text) : (ink t).count c = t.count c := by
  rw [ink, Multiset.coe_count, List.count_filter (by simp [h])]

/-! ## Alignment marks -/

/-- How often a pattern occurs in a text. -/
def occurrences (pattern t : Text) : Nat := t.tails.countP (pattern.isPrefixOf ·)

/-- Whether every `&` of a text is followed by `=`. -/
def Aligning (t : Text) : Prop := ∀ a b, t = a ++ '&' :: b → b.head? = some '='

/-- A text without an `&` has none that fails to align. -/
theorem aligning_of_notMem {t : Text} (h : '&' ∉ t) : Aligning t := by
  rintro a b rfl
  simp at h

/-- Texts that align do so together, since no `&` ends the first one. -/
theorem Aligning.append {s t : Text} (hs : Aligning s) (ht : Aligning t) : Aligning (s ++ t) := by
  intro a b hsplit
  rcases List.append_eq_append_iff.1 hsplit with ⟨m, rfl, h⟩ | ⟨m, rfl, h⟩
  · exact ht m b h
  · cases m with
    | nil => exact ht [] b h.symm
    | cons c m =>
        -- the character behind the `&` is one of `s`
        rw [List.cons_append, List.cons_eq_cons] at h
        obtain ⟨rfl, rfl⟩ := h
        rw [List.head?_append, hs a m rfl]
        rfl

/-- So do many texts. -/
theorem aligning_flatMap {α : Type} {xs : List α} {f : α → Text}
    (h : ∀ x ∈ xs, Aligning (f x)) : Aligning (xs.flatMap f) := by
  induction xs with
  | nil => exact aligning_of_notMem List.not_mem_nil
  | cons x xs ih =>
      obtain ⟨hx, hxs⟩ := List.forall_mem_cons.1 h
      exact hx.append (ih hxs)

/-- Where every `&` aligns, there are as many alignment marks. -/
theorem Aligning.occurrences_eq {t : Text} (h : Aligning t) :
    occurrences ['&', '='] t = t.count '&' := by
  induction t with
  | nil => rfl
  | cons c t ih =>
      have htail := ih fun a b hsplit => h (c :: a) b (by rw [hsplit]; rfl)
      rw [occurrences] at htail ⊢
      rw [List.tails_cons, List.countP_cons, htail, List.count_cons]
      congr 1
      by_cases hc : c = '&'
      · subst hc
        obtain ⟨rest, rfl⟩ := List.head?_eq_some_iff.1 (h [] t rfl)
        simp
      · simp [hc, Ne.symm hc]

end Text

namespace Equation

open Text

/-! ## The ink of the rows -/

/-- A comment that is taken off a text is all that its code lacks. -/
theorem ink_ofText (t : Text) :
    ink (Part.ofText t).code + ink (Part.ofText t).comment.toList.flatten = ink t := by
  dsimp only [Part.ofText]
  split
  · next l h =>
      split
      · -- the last lexeme is the comment, and the code is what comes before it
        have hlex := join_lex t
        rw [← List.dropLast_append_getLast? l h, Lexeme.join_append, Lexeme.join_cons,
          Lexeme.join_nil, List.append_nil] at hlex
        conv_rhs => rw [← hlex]
        rw [ink_append, ink_trimEnd]
        simp
      · simp
  · simp

/-- A segment of an equation loses nothing on its way into a row. -/
theorem ink_part (segment : Text) :
    ink (part segment).code + ink (part segment).comment.toList.flatten = ink segment := by
  rw [part, ink_ofText, ink_trim]

/-- The ink of the sides of a row and of its comments. -/
def Sides.ink (s : Sides) : Multiset Char :=
  Text.ink s.left + Text.ink s.right + Text.ink s.comments.flatten

/-- The first row has the ink of the segments around the first break. -/
theorem ink_firstSides (left right : Text) :
    (firstSides left right).ink = ink left + ink right := by
  rw [← ink_part left, ← ink_part right, Sides.ink, firstSides, List.flatten_append, ink_append]
  abel

/-- A further row has the ink of its segment. -/
theorem ink_furtherSides (right : Text) : (furtherSides right).ink = ink right := by
  rw [← ink_part right, Sides.ink, furtherSides, ink_nil, zero_add]

/-- A row has the ink of its sides, an alignment mark, and a row break unless it is the last one. -/
theorem ink_pieces (s : Sides) (last : Bool) :
    ink (Piece.join (s.pieces last)) =
      s.ink + {'&'} + {'='} + if last then 0 else Multiset.replicate 2 '\\' := by
  have hspace : isBlank ' ' = true := by decide
  have hcomments : ink (s.comments.flatMap (' ' :: ·)) = ink s.comments.flatten := by
    rw [← List.flatMap_id, ink_flatMap, ink_flatMap]
    simp only [ink_cons_of_isBlank hspace, id]
  have hmark : ink (Lexeme.join alignment) = {'&'} + {'='} := by decide
  have hbreak : ink (Lexeme.join rowBreak) = Multiset.replicate 2 '\\' := by decide
  have hleft : ink (Piece.join (if s.left = [] then [] else [.plain (s.left ++ [' '])])) =
      ink s.left := by
    by_cases hnil : s.left = []
    · simp [hnil]
    · simp [hnil, Piece.text, ink_cons_of_isBlank hspace]
  have hright : ink (Piece.join (if s.right = [] then [] else [.plain (' ' :: s.right)])) =
      ink s.right := by
    by_cases hnil : s.right = []
    · simp [hnil]
    · simp [hnil, Piece.text, ink_cons_of_isBlank hspace]
  have hend : ink (Piece.join (if last then [] else [.plain [' '], .mark rowBreak])) =
      if last then 0 else Multiset.replicate 2 '\\' := by
    cases last
    · simp [Piece.text, ink_cons_of_isBlank hspace, hbreak]
    · rfl
  -- the ink of a row is the sum over its pieces
  rw [Sides.pieces, Piece.join_append, Piece.join_cons, Sides.tail, Piece.join_append,
    Piece.join_append, Piece.join_cons, Piece.join_nil, List.append_nil, Piece.text, Piece.text,
    ink_append, ink_append, ink_append, ink_append, hleft, hmark, hright, hend, hcomments,
    Sides.ink]
  abel

/-- All rows have the ink of their sides and of their marks; there is a row break less than there
are rows. -/
theorem ink_rowPieces {indent : Text} (hindent : ∀ c ∈ indent, isBlank c = true)
    (rows : List Sides) :
    ink (Piece.join (rowPieces indent rows)) =
      (rows.map Sides.ink).sum + Multiset.replicate rows.length '&' +
        Multiset.replicate rows.length '=' +
          Multiset.replicate (2 * (rows.length - 1)) '\\' := by
  have hline : ink ('\n' :: indent) = 0 :=
    ink_of_isBlank (List.forall_mem_cons.2 ⟨rfl, hindent⟩)
  fun_induction rowPieces indent rows with
  | case1 => rfl
  | case2 s =>
      rw [Piece.join_cons, ink_append, ink_pieces, Piece.text, hline]
      simp
  | case3 s next rest ih =>
      -- a row before others ends in a row break, which is two backslashes
      generalize hrest : next :: rest = rows at ih ⊢
      have hlength : 2 * ((s :: rows).length - 1) = 2 + 2 * (rows.length - 1) := by
        rw [← hrest]
        simp only [List.length_cons]
        omega
      have hsum : ((s :: rows).map Sides.ink).sum = s.ink + (rows.map Sides.ink).sum := rfl
      have hmark (c : Char) : Multiset.replicate (s :: rows).length c =
          {c} + Multiset.replicate rows.length c := rfl
      rw [List.cons_append, Piece.join_cons, Piece.join_append, ink_append, ink_append, ink_pieces,
        Piece.text, hline, ih, hlength, Multiset.replicate_add 2, hsum, hmark, hmark,
        if_neg Bool.false_ne_true]
      abel

/-! ## The split equation -/

/-- The ink of a layout. -/
theorem ink_layOut (style : RowStyle) (rows : List Sides) :
    ink (layOut style (rows.map Sides.row)) =
      (rows.map Sides.ink).sum + Multiset.replicate rows.length '&' +
        Multiset.replicate rows.length '=' +
        Multiset.replicate (2 * (rows.length - 1)) '\\' +
        ink (Environment.openingTag style.environment) +
        ink (Environment.closingTag style.environment) := by
  have hnewline : isBlank '\n' = true := by decide
  have hmark (kind : Token.Kind) (t : Text) : Lexeme.join [⟨kind, t⟩] = t := by simp
  rw [← join_pieces, pieces, Piece.join_cons, Piece.join_append, Piece.join_cons, Piece.join_cons,
    Piece.join_nil, ink_append, ink_append, ink_append, ink_append,
    ink_rowPieces fun _ => isBlank_of_mem_replicate]
  simp only [Piece.text, openingMark, closingMark, hmark, ink_cons_of_isBlank hnewline, ink_nil]
  abel

/-- The rows of a split have the ink of the segments. -/
theorem ink_sides (left right : Text) (further : List Text) :
    ((sides left right further).map Sides.ink).sum =
      ink left + ((right :: further).map ink).sum := by
  have hfurther : Sides.ink ∘ furtherSides = ink := funext ink_furtherSides
  rw [sides, List.map_cons, List.map_map, hfurther, List.sum_cons, ink_firstSides, List.map_cons,
    List.sum_cons, add_assoc]

/-- The ink of an equation is that of its segments and of the signs between them. -/
theorem ink_segments (left : Text) (rights : List Text) :
    ink (left ++ rights.flatMap ('=' :: ·)) =
      ink left + (rights.map ink).sum + Multiset.replicate rights.length '=' := by
  have hsign (t : Text) : ink ('=' :: t) = {'='} + ink t := ink_append ['='] t
  rw [ink_append, ink_flatMap, add_assoc]
  congr 1
  induction rights with
  | nil => rfl
  | cons right rights ih =>
      have hmark : Multiset.replicate (right :: rights).length '=' =
          {'='} + Multiset.replicate rights.length '=' := rfl
      rw [List.map_cons, List.sum_cons, ih, hsign, List.map_cons, List.sum_cons, hmark]
      abel

/-- The ink of a split equation is that of the equation and of the marks of its rows. -/
theorem ink_split? {style : RowStyle} {t r : Text} (h : split? style t = some r) :
    ink r = ink (inner t) + Multiset.replicate (breaks (inner t)).length '&' +
      Multiset.replicate (2 * ((breaks (inner t)).length - 1)) '\\' +
      ink (Environment.openingTag style.environment) +
      ink (Environment.closingTag style.environment) := by
  obtain ⟨left, right, further, hsegments⟩ := exists_segmentsOf (breaks_ne_nil_of_split? h)
  have hjoin := segmentsOf_scan (inner t)
  have hlength : (right :: further).length = (breaks (inner t)).length := by
    rw [breaks, ← length_segmentsOf, hsegments]
  have hrows : (sides left right further).length = (right :: further).length := by simp [sides]
  rw [hsegments] at hjoin
  -- the segments have the ink of the equation without the `=` of the breaks
  have hink := ink_segments left (right :: further)
  rw [hjoin] at hink
  rw [split?_eq_layOut hsegments] at h
  rw [← Option.some.inj h, ink_layOut, ink_sides, hrows, hink, ← hlength]
  abel

/-! ## The alignment marks of a split equation -/

/-- The alignment mark is an `&` with `=` behind it. -/
theorem aligning_alignment : Aligning (Piece.text (.mark alignment)) := by
  intro a b h
  have hmark : Piece.text (.mark alignment) = ['&', '='] := rfl
  rw [hmark] at h
  rcases a with _ | ⟨c, _ | ⟨d, a⟩⟩
  · obtain rfl := (List.cons.inj h).2
    rfl
  · cases h
  · simp at h

/-- The alignment mark of a row is its only `&` if its sides and its comments have none. -/
theorem aligning_pieces {s : Sides} (h : '&' ∉ s.ink) (last : Bool) :
    Aligning (Piece.join (s.pieces last)) := by
  have hblank : Text.isBlank '&' = false := by decide
  simp only [Sides.ink, Multiset.mem_add, mem_ink, hblank, and_true, not_or] at h
  obtain ⟨⟨hleft, hright⟩, hcomments⟩ := h
  apply aligning_flatMap
  intro p hp
  simp only [Sides.pieces, Sides.tail, List.mem_append, List.mem_cons, List.mem_ite_nil_left,
    List.not_mem_nil, or_false] at hp
  -- only the alignment mark has an `&`, and it comes with its `=`
  rcases hp with ⟨-, rfl⟩ | rfl | (⟨-, rfl⟩ | ⟨-, rfl | rfl⟩) | rfl
  · exact aligning_of_notMem (by simpa [Piece.text] using hleft)
  · exact aligning_alignment
  · exact aligning_of_notMem (by simpa [Piece.text] using hright)
  · exact aligning_of_notMem (by simp [Piece.text])
  · exact aligning_of_notMem (by simp [Piece.text, rowBreak])
  · exact aligning_of_notMem (by simpa [Piece.text] using hcomments)

/-- Rows align if their sides have no `&` of their own. -/
theorem aligning_rowPieces {indent : Text} (hindent : ∀ c ∈ indent, Text.isBlank c = true)
    {rows : List Sides} (h : ∀ s ∈ rows, '&' ∉ s.ink) :
    Aligning (Piece.join (rowPieces indent rows)) := by
  have hline : Aligning ('\n' :: indent) := by
    apply aligning_of_notMem
    intro hmem
    have hblank := hindent _ ((List.mem_cons.1 hmem).resolve_left (by decide))
    exact absurd hblank (by decide)
  fun_induction rowPieces indent rows with
  | case1 => exact aligning_of_notMem List.not_mem_nil
  | case2 s => exact hline.append (aligning_pieces (h s List.mem_cons_self) true)
  | case3 s next rest ih =>
      rw [List.cons_append, Piece.join_cons, Piece.join_append]
      obtain ⟨hs, hrest⟩ := List.forall_mem_cons.1 h
      exact hline.append ((aligning_pieces hs false).append (ih hrest))

/-- So does the environment around them, unless its name has an `&`. -/
theorem aligning_layOut {style : RowStyle} {rows : List Sides} (henv : '&' ∉ style.environment)
    (h : ∀ s ∈ rows, '&' ∉ s.ink) : Aligning (layOut style (rows.map Sides.row)) := by
  have hopening : Aligning (Environment.openingTag style.environment) :=
    aligning_of_notMem (by simp [Environment.openingTag_eq, henv])
  have hclosing : Aligning ('\n' :: Environment.closingTag style.environment) :=
    aligning_of_notMem (by simp [Environment.closingTag_eq, henv])
  rw [layOut, ← join_rowPieces]
  exact (hopening.append (aligning_rowPieces (fun _ => isBlank_of_mem_replicate) h)).append hclosing

/-- What stands between two signs has its characters from the text, in their order. -/
theorem between?_sublist {opening closing t content : Text}
    (h : between? opening closing t = some content) : content.Sublist t := by
  rw [between?] at h
  split at h
  · next rest hrest =>
      split at h
      · obtain rfl := Option.some.inj h
        rw [eq_append_of_dropPrefix? hrest]
        exact (List.take_sublist _ rest).trans (List.sublist_append_right opening rest)
      · cases h
  · cases h

/-- An equation has no characters but those of the text it is freed from. -/
theorem inner_sublist (t : Text) : (inner t).Sublist t := by
  have hgetD : ∀ found : Option Text, (∀ content ∈ found, content.Sublist t) →
      (found.getD t).Sublist t := by
    rintro (_ | content) h
    · exact List.Sublist.refl t
    · exact h content rfl
  apply hgetD
  intro content hcontent
  obtain ⟨⟨opening, closing⟩, -, hbetween⟩ := List.exists_of_findSome?_eq_some hcontent
  exact (between?_sublist hbetween).trans (Text.trim_sublist t)

/-- **Nothing is lost in a split, and nothing doubled**: apart from whitespace a split equation has
the characters of the equation, with a `&` for each break, a row break for each break but one, and
the tags of the environment. If there is no other `&`, each of them is an alignment mark. -/
theorem ink_and_alignments_of_split? {style : RowStyle} {t r : Text}
    (h : split? style t = some r) :
    ink r = ink (inner t) + Multiset.replicate (breaks (inner t)).length '&' +
        Multiset.replicate (2 * ((breaks (inner t)).length - 1)) '\\' +
        ink (Environment.openingTag style.environment) +
        ink (Environment.closingTag style.environment) ∧
      ('&' ∉ t → '&' ∉ style.environment →
        occurrences "&=".toList r = (breaks (inner t)).length) := by
  have hink := ink_split? h
  refine ⟨hink, ?_⟩
  intro ht henv
  have hinner : '&' ∉ inner t := fun hmem => ht ((inner_sublist t).subset hmem)
  have hblank : Text.isBlank '&' = false := by decide
  -- the rows have no `&` but their marks
  have halign : Aligning r := by
    obtain ⟨left, right, further, hsegments⟩ := exists_segmentsOf (breaks_ne_nil_of_split? h)
    rw [split?_eq_layOut hsegments] at h
    rw [← Option.some.inj h]
    apply aligning_layOut henv
    intro s hs hmem
    have hjoin := segmentsOf_scan (inner t)
    rw [hsegments] at hjoin
    have hsum : '&' ∈ ((sides left right further).map Sides.ink).sum :=
      Multiset.mem_of_le (List.le_sum_of_mem (List.mem_map_of_mem hs)) hmem
    rw [ink_sides] at hsum
    have hmem : '&' ∈ ink (inner t) := by
      rw [← hjoin, ink_segments]
      exact Multiset.mem_add.2 (.inl hsum)
    exact hinner (mem_ink.1 hmem).1
  have hopening : (Environment.openingTag style.environment).count '&' = 0 :=
    List.count_eq_zero.2 (by simp [Environment.openingTag_eq, henv])
  have hclosing : (Environment.closingTag style.environment).count '&' = 0 :=
    List.count_eq_zero.2 (by simp [Environment.closingTag_eq, henv])
  have hmarks : occurrences "&=".toList r = r.count '&' := halign.occurrences_eq
  rw [hmarks, ← count_ink hblank, hink]
  simp only [Multiset.count_add, count_ink hblank, hopening, hclosing,
    List.count_eq_zero.2 hinner, Multiset.count_replicate]
  simp

/-- The comments of both sides move to the end of the first row. -/
theorem ink_and_alignments_of_comments :
    ∃ r, split? .standard "a % x\n= b % y\n= c".toList = some r ∧
      r = "\\begin\x7balign\x7d\n    a &= b \\\\ % x % y\n    &= c\n\\end\x7balign\x7d".toList ∧
      ink r = ink "a % x\n= b % y\n= c".toList + Multiset.replicate 2 '&' +
        Multiset.replicate 2 '\\' + ink (Environment.openingTag "align".toList) +
        ink (Environment.closingTag "align".toList) ∧
      occurrences "&=".toList r = 2 := by
  have hinner : inner "a % x\n= b % y\n= c".toList = "a % x\n= b % y\n= c".toList := by cbv
  have hbreaks : (breaks "a % x\n= b % y\n= c".toList).length = 2 := by cbv
  have hsplit : split? .standard "a % x\n= b % y\n= c".toList = some
      "\\begin\x7balign\x7d\n    a &= b \\\\ % x % y\n    &= c\n\\end\x7balign\x7d".toList := by
    cbv
  obtain ⟨hink, hmarks⟩ := ink_and_alignments_of_split? hsplit
  rw [hinner, hbreaks] at hink hmarks
  exact ⟨_, hsplit, rfl, hink, hmarks (by decide) (by decide)⟩

end Equation

end MathEdit
