import MathEdit.Proofs.Equation.Stream
import MathEdit.Proofs.Region.Tokens
import MathEdit.Session

/-! # Splitting a region

An equation that is split is freed from the signs around it first. Of the delimiters that math may
be located between these are all fixed signs but parentheses, so the rows of any other region are
made of its content.

* **`inner_text`**: the text of a region without the signs is its content.
* **`segmentsOf_scan`**: the segments around the breaks make up an equation again.
* **`split_of_locate?`**: what the split of a located region is made of. -/

namespace MathEdit

open Lexeme

/-! ## Texts between signs -/

/-- A text is trimmed already if it has no whitespace at its ends. -/
theorem Text.trim_eq_self {t : Text} (hfirst : Stops Text.isBlank t)
    (hlast : ∀ c ∈ t.getLast?, Text.isBlank c = false) : Text.trim t = t := by
  have hstart : Text.trimStart t = t := by
    cases t with
    | nil => rfl
    | cons c t => exact List.dropWhile_cons_of_neg (by simp [hfirst c rfl])
  rw [Text.trim, hstart, Text.trimEnd]
  rcases List.eq_nil_or_concat' t with rfl | ⟨front, c, rfl⟩
  · rfl
  · have hc : Text.isBlank c = false := hlast c List.getLast?_concat
    rw [List.reverse_concat, List.dropWhile_cons_of_neg (by simp [hc]), ← List.reverse_concat,
      List.reverse_reverse]

namespace Equation

/-- Between its signs a text has what was put there. -/
theorem between?_append (opening closing t : Text) :
    between? opening closing (opening ++ t ++ closing) = some t := by
  have hsuffix : closing.isSuffixOf (t ++ closing) = true :=
    List.isSuffixOf_iff_suffix.2 (List.suffix_append t closing)
  rw [between?, List.append_assoc, Text.dropPrefix?_append]
  simp [hsuffix]

/-- The signs that an equation is freed from. -/
theorem signs_eq :
    signs = [(['$', '$'], ['$', '$']), (['\\', '['], ['\\', ']']), (['$'], ['$'])] := by decide

end Equation

namespace Region

/-- No region starts or ends with whitespace. -/
theorem trim_text (region : Region) : Text.trim region.text = region.text := by
  apply Text.trim_eq_self
  -- no delimiter starts or ends in a blank
  · rw [text, List.append_assoc]
    cases region.delimiters with
    | environment name =>
        rw [Delimiters.opening, Environment.openingTag_eq]
        rintro c ⟨⟩
        rfl
    | _ =>
        rintro c ⟨⟩
        rfl
  · intro c hc
    have hclosing : region.delimiters.closing.getLast? = some c := by
      have hne : region.delimiters.closing ≠ [] := by
        obtain ⟨d, rest, hd, -⟩ := region.delimiters.blocks_closing.exists_cons
        simp [hd]
      rwa [text, Option.mem_def, List.getLast?_append_of_ne_nil _ hne] at hc
    cases hd : region.delimiters with
    | environment name =>
        rw [hd, Delimiters.closing, Environment.closingTag_eq, List.getLast?_concat] at hclosing
        obtain rfl := Option.some.inj hclosing
        rfl
    | _ =>
        rw [hd] at hclosing
        obtain rfl := Option.some.inj hclosing
        rfl

/-- **Regions without their signs**: the content is left, unless the math stands between
parentheses, which are left where they are. -/
theorem inner_text {region : Region} (h : region.SelfDelimited)
    (henvironment : ∀ name, region.delimiters ≠ .environment name) :
    Equation.inner region.text =
      if region.delimiters = .inlineParen then region.text else region.content := by
  rw [Equation.inner, region.trim_text, Equation.signs_eq]
  obtain ⟨start, d, content⟩ := region
  have hbetween := Equation.between?_append d.opening d.closing content
  cases d with
  | displayDollar =>
      simp only [Delimiters.opening, Delimiters.closing] at hbetween
      simp only [text, Delimiters.opening, Delimiters.closing, List.findSome?_cons, hbetween]
      rfl
  | inlineDollar =>
      -- one dollar and the content do not look like two dollars
      obtain ⟨c, rest, rfl⟩ := List.exists_cons_of_ne_nil h.content_ne_nil
      have hc : '$' ≠ c := fun heq => h.head rfl (by rw [heq]; rfl)
      have hdollars : Equation.between? ['$', '$'] ['$', '$'] (['$'] ++ c :: rest ++ ['$']) =
          none := by
        simp [Equation.between?, Text.dropPrefix?, hc]
      have hbracket : Equation.between? ['\\', '['] ['\\', ']'] (['$'] ++ c :: rest ++ ['$']) =
          none := rfl
      simp only [Delimiters.opening, Delimiters.closing] at hbetween
      simp only [text, Delimiters.opening, Delimiters.closing, List.findSome?_cons, hdollars,
        hbracket, hbetween]
      rfl
  | displayBracket =>
      have hdollars : Equation.between? ['$', '$'] ['$', '$'] (['\\', '['] ++ content ++
          ['\\', ']']) = none := rfl
      simp only [Delimiters.opening, Delimiters.closing] at hbetween
      simp only [text, Delimiters.opening, Delimiters.closing, List.findSome?_cons, hdollars,
        hbetween]
      rfl
  | inlineParen => rfl
  | environment name => exact absurd rfl (henvironment name)

/-- The equation in a region is its content or the whole region, and an environment is whole. -/
theorem inner_eq_content_or_text {region : Region} (h : region.SelfDelimited) :
    Equation.inner region.text = region.content ∧
        (∀ name, region.delimiters ≠ .environment name) ∨
      Equation.inner region.text = region.text := by
  by_cases henvironment : ∃ name, region.delimiters = .environment name
  · obtain ⟨name, hname⟩ := henvironment
    right
    rw [Equation.inner, region.trim_text, Equation.signs_eq, text, hname, Delimiters.opening,
      Environment.openingTag_eq]
    rfl
  · have hsign : ∀ name, region.delimiters ≠ .environment name :=
      fun name hname => henvironment ⟨name, hname⟩
    -- the signs that are looked for leave out the parentheses
    rw [inner_text h hsign]
    by_cases hparen : region.delimiters = .inlineParen
    · exact .inr (if_pos hparen)
    · exact .inl ⟨if_neg hparen, hsign⟩

end Region

/-! ## The segments of an equation -/

namespace Equation

/-- The segments of an equation, put together with the signs between them, are the equation. -/
theorem segmentsOf_append {ts : List Token}
    (hsign : ∀ t ∈ ts, t.kind = .operator '=' → t.text = ['=']) :
    (segmentsOf ts).1 ++ (segmentsOf ts).2.flatMap ('=' :: ·) = Token.join ts := by
  induction ts with
  | nil => rfl
  | cons t ts ih =>
      have hrest := ih fun u hu => hsign u (List.mem_cons_of_mem t hu)
      have hjoin : Token.join (t :: ts) = t.text ++ Token.join ts := rfl
      rw [hjoin, ← hrest, segmentsOf]
      by_cases hbreak : isBreak t ts = true
      · have htext := hsign t List.mem_cons_self (kind_and_counter_of_isBreak hbreak).1
        simp [hbreak, htext]
      · simp [hbreak]

/-- **Segments**: what stands around the breaks of a text makes up the text again. -/
theorem segmentsOf_scan (t : Text) :
    (segmentsOf (scan t)).1 ++ (segmentsOf (scan t)).2.flatMap ('=' :: ·) = t := by
  have hsign : ∀ u ∈ scan t, u.kind = .operator '=' → u.text = ['='] := by
    intro u hu hkind
    have hlex : u.toLexeme ∈ lex t := by
      rw [← Token.map_toLexeme_place 0 0 (lex t)]
      exact List.mem_map_of_mem hu
    exact text_of_operator hlex hkind
  rw [segmentsOf_append hsign, join_scan]

/-- Without a break there is nothing to split. -/
theorem split?_eq_none {style : RowStyle} {t : Text} (h : breaks (inner t) = []) :
    split? style t = none := by
  have hlength := length_segmentsOf (scan (inner t))
  rw [← breaks, h, List.length_nil, List.length_eq_zero_iff] at hlength
  unfold split?
  split
  · next left right further hsegments =>
      rw [hsegments] at hlength
      cases hlength
  · rfl

/-- Only an equation with a break is split. -/
theorem breaks_ne_nil_of_split? {style : RowStyle} {t r : Text} (h : split? style t = some r) :
    breaks (inner t) ≠ [] := by
  intro hnil
  rw [split?_eq_none hnil] at h
  cases h

end Equation

/-! ## Splits in a document -/

/-- **Splitting what is located**: math between other delimiters than parentheses and tags is freed
from its delimiters, and the rows of its split are made of the segments of its content. -/
theorem split_of_locate? {s : Session} {t : Text} {offset : Nat} {region : Region}
    (h : s.locate? t offset = some region)
    (henvironment : ∀ name, region.delimiters ≠ .environment name)
    (hparen : region.delimiters ≠ .inlineParen) :
    Equation.inner region.text = region.content ∧
      (Equation.breaks region.content = [] → s.splitAt? t offset = none) ∧
      (Equation.breaks region.content ≠ [] → ∃ left right further,
        Equation.segmentsOf (scan region.content) = (left, right :: further) ∧
        left ++ (right :: further).flatMap ('=' :: ·) = region.content ∧
        s.splitAt? t offset = some ⟨region.start, region.stop, Equation.layOut s.config.rows
          ((Equation.sides left right further).map Equation.Sides.row)⟩) := by
  have hself : region.SelfDelimited := Region.selfDelimited_of_locate? h
  have hinner : Equation.inner region.text = region.content := by
    rw [Region.inner_text hself henvironment, if_neg hparen]
  have hsplit : s.splitAt? t offset = (Equation.split? s.config.rows region.text).map
      fun rows => ⟨region.start, region.stop, rows⟩ := by
    rw [Session.splitAt?, h]
    show (Equation.split? s.config.rows region.text).bind _ = _
    cases Equation.split? s.config.rows region.text <;> rfl
  -- so the edit is the split of the content
  refine ⟨hinner, ?_, ?_⟩
  · intro hnone
    rw [hsplit, Equation.split?_eq_none (hinner.symm ▸ hnone), Option.map_none]
  · intro hbreaks
    obtain ⟨left, right, further, hsegments⟩ := Equation.exists_segmentsOf hbreaks
    have hjoin := Equation.segmentsOf_scan region.content
    rw [hsegments] at hjoin
    refine ⟨left, right, further, hsegments, hjoin, ?_⟩
    rw [hsplit, Equation.split?_eq_layOut (hinner.symm ▸ hsegments), Option.map_some]

/-- The content of display math may start with an escaped bracket, which is no sign around it. -/
theorem split_of_locate?_behind_bracket :
    (Session.new .standard).locate? "x \\[\\]a = b\\]".toList 5 =
        some ⟨2, .displayBracket, "\\]a = b".toList⟩ ∧
      Equation.inner "\\[\\]a = b\\]".toList = "\\]a = b".toList ∧
      (Session.new .standard).splitAt? "x \\[\\]a = b\\]".toList 5 =
        some ⟨2, 13, Equation.layOut .standard
          ((Equation.sides "\\]a ".toList " b".toList []).map Equation.Sides.row)⟩ := by
  have hlocate : (Session.new .standard).locate? "x \\[\\]a = b\\]".toList 5 =
      some ⟨2, .displayBracket, "\\]a = b".toList⟩ := by decide +kernel
  have hsegments : Equation.segmentsOf (scan "\\]a = b".toList) =
      ("\\]a ".toList, [" b".toList]) := by decide +kernel
  have hbreaks : Equation.breaks "\\]a = b".toList ≠ [] := by decide +kernel
  obtain ⟨hinner, -, hsplit⟩ := split_of_locate? hlocate (by simp) (by simp)
  obtain ⟨left, right, further, h, -, hedit⟩ := hsplit hbreaks
  obtain ⟨rfl, hrest⟩ := Prod.mk.inj (hsegments.symm.trans h)
  obtain ⟨rfl, rfl⟩ := List.cons.inj hrest
  exact ⟨hlocate, hinner, hedit⟩

/-- The parentheses around inline math stay, and the split puts them into its row. -/
theorem split_keeps_parentheses :
    (Session.new .standard).locate? "\\(a = b\\)".toList 2 =
        some ⟨0, .inlineParen, "a = b".toList⟩ ∧
      Equation.inner "\\(a = b\\)".toList ≠ "a = b".toList ∧
      (Session.new .standard).splitAt? "\\(a = b\\)".toList 2 =
        some ⟨0, 9, "\\begin\x7balign\x7d\n    \\(a &= b\\)\n\\end\x7balign\x7d".toList⟩ := by
  have hlocate : (Session.new .standard).locate? "\\(a = b\\)".toList 2 =
      some ⟨0, .inlineParen, "a = b".toList⟩ := by decide +kernel
  have hinner : Equation.inner "\\(a = b\\)".toList ≠ "a = b".toList := by decide +kernel
  have hsplit : (Session.new .standard).splitAt? "\\(a = b\\)".toList 2 =
      some ⟨0, 9, "\\begin\x7balign\x7d\n    \\(a &= b\\)\n\\end\x7balign\x7d".toList⟩ := by
    decide +kernel
  exact ⟨hlocate, hinner, hsplit⟩

end MathEdit
