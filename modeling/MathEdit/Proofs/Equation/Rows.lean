import MathEdit.Proofs.Equation.Marks

/-! # Reading a split equation row by row

What a text shows can be read off a split equation row by row, if whitespace shows nothing and
separates what stands on its two sides.

* **`Equation.Reading`**: what such a reading of texts needs.
* **`Equation.Reading.rows`**: the rows of a split equation show what their sides show, and the
  marks between them.
* **`Equation.Reading.layOut`**: the split equation shows its tags around that. -/

namespace MathEdit.Equation

/-- A segment that does not end in a comment is taken over as it is, but for whitespace. -/
theorem part_of_not_endsInComment {s : Text} (h : ¬ EndsInComment (Text.trim s)) :
    part s = ⟨Text.trim s, none⟩ := by
  dsimp only [part, Part.ofText]
  split
  · next l hl => rw [if_neg fun hkind => h ⟨l, hl, hkind⟩]
  · rfl

/-- A reading `f` of texts to which whitespace shows nothing. Whitespace separates a text that
stands before it, if the text is `Whole`; `mark` and `lineEnd` are what the marks of the layout
show. -/
structure Reading {α : Type} (f : Text → List α) (Whole : Text → Prop) (mark lineEnd : List α) :
    Prop where
  nil : f [] = []
  blank {c : Char} (hc : Text.isBlank c = true) (u : Text) : f (c :: u) = f u
  append {s : Text} (hs : Whole s) {c : Char} (hc : Text.isBlank c = true) (u : Text) :
    f (s ++ c :: u) = f s ++ f u
  alignment (u : Text) : f ('&' :: '=' :: u) = mark ++ f u
  rowBreak (u : Text) : f ('\\' :: '\\' :: u) = lineEnd ++ f u

namespace Reading

variable {α : Type} {f : Text → List α} {Whole : Text → Prop} {mark lineEnd : List α}
  (h : Reading f Whole mark lineEnd)
include h

/-- Whitespace in front shows nothing. -/
theorem blanks_append {s : Text} (hs : ∀ c ∈ s, Text.isBlank c = true) (u : Text) :
    f (s ++ u) = f u := by
  induction s with
  | nil => rfl
  | cons c s ih =>
      obtain ⟨hc, hs⟩ := List.forall_mem_cons.1 hs
      rw [List.cons_append, h.blank hc, ih hs]

/-- A left side shows what it shows alone, whatever comes behind the space after it. -/
theorem left_append {left : Text} (hleft : Whole left) (u : Text) :
    f ((if left = [] then [] else left ++ [' ']) ++ u) = f left ++ f u := by
  by_cases hnil : left = []
  · rw [if_pos hnil, hnil, List.nil_append, h.nil, List.nil_append]
  · rw [if_neg hnil, List.append_assoc]
    exact h.append hleft rfl u

/-- So does a right side between two blanks. -/
theorem right_append {right : Text} (hright : Whole right) {c : Char}
    (hc : Text.isBlank c = true) (u : Text) :
    f ((if right = [] then [] else ' ' :: right) ++ c :: u) = f right ++ f u := by
  by_cases hnil : right = []
  · rw [if_pos hnil, hnil, List.nil_append, h.blank hc, h.nil, List.nil_append]
  · rw [if_neg hnil, List.cons_append, h.blank rfl, h.append hright hc]

/-- A row without comments shows its sides and its marks. -/
theorem render {s : Sides} {last : Bool} (hleft : Whole s.left) (hright : Whole s.right)
    (hcomments : s.comments = []) (u : Text) :
    f (s.row.render last ++ '\n' :: u)
      = f s.left ++ mark ++ f s.right ++ (if last then [] else lineEnd) ++ f u := by
  have hrender : s.row.render last ++ '\n' :: u =
      (if s.left = [] then [] else s.left ++ [' ']) ++ '&' :: '=' ::
        ((if s.right = [] then [] else ' ' :: s.right) ++
          ((if last then [] else [' ', '\\', '\\']) ++ '\n' :: u)) := by
    -- an empty side leaves out its space as well
    by_cases hnil : s.left = [] <;> by_cases hnil' : s.right = [] <;> cases last <;>
      simp [Sides.row, Row.render, joinWords, List.intercalate, List.intersperse, hcomments, hnil,
        hnil']
  -- the reading goes along the row: left side, mark, right side and line end
  rw [hrender, h.left_append hleft, h.alignment]
  cases last with
  | true =>
      rw [if_pos rfl, if_pos rfl, List.nil_append, h.right_append hright rfl]
      simp
  | false =>
      have hspace (u : Text) : [' ', '\\', '\\'] ++ u = ' ' :: '\\' :: '\\' :: u := rfl
      rw [if_neg Bool.false_ne_true, if_neg Bool.false_ne_true, hspace, h.right_append hright rfl,
        h.rowBreak, h.blank rfl]
      simp

/-- **What the rows show**: each row its sides, and row breaks stand before the further rows. -/
theorem rows {indent : Text} (hindent : ∀ c ∈ indent, Text.isBlank c = true) {s : Sides}
    {rest : List Sides}
    (hrows : ∀ r ∈ s :: rest, Whole r.left ∧ Whole r.right ∧ r.comments = []) (u : Text) :
    f (((renderRows ((s :: rest).map Sides.row)).flatMap fun row => '\n' :: indent ++ row) ++
        '\n' :: u)
      = f s.left ++ mark ++ f s.right ++
        rest.flatMap (fun r => lineEnd ++ f r.left ++ mark ++ f r.right) ++ f u := by
  have hline (w : Text) : f ('\n' :: indent ++ w) = f w := by
    rw [List.cons_append, h.blank rfl, h.blanks_append hindent]
  induction rest generalizing s with
  | nil =>
      obtain ⟨hleft, hright, hcomments⟩ := hrows s List.mem_cons_self
      simp only [List.map_cons, List.map_nil, renderRows, List.flatMap_cons, List.flatMap_nil,
        List.append_nil]
      rw [List.append_assoc, hline, h.render hleft hright hcomments]
      simp
  | cons r rest ih =>
      obtain ⟨hleft, hright, hcomments⟩ := hrows s List.mem_cons_self
      have hrest := ih fun u hu => hrows u (List.mem_cons_of_mem s hu)
      -- the next row starts on a line of its own, and its newline ends this row
      have hnext : ∃ w, ((renderRows ((r :: rest).map Sides.row)).flatMap fun row =>
          '\n' :: indent ++ row) ++ '\n' :: u = '\n' :: w := by
        cases rest <;> exact ⟨_, rfl⟩
      obtain ⟨w, hw⟩ := hnext
      rw [hw, h.blank rfl] at hrest
      rw [List.map_cons, List.map_cons, renderRows, ← List.map_cons, List.flatMap_cons,
        List.append_assoc, List.append_assoc, hw, hline, h.render hleft hright hcomments, hrest]
      simp

/-- A split equation shows what its rows show between its tags. -/
theorem layOut {style : RowStyle} {opening closing : List α} {s : Sides} {rest : List Sides}
    (hopening : ∀ u, f (Environment.openingTag style.environment ++ u) = opening ++ f u)
    (hclosing : f (Environment.closingTag style.environment) = closing)
    (hrows : ∀ r ∈ s :: rest, Whole r.left ∧ Whole r.right ∧ r.comments = []) :
    f (Equation.layOut style ((s :: rest).map Sides.row)) =
      opening ++ (f s.left ++ mark ++ f s.right ++
        rest.flatMap (fun r => lineEnd ++ f r.left ++ mark ++ f r.right)) ++ closing := by
  rw [Equation.layOut, List.append_assoc, hopening,
    h.rows (fun _ => isBlank_of_mem_replicate) hrows, hclosing]
  simp

end Reading

end MathEdit.Equation
