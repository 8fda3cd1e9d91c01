import Mathlib
import MathEdit.Proofs.Equation.Breaks
import MathEdit.Proofs.Text.Trim
import MathEdit.Proofs.Token.Blanks

/-! # The marks of a split equation

A split equation is made of pieces of the source and of marks that the layout puts between them: the
tags of the environment, the alignment marks `&=` and the row breaks. A mark stands if it is scanned
as what it is meant to be.

* **`Piece.Stand`**: all marks of a list of pieces stand.
* **`Equation.pieces`**: the pieces of a split equation; `join_pieces` says that they make it up.
* **`Equation.stand_pieces_iff`**: what keeps the marks from standing: a comment that was not moved,
  or a name that was left open. -/

namespace MathEdit

open Lexeme

/-- A piece of a layout. -/
inductive Piece where
  /-- Text between the marks. -/
  | plain (t : Text)
  /-- A mark, given by the lexemes it is meant to be. -/
  | mark (ls : List Lexeme)

namespace Piece

/-- The text of a piece. -/
def text : Piece → Text
  | plain t => t
  | mark ls => Lexeme.join ls

/-- The text of a list of pieces. -/
def join (ps : List Piece) : Text := ps.flatMap text

/-- Whether lexemes are scanned as themselves between two texts. -/
def Stands (front : Text) (ls : List Lexeme) (back : Text) : Prop :=
  ∃ a b, lex (front ++ Lexeme.join ls ++ back) = a ++ ls ++ b ∧ Lexeme.join a = front

/-- Whether every mark among the pieces stands between the two texts. -/
def Stand (front : Text) : List Piece → Text → Prop
  | [], _ => True
  | plain t :: ps, back => Stand (front ++ t) ps back
  | mark ls :: ps, back =>
      Stands front ls (join ps ++ back) ∧ Stand (front ++ Lexeme.join ls) ps back

/-- No pieces make up the empty text. -/
@[simp] theorem join_nil : join [] = [] := rfl

/-- A piece stands before the text of the pieces behind it. -/
@[simp] theorem join_cons (p : Piece) (ps : List Piece) : join (p :: ps) = p.text ++ join ps := rfl

/-- The texts of two lists of pieces follow on each other. -/
@[simp] theorem join_append (ps qs : List Piece) : join (ps ++ qs) = join ps ++ join qs :=
  List.flatMap_append

/-- Marks stand in a list if they do in its parts, each between the texts around it. -/
theorem stand_append_iff {front back : Text} {ps qs : List Piece} :
    Stand front (ps ++ qs) back ↔
      Stand front ps (join qs ++ back) ∧ Stand (front ++ join ps) qs back := by
  induction ps generalizing front with
  | nil => simp [Stand]
  | cons p ps ih =>
      cases p with
      | plain t => simp [Stand, ih, text]
      | mark ls => simp [Stand, ih, text, and_assoc]

/-- A mark that begins what follows stands exactly if a boundary comes before it. -/
theorem stands_iff_apart {front back : Text} {ls : List Lexeme} (h : BeginsEach ls back) :
    Stands front ls back ↔ Apart front (Lexeme.join ls ++ back) := by
  rw [lex_append_iff]
  constructor
  · -- the lexemes before the mark make up the front
    rintro ⟨a, b, hlex, hjoin⟩
    exact ⟨a, ls ++ b, by rw [← List.append_assoc, hlex, List.append_assoc], hjoin⟩
  · intro hapart
    rw [← lex_append_iff, Apart, lex_join_append_iff.2 h] at hapart
    exact ⟨lex front, lex back, by rw [List.append_assoc, hapart, List.append_assoc], join_lex _⟩

/-- Behind a boundary the marks that stand are those of the text behind it. -/
theorem stand_iff_of_apart {s front back : Text} {ps : List Piece}
    (hmarks : ∀ ls, .mark ls ∈ ps → ∀ u, BeginsEach ls u)
    (h : Apart s (front ++ join ps ++ back)) :
    Stand (s ++ front) ps back ↔ Stand front ps back := by
  induction ps generalizing front with
  | nil => exact Iff.rfl
  | cons p ps ih =>
      have hrest : ∀ ls, .mark ls ∈ ps → ∀ u, BeginsEach ls u := fun ls hls =>
        hmarks ls (List.mem_cons_of_mem p hls)
      rw [join_cons] at h
      have htail : Stand (s ++ (front ++ p.text)) ps back ↔ Stand (front ++ p.text) ps back :=
        ih hrest (by simpa using h)
      cases p with
      | plain t => simpa [Stand, text] using htail
      | mark ls =>
          -- a mark stands where a boundary comes before it, and `s` moves no boundary
          have hbegins := hmarks ls List.mem_cons_self (join ps ++ back)
          have hmark : Apart s (front ++ (Lexeme.join ls ++ (join ps ++ back))) := by
            simpa [text] using h
          rw [Stand, Stand, stands_iff_apart hbegins, stands_iff_apart hbegins, hmark.append_iff]
          simpa [text] using and_congr_right fun _ => htail

end Piece

namespace Equation

/-! ## The pieces of a row -/

/-- The alignment mark. -/
def alignment : List Lexeme := [⟨.operator '&', ['&']⟩, ⟨.operator '=', ['=']⟩]

/-- The row break. -/
def rowBreak : List Lexeme := [⟨.rowBreak, ['\\', '\\']⟩]

/-- What a row has on the two sides of its alignment mark, and the comments at its end. -/
structure Sides where
  left : Text
  right : Text
  comments : List Text
  deriving DecidableEq, Repr

namespace Sides

/-- The row with these sides. -/
def row (s : Sides) : Row := ⟨joinWords [s.left, "&=".toList, s.right], s.comments⟩

/-- The pieces after the alignment mark: the right side, the row break and the comments. -/
def tail (s : Sides) (last : Bool) : List Piece :=
  (if s.right = [] then [] else [.plain (' ' :: s.right)]) ++
    (if last then [] else [.plain [' '], .mark rowBreak]) ++
    [.plain (s.comments.flatMap (' ' :: ·))]

/-- The pieces of a row. -/
def pieces (s : Sides) (last : Bool) : List Piece :=
  (if s.left = [] then [] else [.plain (s.left ++ [' '])]) ++ .mark alignment :: s.tail last

/-- The pieces make up the row. -/
theorem join_pieces (s : Sides) (last : Bool) :
    Piece.join (s.pieces last) = s.row.render last := by
  have hmark : Lexeme.join alignment = "&=".toList := rfl
  have hbreak : Lexeme.join rowBreak = ['\\', '\\'] := rfl
  by_cases hleft : s.left = [] <;> by_cases hright : s.right = [] <;> cases last <;>
    simp [pieces, tail, row, Row.render, joinWords, Piece.text, hmark, hbreak, hleft, hright,
      List.intercalate, List.intersperse]

/-- What a row must not do for its marks to stand: end a side with a comment before a mark, or leave
a name open that closes after the alignment mark. -/
structure Clear (s : Sides) (last : Bool) : Prop where
  left : ¬ EndsInComment s.left
  right : last = false → ¬ EndsInComment s.right
  name : ¬ (LeavesNameOpen s.left ∧ closesName (Piece.join (s.tail last)) = true)

end Sides

/-! ## Rows whose marks stand -/

/-- The alignment mark is scanned as itself before any text. -/
theorem beginsEach_alignment (u : Text) : BeginsEach alignment u :=
  ⟨.sign rfl, .sign rfl, trivial⟩

/-- So is the row break. -/
theorem beginsEach_rowBreak (u : Text) : BeginsEach rowBreak u :=
  ⟨.escaped rfl, trivial⟩

/-- And so is every mark behind the alignment mark of a row. -/
theorem beginsEach_of_mem_tail {s : Sides} {last : Bool} :
    ∀ ls, .mark ls ∈ s.tail last → ∀ u, BeginsEach ls u := by
  intro ls hls u
  have hbreak : ls = rowBreak := by
    cases last with
    | true => by_cases hnil : s.right = [] <;> simp [Sides.tail, hnil] at hls
    | false => by_cases hnil : s.right = [] <;> simpa [Sides.tail, hnil] using hls
  rw [hbreak]
  exact beginsEach_rowBreak u

/-- The alignment mark of a row stands unless its left side hides it. -/
theorem stands_alignment_iff {left back : Text} :
    Piece.Stands (if left = [] then [] else left ++ [' ']) alignment back ↔
      ¬ EndsInComment left ∧ ¬ (LeavesNameOpen left ∧ closesName back = true) := by
  rw [Piece.stands_iff_apart (beginsEach_alignment back)]
  by_cases hleft : left = []
  · subst hleft
    simp [Apart, not_endsInComment_nil, not_leavesNameOpen_nil]
  · -- a space stands between the left side and the mark
    rw [if_neg hleft]
    exact apart_space_iff (by decide) (by decide)

/-- The row break of a row stands unless its right side ends in a comment. -/
theorem stands_rowBreak_iff {right : Text} (hright : Stops Text.isBlank right) (back : Text) :
    Piece.Stands ((if right = [] then [] else ' ' :: right) ++ [' ']) rowBreak back ↔
      ¬ EndsInComment right := by
  -- no name runs over the backslashes of the row break
  have hcloses : closesName ('\\' :: '\\' :: back) = false := rfl
  have hspace : Apart (right ++ [' ']) ('\\' :: '\\' :: back) ↔ ¬ EndsInComment right := by
    rw [apart_space_iff (by decide) (by decide), hcloses]
    simp
  rw [Piece.stands_iff_apart (beginsEach_rowBreak back), ← hspace]
  by_cases hnil : right = []
  · subst hnil
    exact Iff.rfl
  · have hstops : Stops Text.isBlank (right ++ [' '] ++ '\\' :: '\\' :: back) := by
      rw [List.append_assoc]
      exact hright.append hnil _
    rw [if_neg hnil]
    exact (apart_space hstops).append_iff

/-- After its alignment mark a row has no mark but the row break. -/
theorem stand_tail_iff {s : Sides} (hright : Stops Text.isBlank s.right) (last : Bool)
    (back : Text) :
    Piece.Stand [] (s.tail last) back ↔ (last = false → ¬ EndsInComment s.right) := by
  cases last with
  | true =>
      -- the last row has no row break
      by_cases hnil : s.right = [] <;> simp [Sides.tail, Piece.Stand, hnil]
  | false =>
      have hbreak := stands_rowBreak_iff hright
        (Piece.join [.plain (s.comments.flatMap (' ' :: ·))] ++ back)
      by_cases hnil : s.right = []
      · simpa [Sides.tail, Piece.Stand, hnil] using hbreak
      · simpa [Sides.tail, Piece.Stand, hnil] using hbreak

/-- **Rows**: the marks of a row stand exactly if the row is clear. -/
theorem stand_pieces_of_row {s : Sides} {last : Bool} {back : Text}
    (hright : Stops Text.isBlank s.right) :
    Piece.Stand [] (s.pieces last) ('\n' :: back) ↔ s.Clear last := by
  have hsplit (left : Text) :
      Piece.Stand [] ((if left = [] then [] else [.plain (left ++ [' '])]) ++
          .mark alignment :: s.tail last) ('\n' :: back) ↔
        Piece.Stands (if left = [] then [] else left ++ [' ']) alignment
            (Piece.join (s.tail last) ++ '\n' :: back) ∧
          Piece.Stand ((if left = [] then [] else left ++ [' ']) ++ Lexeme.join alignment)
            (s.tail last) ('\n' :: back) := by
    by_cases hleft : left = [] <;> simp [Piece.Stand, hleft]
  have htail := stand_tail_iff hright last ('\n' :: back)
  rw [Sides.pieces, hsplit]
  have hrest : Piece.Stands (if s.left = [] then [] else s.left ++ [' ']) alignment
      (Piece.join (s.tail last) ++ '\n' :: back) →
        (Piece.Stand ((if s.left = [] then [] else s.left ++ [' ']) ++ Lexeme.join alignment)
            (s.tail last) ('\n' :: back) ↔ (last = false → ¬ EndsInComment s.right)) := by
    intro hstands
    -- a mark that stands ends at a boundary, so the rest of the row can be looked at alone
    have hmark := beginsEach_alignment (Piece.join (s.tail last) ++ '\n' :: back)
    have hfront := (Piece.stands_iff_apart hmark).1 hstands
    have hapart := hfront.append_iff.2 (lex_join_of_beginsEach hmark).2
    rw [← htail, ← List.append_nil (_ ++ Lexeme.join alignment)]
    exact Piece.stand_iff_of_apart beginsEach_of_mem_tail hapart
  -- a newline ends every name, so only the row itself can close one
  rw [and_congr_right hrest, stands_alignment_iff, closesName_append rfl]
  constructor
  · rintro ⟨⟨hleft, hname⟩, hbreak⟩
    exact ⟨hleft, hbreak, hname⟩
  · rintro ⟨hleft, hbreak, hname⟩
    exact ⟨⟨hleft, hname⟩, hbreak⟩

/-! ## The pieces of a split equation -/

/-- A segment between two breaks, with the comment that ends it taken off. -/
def part (segment : Text) : Part := Part.ofText (Text.trim segment)

/-- The sides of the first row, around the first break. -/
def firstSides (left right : Text) : Sides :=
  ⟨(part left).code, (part right).code,
    (part left).comment.toList ++ (part right).comment.toList⟩

/-- The sides of the row of a further break. -/
def furtherSides (right : Text) : Sides := ⟨[], (part right).code, (part right).comment.toList⟩

/-- The sides of the rows of a split equation, given by the segments around its breaks. -/
def sides (left right : Text) (further : List Text) : List Sides :=
  firstSides left right :: further.map furtherSides

/-- The pieces of rows, each on a line of its own. -/
def rowPieces (indent : Text) : List Sides → List Piece
  | [] => []
  | [s] => .plain ('\n' :: indent) :: s.pieces true
  | s :: next :: rest =>
      .plain ('\n' :: indent) :: s.pieces false ++ rowPieces indent (next :: rest)

/-- The opening tag of an environment as a mark. -/
def openingMark (name : Text) : List Lexeme :=
  [⟨.opening (.environment name), Environment.openingTag name⟩]

/-- The closing tag of an environment as a mark. -/
def closingMark (name : Text) : List Lexeme :=
  [⟨.closing (.environment name), Environment.closingTag name⟩]

/-- The pieces of a split equation. -/
def pieces (style : RowStyle) (rows : List Sides) : List Piece :=
  .mark (openingMark style.environment) ::
    (rowPieces (List.replicate style.indent ' ') rows ++
      [.plain ['\n'], .mark (closingMark style.environment)])

/-- The pieces of rows make up the rendered rows, each on a line of its own. -/
theorem join_rowPieces (indent : Text) (rows : List Sides) :
    Piece.join (rowPieces indent rows)
      = (renderRows (rows.map Sides.row)).flatMap fun row => '\n' :: indent ++ row := by
  fun_induction rowPieces indent rows with
  | case1 => rfl
  | case2 s => simp [renderRows, Piece.text, Sides.join_pieces]
  | case3 s next rest ih =>
      simp only [List.map_cons, renderRows, List.flatMap_cons] at ih ⊢
      simp [Piece.text, Sides.join_pieces, ih]

/-- The pieces make up the layout. -/
theorem join_pieces (style : RowStyle) (rows : List Sides) :
    Piece.join (pieces style rows) = layOut style (rows.map Sides.row) := by
  simp [pieces, layOut, join_rowPieces, openingMark, closingMark, Piece.text]

/-- An equation with a break is split into the rows of its sides. -/
theorem split?_eq_layOut {style : RowStyle} {t left right : Text} {further : List Text}
    (h : segmentsOf (scan (inner t)) = (left, right :: further)) :
    split? style t = some (layOut style ((sides left right further).map Sides.row)) := by
  have hfurther : Sides.row ∘ furtherSides = fun s => furtherRow (part s) := by
    funext s
    simp [furtherRow, furtherSides, Sides.row, joinWords]
  rw [sides, List.map_cons, List.map_map, hfurther, split?, h]
  rfl

/-- An equation with a break is split into the rows of its segments. -/
theorem split_eq_layOut {style : RowStyle} {t left right : Text} {further : List Text}
    (h : segmentsOf (scan (inner t)) = (left, right :: further)) :
    split style t = layOut style ((sides left right further).map Sides.row) := by
  rw [split, split?_eq_layOut h, Option.getD_some]

/-! ## Trimmed parts -/

/-- A text that starts outside of a class still does when its end is cut off. -/
theorem Stops.of_prefix {p : Char → Bool} {s t : Text} (h : s <+: t) (ht : Stops p t) :
    Stops p s := by
  obtain ⟨rest, rfl⟩ := h
  exact ht.of_append

/-- What is left of a text without its trailing comment is its front. -/
theorem code_ofText_prefix_self (t : Text) : (Part.ofText t).code <+: t := by
  dsimp only [Part.ofText]
  split
  · next l h =>
      split
      · -- the last lexeme is a comment, and the code is what comes before it
        apply (Text.trimEnd_prefix_self _).trans
        have hlex := join_lex t
        rw [← List.dropLast_append_getLast? l h, join_append] at hlex
        exact ⟨_, hlex⟩
      · exact List.prefix_refl t
  · exact List.prefix_refl t

/-- No part starts with whitespace. -/
theorem stops_code_part (segment : Text) : Stops Text.isBlank (part segment).code := by
  apply Stops.of_prefix ((code_ofText_prefix_self _).trans (Text.trimEnd_prefix_self _))
  exact stops_dropWhile Text.isBlank segment

/-! ## All marks -/

/-- Every mark of a row is scanned as itself before any text. -/
theorem beginsEach_of_mem_pieces {s : Sides} {last : Bool} :
    ∀ ls, .mark ls ∈ s.pieces last → ∀ u, BeginsEach ls u := by
  intro ls hls u
  rw [Sides.pieces, List.mem_append, List.mem_cons] at hls
  rcases hls with hls | hls | hls
  · by_cases hleft : s.left = [] <;> simp [hleft] at hls
  · obtain rfl := Piece.mark.inj hls
    exact beginsEach_alignment u
  · exact beginsEach_of_mem_tail ls hls u

/-- No row starts with whitespace. -/
theorem stops_join_pieces {s : Sides} (hleft : Stops Text.isBlank s.left) (last : Bool)
    (back : Text) : Stops Text.isBlank (Piece.join (s.pieces last) ++ back) := by
  rw [Sides.pieces, Piece.join_append]
  by_cases hnil : s.left = []
  · rw [if_pos hnil]
    rintro c ⟨⟩
    rfl
  · rw [if_neg hnil, Piece.join_cons, Piece.text, Piece.join_nil, List.append_nil,
      List.append_assoc, List.append_assoc]
    exact hleft.append hnil _

/-- The marks of a row stand behind a line start as they stand alone. -/
theorem stand_pieces_of_line {indent front back : Text} {s : Sides} {last : Bool}
    (hindent : ∀ c ∈ indent, Text.isBlank c = true) (hleft : Stops Text.isBlank s.left)
    (hright : Stops Text.isBlank s.right) :
    Piece.Stand (front ++ '\n' :: indent) (s.pieces last) ('\n' :: back) ↔ s.Clear last := by
  rw [← stand_pieces_of_row hright, ← List.append_nil (front ++ '\n' :: indent)]
  apply Piece.stand_iff_of_apart beginsEach_of_mem_pieces
  exact apart_newline hindent (stops_join_pieces hleft last _)

/-- All that rows do is done by the first row or by the others. -/
theorem forall_append_cons_iff {α : Type} {p : α → List α → Prop} {x : α} {xs : List α} :
    (∀ before y after, x :: xs = before ++ y :: after → p y after) ↔
      p x xs ∧ ∀ before y after, xs = before ++ y :: after → p y after := by
  constructor
  · intro h
    refine ⟨h [] x xs rfl, fun before y after hsplit => h (x :: before) y after ?_⟩
    rw [hsplit, List.cons_append]
  · rintro ⟨hx, hxs⟩ before y after hsplit
    cases before with
    | nil =>
        obtain ⟨rfl, rfl⟩ := List.cons.inj hsplit
        exact hx
    | cons z before =>
        obtain ⟨rfl, hrest⟩ := List.cons.inj hsplit
        exact hxs before y after hrest

/-- The marks of rows stand just if every row is clear. -/
theorem stand_rowPieces_iff {indent front back : Text}
    (hindent : ∀ c ∈ indent, Text.isBlank c = true) {rows : List Sides}
    (hrows : ∀ s ∈ rows, Stops Text.isBlank s.left ∧ Stops Text.isBlank s.right) :
    Piece.Stand front (rowPieces indent rows) ('\n' :: back) ↔
      ∀ before s after, rows = before ++ s :: after → s.Clear after.isEmpty := by
  fun_induction rowPieces indent rows generalizing front with
  | case1 => simp [Piece.Stand]
  | case2 s =>
      obtain ⟨hleft, hright⟩ := hrows s List.mem_cons_self
      rw [forall_append_cons_iff, Piece.Stand, stand_pieces_of_line hindent hleft hright]
      simp
  | case3 s next rest ih =>
      obtain ⟨hleft, hright⟩ := hrows s List.mem_cons_self
      -- the next row starts on a line of its own
      have hline :
          ∃ w, Piece.join (rowPieces indent (next :: rest)) ++ '\n' :: back = '\n' :: w := by
        cases rest <;> exact ⟨_, rfl⟩
      obtain ⟨w, hw⟩ := hline
      rw [forall_append_cons_iff, List.cons_append, Piece.Stand, Piece.stand_append_iff, hw,
        stand_pieces_of_line hindent hleft hright,
        ih fun u hu => hrows u (List.mem_cons_of_mem s hu)]
      rfl

/-- The opening tag of an environment is scanned as itself before any text. -/
theorem beginsEach_openingMark {name : Text} (h : Environment.isName name = true) (u : Text) :
    BeginsEach (openingMark name) u :=
  ⟨.openingTag (Environment.ne_nil_of_isName h) (Environment.endsName_of_mem h), trivial⟩

/-- So is its closing tag. -/
theorem beginsEach_closingMark {name : Text} (h : Environment.isName name = true) (u : Text) :
    BeginsEach (closingMark name) u :=
  ⟨.closingTag (Environment.ne_nil_of_isName h) (Environment.endsName_of_mem h), trivial⟩

/-- The closing tag stands on a line of its own, whatever comes before. -/
theorem stands_closingMark {name : Text} (h : Environment.isName name = true) (front : Text) :
    Piece.Stands (front ++ ['\n']) (closingMark name) [] := by
  rw [Piece.stands_iff_apart (beginsEach_closingMark h [])]
  refine apart_newline (fun c hc => absurd hc List.not_mem_nil) ?_
  rw [closingMark, join_cons, Environment.closingTag_eq]
  rintro c ⟨⟩
  rfl

/-- The indent of a row is blank. -/
theorem isBlank_of_mem_replicate {n : Nat} {c : Char} (h : c ∈ List.replicate n ' ') :
    Text.isBlank c = true := by
  rw [List.eq_of_mem_replicate h]
  rfl

/-- The marks of a layout stand exactly if each of its rows is clear. -/
theorem stand_pieces_of_rows {style : RowStyle} {rows : List Sides}
    (hname : Environment.isName style.environment = true)
    (hrows : ∀ s ∈ rows, Stops Text.isBlank s.left ∧ Stops Text.isBlank s.right) :
    Piece.Stand [] (pieces style rows) [] ↔
      ∀ before s after, rows = before ++ s :: after → s.Clear after.isEmpty := by
  have hopening (back : Text) : Piece.Stands [] (openingMark style.environment) back := by
    rw [Piece.stands_iff_apart (beginsEach_openingMark hname back)]
    simp [Apart]
  have hclosing (front : Text) :
      Piece.Stand front [.plain ['\n'], .mark (closingMark style.environment)] [] :=
    ⟨stands_closingMark hname front, trivial⟩
  rw [pieces, Piece.Stand, Piece.stand_append_iff,
    ← stand_rowPieces_iff (fun _ => isBlank_of_mem_replicate) hrows]
  exact ⟨fun h => h.2.1, fun h => ⟨hopening _, h, hclosing _⟩⟩

/-- All but the last are those with some other behind them. -/
theorem mem_dropLast_iff {α : Type} {x : α} {xs : List α} :
    x ∈ xs.dropLast ↔ ∃ before after, xs = before ++ x :: after ∧ after ≠ [] := by
  constructor
  · intro h
    rcases List.eq_nil_or_concat' xs with rfl | ⟨ys, z, rfl⟩
    · simp at h
    · rw [List.dropLast_concat] at h
      obtain ⟨before, after, rfl⟩ := List.append_of_mem h
      exact ⟨before, after ++ [z], by simp, by simp⟩
  · rintro ⟨before, after, rfl, hne⟩
    rcases List.eq_nil_or_concat' after with rfl | ⟨ys, z, rfl⟩
    · exact absurd rfl hne
    · rw [← List.cons_append, ← List.append_assoc, List.dropLast_concat]
      simp

/-- A row without a left side is clear unless it has a row break behind a comment. -/
theorem clear_furtherSides_iff {right : Text} {last : Bool} :
    (furtherSides right).Clear last ↔ (last = false → ¬ EndsInComment (part right).code) :=
  ⟨fun h => h.right, fun h => ⟨not_endsInComment_nil, h, fun h => not_leavesNameOpen_nil h.1⟩⟩

/-- Which of the rows around the breaks are clear. -/
theorem clear_sides_iff {left right : Text} {further : List Text} :
    (∀ before s after, sides left right further = before ++ s :: after → s.Clear after.isEmpty) ↔
      ¬ EndsInComment (part left).code ∧
      (∀ s ∈ (right :: further).dropLast, ¬ EndsInComment (part s).code) ∧
      ¬ (LeavesNameOpen (part left).code ∧
        closesName (Piece.join ((firstSides left right).tail further.isEmpty)) = true) := by
  have hempty : (further.map furtherSides).isEmpty = further.isEmpty := by cases further <;> rfl
  rw [sides, forall_append_cons_iff, hempty]
  constructor
  · rintro ⟨hfirst, hfurther⟩
    refine ⟨hfirst.left, ?_, hfirst.name⟩
    intro s hs
    obtain ⟨before, after, hsplit, hafter⟩ := mem_dropLast_iff.1 hs
    cases before with
    | nil =>
        -- the right side of the first row
        obtain ⟨rfl, rfl⟩ := List.cons.inj hsplit
        exact hfirst.right (by simpa using hafter)
    | cons _ before =>
        -- the right side of a further row
        obtain ⟨-, rfl⟩ := List.cons.inj hsplit
        have hclear := hfurther (before.map furtherSides) (furtherSides s) (after.map furtherSides)
          (by simp)
        exact clear_furtherSides_iff.1 hclear (by simpa using hafter)
  · rintro ⟨hleft, hright, hname⟩
    refine ⟨⟨hleft, fun hlast => hright right ?_, hname⟩, fun before s after hsplit => ?_⟩
    · have hne : further ≠ [] := by simpa using hlast
      exact mem_dropLast_iff.2 ⟨[], further, rfl, hne⟩
    · obtain ⟨front, back, rfl, -, hback⟩ := List.map_eq_append_iff.1 hsplit
      obtain ⟨x, rest, rfl, rfl, rfl⟩ := List.map_eq_cons_iff.1 hback
      refine clear_furtherSides_iff.2 fun hlast => hright x (mem_dropLast_iff.2 ?_)
      exact ⟨right :: front, rest, rfl, by simpa using hlast⟩

/-- **What hides a mark**: the alignment marks, the row breaks and the tags of a split equation are
all scanned as what they are exactly if neither the code before the first break nor that of a
segment before a row break ends in a comment, and no name left open before the first break closes in
the rest of its row. The closing tag always stands. -/
theorem stand_pieces_iff {style : RowStyle} {t : Text}
    (hname : Environment.isName style.environment = true) (hbreaks : breaks (inner t) ≠ []) :
    ∃ left right further, segmentsOf (scan (inner t)) = (left, right :: further) ∧
      Piece.join (pieces style (sides left right further)) = split style t ∧
      closingMark style.environment <:+ lex (split style t) ∧
      (Piece.Stand [] (pieces style (sides left right further)) [] ↔
        ¬ EndsInComment (part left).code ∧
        (∀ s ∈ (right :: further).dropLast, ¬ EndsInComment (part s).code) ∧
        ¬ (LeavesNameOpen (part left).code ∧
          closesName (Piece.join ((firstSides left right).tail further.isEmpty)) = true)) := by
  obtain ⟨left, right, further, hsegments⟩ := exists_segmentsOf hbreaks
  have hjoin : Piece.join (pieces style (sides left right further)) = split style t := by
    rw [join_pieces, split_eq_layOut hsegments]
  refine ⟨left, right, further, hsegments, hjoin, ?_, ?_⟩
  · -- the closing tag is the last of the pieces
    have hmark := beginsEach_closingMark hname []
    have hstands := stands_closingMark hname (Piece.join (.mark (openingMark style.environment) ::
      rowPieces (List.replicate style.indent ' ') (sides left right further)))
    rw [Piece.stands_iff_apart hmark, List.append_nil, Apart, (lex_join_of_beginsEach hmark).1]
      at hstands
    refine ⟨_, hstands.symm.trans ?_⟩
    rw [← hjoin]
    simp [pieces, Piece.text]
  · -- no side starts with whitespace, since the segments are trimmed
    rw [stand_pieces_of_rows hname, clear_sides_iff]
    intro s hs
    rcases List.mem_cons.1 hs with rfl | hs
    · exact ⟨stops_code_part left, stops_code_part right⟩
    · obtain ⟨x, -, rfl⟩ := List.mem_map.1 hs
      exact ⟨by simp [furtherSides, Stops], stops_code_part x⟩

/-- A comment between the sides of a break moves behind the row, and all marks stand. -/
theorem stand_pieces_of_comment :
    Environment.isName RowStyle.standard.environment = true ∧
      breaks (inner "a % x\n= b".toList) ≠ [] ∧
      Piece.Stand [] (pieces .standard (sides "a % x\n".toList " b".toList [])) [] := by
  have hname : Environment.isName RowStyle.standard.environment = true := by cbv
  have hbreaks : breaks (inner "a % x\n= b".toList) = [6] := by cbv
  have hsegments : segmentsOf (scan (inner "a % x\n= b".toList))
      = ("a % x\n".toList, [" b".toList]) := by cbv
  have hcode : (part "a % x\n".toList).code = ['a'] := by cbv
  have hlex : lex ['a'] = [⟨.plain, ['a']⟩] := by cbv
  have hne : breaks (inner "a % x\n= b".toList) ≠ [] := by
    rw [hbreaks]
    exact List.cons_ne_nil _ _
  obtain ⟨left, right, further, h, -, -, hiff⟩ := stand_pieces_iff hname hne
  rw [hsegments] at h
  obtain ⟨rfl, hrest⟩ := Prod.mk.inj h
  obtain ⟨rfl, rfl⟩ := List.cons.inj hrest
  -- the comment has moved to the end of the row, so both sides are clear
  refine ⟨hname, hne, hiff.2 ⟨?_, fun s hs => absurd hs List.not_mem_nil, ?_⟩⟩
  · rw [hcode, EndsInComment, hlex]
    simp
  · rw [hcode]
    rintro ⟨⟨front, name, rest, hsplit, -⟩, -⟩
    have hmem : '\\' ∈ ['a'] := by simp [hsplit]
    exact absurd hmem (by decide)

/-- Of two comments before a break only the last one moves, and the other one hides the alignment
mark. -/
theorem comment_hides_alignment :
    Environment.isName RowStyle.standard.environment = true ∧
      breaks (inner "a % x\n% y\n= b".toList) ≠ [] ∧
      ⟨.comment, "% x &= b % y".toList⟩ ∈ lex (split .standard "a % x\n% y\n= b".toList) ∧
      ∀ l ∈ lex (split .standard "a % x\n% y\n= b".toList), l.kind ≠ .operator '&' := by
  have hbreaks : breaks (inner "a % x\n% y\n= b".toList) = [10] := by cbv
  have hlex : lex (split .standard "a % x\n% y\n= b".toList) =
      [⟨.opening (.environment "align".toList), "\\begin\x7balign\x7d".toList⟩,
        ⟨.blank, "\n    ".toList⟩, ⟨.plain, ['a']⟩, ⟨.blank, [' ']⟩,
        ⟨.comment, "% x &= b % y".toList⟩, ⟨.blank, ['\n']⟩,
        ⟨.closing (.environment "align".toList), "\\end\x7balign\x7d".toList⟩] := by cbv
  rw [hbreaks, hlex]
  exact ⟨by cbv, List.cons_ne_nil _ _, by simp, by simp⟩

end Equation

end MathEdit
