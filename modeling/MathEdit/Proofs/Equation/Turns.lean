import MathEdit.Proofs.Equation.Inner
import MathEdit.Proofs.Region.Replaced

/-! # The turns of a split equation

The rows of an equation without comments are put together from its segments, with whitespace and
signs between them that no delimiter has. So they make the turns of the equation, whatever level of
math is counted, and the split adds only those of its own tags.

* **`Equation.reading_turns`**: the turns of a text are read off row by row.
* **`Equation.turns_segments`**: the segments of an equation make the turns of the equation, since
  its breaks are at live places.
* **`Equation.turns_layOut`**: the turns of the rows of a split. -/

namespace MathEdit

open Lexeme Region

/-! ## Texts without comments -/

/-- A text without percent signs ends at a live place if it does not end in a backslash. -/
theorem live_of_getLast?_ne {s : Text} (hcomment : '%' ∉ s) (hlast : s.getLast? ≠ some '\\') :
    Live s := by
  constructor
  · rcases List.eq_nil_or_concat' s with rfl | ⟨front, c, rfl⟩
    · exact live_nil.even
    · have hc : c ≠ '\\' := fun heq => hlast (by rw [heq, List.getLast?_concat])
      exact ⟨0, backslashesAtEnd_concat front hc⟩
  · rintro a b rfl
    exact absurd (List.mem_append_right a List.mem_cons_self) hcomment

/-- A text without percent signs ends at a live place, or in a backslash behind one. -/
theorem live_or_backslash {s : Text} (hcomment : '%' ∉ s) :
    Live s ∨ ∃ front, s = front ++ ['\\'] ∧ Live front := by
  by_cases hlive : Live s
  · exact .inl hlive
  · right
    rw [live_iff_closed, Closed] at hlive
    push Not at hlive
    -- the last atom is open: a comment or a backslash at the end
    obtain ⟨a, ha, hopen⟩ := hlive
    obtain ⟨front, hs⟩ := List.getLast?_eq_some_iff.1 ha
    have htext : s = Atom.join front ++ a.text := by
      rw [← join_atoms s, hs, Atom.join_append, Atom.join_cons, Atom.join_nil, List.append_nil]
    cases a with
    | backslash => exact ⟨Atom.join front, htext, live_join_of_append hs (by simp)⟩
    | comment body =>
        rw [htext] at hcomment
        exact absurd (List.mem_append_right _ List.mem_cons_self) hcomment
    | _ => exact absurd rfl hopen

/-- The lexemes of a text without percent signs end at live places, but for a last backslash. -/
theorem Lexeme.Begins.live {l : Lexeme} {u : Text} (h : Begins l u) (hu : u ≠ [])
    (hcomment : '%' ∉ l.text) : Live l.text := by
  cases h with
  | @sign c _ _ hsign =>
      refine live_of_getLast?_ne hcomment fun hlast => ?_
      obtain rfl : c = '\\' := by simpa using hlast
      simp [sign?, operators] at hsign
  | comment => exact absurd List.mem_cons_self hcomment
  | blank _ hs =>
      refine live_of_getLast?_ne hcomment fun hlast => ?_
      exact absurd (hs _ (List.mem_of_getLast? hlast)) (by decide)
  | plain _ hs =>
      refine live_of_getLast?_ne hcomment fun hlast => ?_
      exact absurd (hs _ (List.mem_of_getLast? hlast)) (by decide)
  | backslash => exact absurd rfl hu
  | escaped => exact live_escape _
  -- a word ends in a letter
  | @word name _ hne hname =>
      refine live_of_getLast?_ne hcomment fun hlast => ?_
      rw [← List.singleton_append, List.getLast?_append_of_ne_nil _ hne] at hlast
      exact absurd (hname _ (List.mem_of_getLast? hlast)) (by decide)
  | openingTag =>
      refine live_of_getLast?_ne hcomment ?_
      simp [Environment.openingTag]
  | closingTag =>
      refine live_of_getLast?_ne hcomment ?_
      simp [Environment.closingTag]

/-! ## Whitespace -/

/-- No character of a name is blank. -/
theorem isBlank_of_isNameCharacter {c : Char} (h : isNameCharacter c = true) :
    Text.isBlank c = false := by
  rw [isNameCharacter, Char.isAlphanum, Bool.or_eq_true, Bool.or_eq_true, decide_eq_true_eq] at h
  rcases h with (h | h) | rfl
  · exact isBlank_of_isAlpha h
  · have hrange : 48 ≤ c.toNat ∧ c.toNat ≤ 57 := by
      simpa [Char.isDigit, UInt32.le_iff_toNat_le] using h
    simp only [Text.isBlank, Text.inRanges, Text.blankRanges, List.any_cons, List.any_nil,
      Bool.or_eq_false_iff, Bool.and_eq_false_iff, decide_eq_false_iff_not, and_true]
    omega
  · rfl

/-- No delimiter has whitespace in it, escaped or not. -/
theorem inDelimiter_of_isBlank {c : Char} (h : Text.isBlank c = true) :
    (Atom.plain c).inDelimiter = false ∧ (Atom.escape c).inDelimiter = false := by
  have hname : isNameCharacter c = false := by
    by_contra hname
    rw [isBlank_of_isNameCharacter (Bool.eq_true_of_not_eq_false hname)] at h
    cases h
  have hne {d : Char} (hd : Text.isBlank d = false) : c ≠ d := by
    rintro rfl
    rw [hd] at h
    cases h
  have hdollar : c ≠ '$' := hne (by decide)
  have hopen : c ≠ '{' := hne (by decide)
  have hclose : c ≠ '}' := hne (by decide)
  have hb : c ≠ 'b' := hne (by decide)
  have he : c ≠ 'e' := hne (by decide)
  have hbracket : c ≠ ']' := hne (by decide)
  have hparen : c ≠ ')' := hne (by decide)
  constructor
  · simp [Atom.inDelimiter, Atom.inTag, hname, hdollar, hopen, hclose]
  · simp [Atom.inDelimiter, Atom.inTag, hb, he, hbracket, hparen]

/-- No blank is a backslash or a percent sign. -/
theorem ne_of_isBlank {c : Char} (h : Text.isBlank c = true) : c ≠ '\\' ∧ c ≠ '%' := by
  constructor <;> rintro rfl <;> exact absurd h (by decide)

namespace Equation

section

variable {accepts : Text → Bool} {d : Delimiters} (hd : Named accepts d)
include hd

/-- The turns of a text that starts with whitespace. -/
theorem turns_atoms_cons_of_isBlank {c : Char} (hc : Text.isBlank c = true) (u : Text) :
    d.turns (atoms (c :: u)) = d.turns (atoms u) := by
  rw [atoms_plain (ne_of_isBlank hc).1 (ne_of_isBlank hc).2]
  exact Delimiters.turns_append_of_inDelimiter hd [.plain c]
    (by simpa using (inDelimiter_of_isBlank hc).1) (atoms u)

/-- The turns on either side of whitespace: a backslash at the end of the text before it takes it
along, and no delimiter has the escape either. -/
theorem turns_atoms_append_of_isBlank {s : Text} (hs : '%' ∉ s) {c : Char}
    (hc : Text.isBlank c = true) (u : Text) :
    d.turns (atoms (s ++ c :: u)) = d.turns (atoms s) ++ d.turns (atoms u) := by
  obtain ⟨hplain, hescape⟩ := inDelimiter_of_isBlank hc
  rcases live_or_backslash hs with hlive | ⟨front, rfl, hlive⟩
  · rw [hlive.atoms_append, atoms_plain (ne_of_isBlank hc).1 (ne_of_isBlank hc).2,
      Delimiters.turns_append_cons hd hplain]
  · have hend : d.turns (atoms (front ++ ['\\'])) = d.turns (atoms front) := by
      rw [hlive.atoms_append, atoms_backslash, Delimiters.turns_append_cons hd rfl]
      exact List.append_nil _
    rw [hend, List.append_assoc, List.singleton_append, hlive.atoms_append, atoms_escape,
      Delimiters.turns_append_cons hd hescape]

/-- **The turns of a text** are read off row by row. -/
theorem reading_turns : Reading (fun t => d.turns (atoms t)) ('%' ∉ ·) [] [] where
  nil := by rw [atoms_nil]; rfl
  blank hc u := turns_atoms_cons_of_isBlank hd hc u
  append hs _ hc u := turns_atoms_append_of_isBlank hd hs hc u
  alignment u := by
    rw [atoms_plain (by decide) (by decide), atoms_plain (by decide) (by decide)]
    exact Delimiters.turns_append_of_inDelimiter hd [.plain '&', .plain '='] (by decide) _
  rowBreak u := by
    rw [atoms_escape]
    exact Delimiters.turns_append_of_inDelimiter hd [.escape '\\'] (by decide) _

/-- Trimming changes no turns. -/
theorem turns_atoms_trim {t : Text} (ht : '%' ∉ t) :
    d.turns (atoms (Text.trim t)) = d.turns (atoms t) := by
  have hblanks {blanks : Text} (h : ∀ c ∈ blanks, Text.isBlank c = true) (u : Text) :
      d.turns (atoms (blanks ++ u)) = d.turns (atoms u) := (reading_turns hd).blanks_append h u
  have hstart : d.turns (atoms (Text.trimStart t)) = d.turns (atoms t) := by
    have hsplit := List.takeWhile_append_dropWhile (p := Text.isBlank) (l := t)
    conv_rhs => rw [← hsplit]
    exact (hblanks (fun c hc => List.mem_takeWhile_imp hc) _).symm
  -- at the end a backslash may take the first blank along, which turns nothing
  obtain ⟨blanks, hsplit, hblank⟩ := Text.exists_trimEnd_append (Text.trimStart t)
  have hcomment : '%' ∉ Text.trim t := fun hmem => ht ((Text.trim_sublist t).subset hmem)
  rw [Text.trim] at hcomment ⊢
  rw [← hstart]
  conv_rhs => rw [hsplit]
  cases blanks with
  | nil => rw [List.append_nil]
  | cons c blanks =>
      obtain ⟨hc, hblank⟩ := List.forall_mem_cons.1 hblank
      have hnone : d.turns (atoms blanks) = [] := by
        have h := hblanks hblank []
        rwa [List.append_nil, atoms_nil] at h
      rw [turns_atoms_append_of_isBlank hd hcomment hc, hnone, List.append_nil]

/-- **Segments** that end at live places make the turns of the text that they make up. -/
theorem turns_segments {left : Text} {rights : List Text}
    (hlive : ∀ s ∈ (left :: rights).dropLast, Live s) :
    d.turns (atoms (left ++ rights.flatMap ('=' :: ·))) =
      d.turns (atoms left) ++ rights.flatMap fun s => d.turns (atoms s) := by
  induction rights generalizing left with
  | nil => simp
  | cons right rights ih =>
      rw [List.dropLast_cons_of_ne_nil (List.cons_ne_nil _ _)] at hlive
      obtain ⟨hleft, hrest⟩ := List.forall_mem_cons.1 hlive
      rw [List.flatMap_cons, List.flatMap_cons, hleft.atoms_append, List.cons_append,
        atoms_plain (by decide) (by decide), Delimiters.turns_append_cons hd rfl, ih hrest]

end

/-! ## The segments of an equation -/

/-- All segments but the last end where a token does. -/
theorem live_of_mem_segmentsOf {ts : List Token}
    (h : ∀ front t back, ts = front ++ t :: back → back ≠ [] → Live t.text) :
    ∀ s ∈ ((segmentsOf ts).1 :: (segmentsOf ts).2).dropLast, Live s := by
  induction ts with
  | nil => simp [segmentsOf]
  | cons t ts ih =>
      have hrest := ih fun front u back hsplit => h (t :: front) u back (by rw [hsplit]; rfl)
      rw [segmentsOf]
      by_cases hbreak : isBreak t ts = true
      · simp only [hbreak, if_true]
        rw [List.dropLast_cons_of_ne_nil (List.cons_ne_nil _ _)]
        exact List.forall_mem_cons.2 ⟨live_nil, hrest⟩
      · simp only [hbreak, if_false, Bool.false_eq_true]
        cases hfurther : (segmentsOf ts).2 with
        | nil => simp
        | cons right further =>
            -- there is a token behind `t`, since there is a break
            have hne : ts ≠ [] := by
              rintro rfl
              simp [segmentsOf] at hfurther
            rw [hfurther, List.dropLast_cons_of_ne_nil (List.cons_ne_nil _ _)] at hrest
            obtain ⟨hhead, hrest⟩ := List.forall_mem_cons.1 hrest
            rw [List.dropLast_cons_of_ne_nil (List.cons_ne_nil _ _)]
            exact List.forall_mem_cons.2 ⟨(h [] t ts rfl hne).append_iff.2 hhead, hrest⟩

/-- **Breaks are at live places** of an equation without comments. -/
theorem live_of_mem_segments {t : Text} (ht : '%' ∉ t) :
    ∀ s ∈ ((segmentsOf (scan t)).1 :: (segmentsOf (scan t)).2).dropLast, Live s := by
  apply live_of_mem_segmentsOf
  intro front u back hsplit hback
  obtain ⟨htext, -, hbegins⟩ := Token.of_scan_eq hsplit
  refine hbegins.live ?_ fun hmem => ht (by rw [htext]; simp [hmem])
  -- the text behind the token is that of some tokens, which are not empty
  obtain ⟨v, back, rfl⟩ := List.exists_cons_of_ne_nil hback
  exact List.append_ne_nil_of_left_ne_nil (Token.beside_of_scan_eq hsplit).2.2.text_ne_nil _

/-! ## The rows of a split -/

/-- A segment without a percent sign has no comment to take off. -/
theorem part_of_notMem {s : Text} (hs : '%' ∉ s) : part s = ⟨Text.trim s, none⟩ := by
  apply part_of_not_endsInComment
  rintro ⟨l, hl, hkind⟩
  obtain ⟨front, hlex⟩ := List.getLast?_eq_some_iff.1 hl
  obtain ⟨u, hbegins⟩ := exists_begins_of_mem_lex (List.mem_of_getLast? hl)
  obtain ⟨⟨body, rfl, -⟩, -⟩ := hbegins.of_comment hkind
  have hmem : '%' ∈ Text.trim s := by
    rw [← join_lex (Text.trim s), hlex, join_append, join_cons]
    simp
  exact hs ((Text.trim_sublist s).subset hmem)

/-- Whether the sides of a row have no percent sign, and no comment behind them. -/
structure Sides.Plain (s : Sides) : Prop where
  left : '%' ∉ s.left
  right : '%' ∉ s.right
  comments : s.comments = []

/-- The layout puts no percent signs into the rows. -/
theorem notMem_join_rowPieces {indent : Text} (hindent : '%' ∉ indent) {rows : List Sides}
    (h : ∀ s ∈ rows, s.Plain) : '%' ∉ Piece.join (rowPieces indent rows) := by
  have hrow {s : Sides} (hs : s.Plain) (last : Bool) : '%' ∉ Piece.join (s.pieces last) := by
    obtain ⟨hleft, hright, hcomments⟩ := hs
    have hmark : '%' ∉ Lexeme.join alignment := by decide
    have hbreak : '%' ∉ Lexeme.join rowBreak := by decide
    by_cases hnil : s.left = [] <;> by_cases hnil' : s.right = [] <;> cases last <;>
      simp [Sides.pieces, Sides.tail, Piece.text, hmark, hbreak, hleft, hright, hcomments, hnil,
        hnil']
  fun_induction rowPieces indent rows with
  | case1 => simp
  | case2 s => simp [Piece.text, hindent, hrow (h s List.mem_cons_self)]
  | case3 s next rest ih =>
      have hrest := ih fun u hu => h u (List.mem_cons_of_mem s hu)
      simp [Piece.text, hindent, hrow (h s List.mem_cons_self), hrest]

/-- **The turns of a split**: without comments its rows make the turns of the equation, and the
closing tag behind them stands at a live place. -/
theorem turns_layOut (style : RowStyle) {t left right : Text} {further : List Text}
    (ht : '%' ∉ t) (hsegments : segmentsOf (scan t) = (left, right :: further)) :
    ∃ body, layOut style ((sides left right further).map Sides.row) =
        Environment.openingTag style.environment ++ body ++
          Environment.closingTag style.environment ∧
      Live body ∧ body ≠ [] ∧ ∀ (accepts : Text → Bool) (d : Delimiters), Named accepts d →
        d.turns (atoms body) = d.turns (atoms t) := by
  have hjoin : left ++ (right :: further).flatMap ('=' :: ·) = t := by
    have h := segmentsOf_scan t
    rwa [hsegments] at h
  have hlive : ∀ s ∈ (left :: right :: further).dropLast, Live s := by
    have h := live_of_mem_segments ht
    rwa [hsegments] at h
  have hleft : '%' ∉ left := fun hmem => ht (by rw [← hjoin]; exact List.mem_append_left _ hmem)
  have hrights : ∀ s ∈ right :: further, '%' ∉ s := fun s hs hmem => ht (by
    rw [← hjoin]
    exact List.mem_append_right _ (List.mem_flatMap.2 ⟨s, hs, List.mem_cons_of_mem _ hmem⟩))
  obtain ⟨hright, hfurther⟩ := List.forall_mem_cons.1 hrights
  have htrim {s : Text} (hs : '%' ∉ s) : '%' ∉ Text.trim s :=
    fun hmem => hs ((Text.trim_sublist s).subset hmem)
  have hplain : ∀ s ∈ sides left right further, s.Plain := by
    intro s hs
    rcases List.mem_cons.1 hs with rfl | hs
    · rw [firstSides, part_of_notMem hleft, part_of_notMem hright]
      exact ⟨htrim hleft, htrim hright, rfl⟩
    · obtain ⟨x, hx, rfl⟩ := List.mem_map.1 hs
      rw [furtherSides, part_of_notMem (hfurther x hx)]
      exact ⟨by simp, htrim (hfurther x hx), rfl⟩
  have hindent : '%' ∉ List.replicate style.indent ' ' := fun hmem =>
    absurd (List.eq_of_mem_replicate hmem) (by decide)
  refine ⟨((renderRows ((sides left right further).map Sides.row)).flatMap fun row =>
    '\n' :: List.replicate style.indent ' ' ++ row) ++ ['\n'], ?_, ?_, by simp, ?_⟩
  · simp [layOut]
  · refine live_of_getLast?_ne ?_ (by simp)
    rw [← join_rowPieces, List.mem_append]
    simp [notMem_join_rowPieces hindent hplain]
  · intro accepts d hd
    have hsides : ∀ r ∈ firstSides left right :: further.map furtherSides,
        '%' ∉ r.left ∧ '%' ∉ r.right ∧ r.comments = [] :=
      fun r hr => ⟨(hplain r hr).left, (hplain r hr).right, (hplain r hr).comments⟩
    have hrows := (reading_turns hd).rows (fun _ => isBlank_of_mem_replicate (n := style.indent))
      hsides []
    -- a side makes the turns of its segment, and a further row has no left side
    have hcode {s : Text} (hs : '%' ∉ s) :
        d.turns (atoms (part s).code) = d.turns (atoms s) := by
      rw [part_of_notMem hs]
      exact turns_atoms_trim hd hs
    have hnil : d.turns (atoms []) = [] := (reading_turns hd).nil
    have hparts : (further.map furtherSides).flatMap (fun r =>
        [] ++ d.turns (atoms r.left) ++ [] ++ d.turns (atoms r.right)) =
          further.flatMap fun s => d.turns (atoms s) := by
      rw [List.flatMap_map]
      refine List.flatMap_congr fun s hs => ?_
      simp only [furtherSides, hnil, hcode (hfurther s hs), List.nil_append]
    rw [sides, hrows, hparts, ← hjoin, turns_segments hd hlive, firstSides, hcode hleft,
      hcode hright, hnil, List.flatMap_cons]
    simp

end Equation

end MathEdit
