import MathEdit.Proofs.Text.Cuts
import MathEdit.Proofs.Token.Boundaries

/-! # Scanning a text in parts

Where a text is cut at a boundary between tokens, each part is scanned into the tokens that the
whole text has there: the lexemes are the same since each of them begins what follows it, and the
places are counted from the cut on.

* **`lex_join_of_append`**: part of a scan is the scan of its own text.
* **`scan_cut`**: the tokens before a boundary and behind it, and each token alone. -/

namespace MathEdit

open Lexeme

/-! ## Lexemes -/

/-- Part of a scan is the scan of its own text. -/
theorem lex_join_of_append {t : Text} {a b : List Lexeme} (h : lex t = a ++ b) :
    lex (join a) = a ∧ lex (join b) = b := by
  have heach := beginsEach_lex t
  rw [h, beginsEach_append_iff] at heach
  exact ⟨(lex_join_of_beginsEach heach.1).1, (lex_join_of_beginsEach heach.2).1⟩

/-- A lexeme of a scan is all that is scanned in its own text. -/
theorem lex_text_of_mem {t : Text} {l : Lexeme} (h : l ∈ lex t) : lex l.text = [l] := by
  obtain ⟨u, hbegins⟩ := exists_begins_of_mem_lex h
  have halone := lex_text_append (Begins.of_append (u := []) hbegins)
  rwa [List.append_nil, lex_nil] at halone

/-- No lexeme of a scan is empty. -/
theorem text_ne_nil_of_mem_lex {t : Text} {l : Lexeme} (h : l ∈ lex t) : l.text ≠ [] := by
  obtain ⟨u, hbegins⟩ := exists_begins_of_mem_lex h
  exact hbegins.text_ne_nil

/-! ## Places -/

namespace Token

/-- A token in a text that is moved behind `position` bytes that end at `depth`. -/
def moveBy (position : Nat) (depth : Int) (t : Token) : Token :=
  { t with position := position + t.position, depth := depth + t.depth }

/-- Where a run of lexemes starts is where its tokens are counted from. -/
theorem map_moveBy_place (position p : Nat) (depth d : Int) (ls : List Lexeme) :
    (place p d ls).map (moveBy position depth) = place (position + p) (depth + d) ls := by
  induction ls generalizing p d with
  | nil => rfl
  | cons l ls ih =>
      have hlevel : depth + (if l.kind.isClosing then d - 1 else d) =
          if l.kind.isClosing then depth + d - 1 else depth + d := by
        split <;> omega
      rw [place, List.map_cons, ih, place, moveBy, hlevel, Nat.add_assoc, Int.add_assoc]

/-- A token of a run has the lexemes before it in front. -/
theorem exists_append_of_mem_place {position : Nat} {depth : Int} {ls : List Lexeme} {t : Token}
    (h : t ∈ place position depth ls) :
    ∃ a b, ls = a ++ t.toLexeme :: b ∧
      t.position = position + Text.width (Lexeme.join a) := by
  induction ls generalizing position depth with
  | nil => simp at h
  | cons l ls ih =>
      rw [place, List.mem_cons] at h
      rcases h with rfl | h
      · exact ⟨[], ls, rfl, rfl⟩
      · obtain ⟨a, b, rfl, hposition⟩ := ih h
        refine ⟨l :: a, b, rfl, ?_⟩
        rw [hposition, join_cons, Text.width_append, Nat.add_assoc]

/-- The tokens of a run end behind its start, as they are not empty. -/
theorem lt_stop_of_mem_place {position : Nat} {depth : Int} {ls : List Lexeme}
    (hls : ∀ l ∈ ls, l.text ≠ []) {t : Token} (h : t ∈ place position depth ls) :
    position < t.stop := by
  obtain ⟨a, b, rfl, hposition⟩ := exists_append_of_mem_place h
  have hpos := Text.width_pos (hls t.toLexeme (by simp))
  rw [stop, len]
  omega

/-- The tokens that end at or before the place between two runs are those of the first run, and the
others those of the second. -/
theorem filter_place_append {position : Nat} {depth : Int} {a b : List Lexeme}
    (hb : ∀ l ∈ b, l.text ≠ []) {k : Nat}
    (hk : k = position + Text.width (Lexeme.join a)) :
    (place position depth (a ++ b)).filter (·.stop ≤ k) = place position depth a ∧
      (place position depth (a ++ b)).filter (k < ·.stop) =
        place k (depth + Lexeme.depth a) b := by
  -- no token is empty, so the cut tells the two halves apart by where they stop
  have hfirst : ∀ t ∈ place position depth a, t.stop ≤ k := by
    intro t ht
    rw [hk]
    exact stop_le_of_mem_place ht
  have hsecond : ∀ t ∈ place k (depth + Lexeme.depth a) b, k < t.stop :=
    fun t ht => lt_stop_of_mem_place hb ht
  rw [place_append, ← hk, List.filter_append, List.filter_append]
  constructor
  · rw [List.filter_eq_self.2 (by simpa using hfirst), List.filter_eq_nil_iff.2, List.append_nil]
    intro t ht
    simpa using hsecond t ht
  · rw [List.filter_eq_nil_iff.2, List.filter_eq_self.2 (by simpa using hsecond), List.nil_append]
    intro t ht
    simpa using hfirst t ht

/-- No token stands across a place where two texts are scanned apart. -/
theorem stop_le_or_le_position {s u : Text} (h : Apart s u) :
    ∀ t ∈ scan (s ++ u), t.stop ≤ Text.width s ∨ Text.width s ≤ t.position := by
  intro t ht
  rw [scan, h, place_append, join_lex, Nat.zero_add, List.mem_append] at ht
  rcases ht with ht | ht
  · have hstop := stop_le_of_mem_place ht
    rw [join_lex, Nat.zero_add] at hstop
    exact .inl hstop
  · obtain ⟨a, b, -, hposition⟩ := exists_append_of_mem_place ht
    exact .inr (hposition ▸ Nat.le_add_right _ _)

end Token

/-! ## Boundaries -/

/-- The depth of a scan at an offset: that after the tokens that end at or before it. -/
def depthAt (t : Text) (k : Nat) : Int :=
  Lexeme.depth (((scan t).filter (·.stop ≤ k)).map Token.toLexeme)

/-- The start of a token, or the end of the text, lies between the lexemes before it and the
others. -/
theorem exists_append_of_boundary {t : Text} {k : Nat}
    (h : (∃ token ∈ scan t, token.position = k) ∨ k = Text.width t) :
    ∃ a b, lex t = a ++ b ∧ k = Text.width (join a) := by
  rcases h with ⟨token, hmem, rfl⟩ | rfl
  · obtain ⟨a, b, hsplit, hposition⟩ := Token.exists_append_of_mem_place hmem
    exact ⟨a, _, hsplit, by rw [hposition, Nat.zero_add]⟩
  · exact ⟨lex t, [], (List.append_nil _).symm, by rw [join_lex]⟩

/-- **Scanning in parts.** At a boundary between tokens, the text before it is scanned into the
tokens that end at or before the boundary, and the text behind it into the other ones, counted from
there; and the text of a token is scanned into that token alone. -/
theorem scan_cut (t : Text) (k : Nat)
    (h : (∃ token ∈ scan t, token.position = k) ∨ k = Text.width t) :
    (∃ before after, Text.splitAt? Char.utf8Size k t = some (before, after) ∧
      scan before = (scan t).filter (·.stop ≤ k) ∧
      (scan after).map (Token.moveBy k (depthAt t k)) = (scan t).filter (k < ·.stop)) ∧
      ∀ token ∈ scan t,
        scan token.text = [⟨token.toLexeme, 0, if token.kind.isClosing then -1 else 0⟩] := by
  constructor
  · obtain ⟨a, b, hsplit, hk⟩ := exists_append_of_boundary h
    have hb : ∀ l ∈ b, l.text ≠ [] := fun l hl =>
      text_ne_nil_of_mem_lex (hsplit ▸ List.mem_append_right a hl)
    have ht : t = join a ++ join b := by rw [← join_append, ← hsplit, join_lex]
    -- either half reads as the lexemes it is made of
    obtain ⟨hlexa, hlexb⟩ := lex_join_of_append hsplit
    have hplace : scan t = Token.place 0 0 (a ++ b) := by rw [scan, hsplit]
    obtain ⟨hfirst, hsecond⟩ := Token.filter_place_append hb (hk.trans (Nat.zero_add _).symm)
    rw [← hplace] at hfirst hsecond
    have hdepth : depthAt t k = Lexeme.depth a := by
      rw [depthAt, hfirst, Token.map_toLexeme_place]
    refine ⟨join a, join b, ?_, ?_, ?_⟩
    · rw [ht, hk]
      exact Text.splitAt?_width_append _ _
    · rw [scan, hlexa, hfirst]
    · rw [scan, hlexb, Token.map_moveBy_place, hdepth, hsecond, Int.add_comm]
      rfl
  · intro token hmem
    -- a lexeme alone reads as itself, at depth zero
    obtain ⟨a, b, hsplit, -⟩ := Token.exists_append_of_mem_place hmem
    have hlexeme : token.toLexeme ∈ lex t := by
      rw [hsplit]
      simp
    rw [scan, lex_text_of_mem hlexeme]
    rfl

/-- A cut inside a group, behind an opening tag and before two tokens that close. -/
theorem scan_cut_behind_tag :
    (∃ token ∈ scan "\\begin{a}x)\\end{a}".toList, token.position = 9) ∧
      ∃ before after, Text.splitAt? Char.utf8Size 9 "\\begin{a}x)\\end{a}".toList =
          some (before, after) ∧
        scan before = (scan "\\begin{a}x)\\end{a}".toList).filter (·.stop ≤ 9) ∧
        (scan after).map (Token.moveBy 9 1) =
          (scan "\\begin{a}x)\\end{a}".toList).filter (9 < ·.stop) := by
  have htoken : ∃ token ∈ scan "\\begin{a}x)\\end{a}".toList, token.position = 9 := by
    decide +kernel
  have hdepth : depthAt "\\begin{a}x)\\end{a}".toList 9 = 1 := by decide +kernel
  refine ⟨htoken, ?_⟩
  have hcut := (scan_cut "\\begin{a}x)\\end{a}".toList 9 (.inl htoken)).1
  rwa [hdepth] at hcut

end MathEdit
