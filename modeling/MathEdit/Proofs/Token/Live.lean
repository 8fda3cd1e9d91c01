import MathEdit.Proofs.Region.Live
import MathEdit.Proofs.Region.Openers
import MathEdit.Proofs.Token.Boundaries

/-! # Lexemes at live places

The scan of math source and the search for math take the same text apart by rules of their own: for
the scan a comment also ends at a carriage return, and a name in braces may hold dollars and percent
signs. Behind a lexeme the search is still at the start of an atom or inside of a comment, so at the
end of the line both agree again.

* **`EndsLive`**: whether a text that starts at such a place ends at a live one.
* **`endsLive_of_begins`**: the lexemes of a text keep it.
* **`apart_of_endsLive`**: a live place is a boundary between lexemes if a delimiter could stand
  there. -/

namespace MathEdit

open Lexeme

/-! ## Comments -/

/-- A comment that has ended does not matter for what follows. -/
theorem live_comment_newline_iff {body : Text} (s : Text) :
    Live ('%' :: body ++ '\n' :: s) ↔ Live s := by
  have hsplit : '%' :: body ++ '\n' :: s = ('%' :: body ++ ['\n']) ++ s := by simp
  rw [hsplit, (live_comment body).append_iff]

/-- Only the end of the line matters for a comment, not what it says. -/
theorem live_comment_append_iff {body : Text} (h : '\n' ∉ body) (s : Text) :
    Live ('%' :: body ++ s) ↔ Live ('%' :: s) := by
  by_cases hs : '\n' ∈ s
  · obtain ⟨a, b, rfl, -⟩ := List.eq_append_cons_of_mem hs
    rw [← List.cons_append, live_comment_newline_iff, ← List.append_assoc, List.cons_append,
      live_comment_newline_iff]
  · have hboth : '\n' ∉ body ++ s := by simp [h, hs]
    exact iff_of_false (not_live_comment hboth) (not_live_comment hs)

/-! ## Texts that end at a live place -/

/-- Whether a text ends at a live place if it is read from a live place on, or from inside of a
comment. -/
def EndsLive (s : Text) : Prop := Live s ∨ Live ('%' :: s)

/-- A text without backslashes and percent signs ends at a live place. -/
theorem live_of_plain {s : Text} (h : ∀ c ∈ s, c ≠ '\\' ∧ c ≠ '%') : Live s := by
  rw [live_iff_closed, Region.atoms_of_plain h]
  intro a ha
  obtain ⟨c, -, rfl⟩ := List.mem_map.1 (List.mem_of_getLast? ha)
  rfl

/-- On a line a percent sign is all that a text without backslashes can change. -/
theorem EndsLive.of_line {x s : Text} (hx : ∀ c ∈ x, c ≠ '\\' ∧ c ≠ '\n')
    (h : EndsLive (x ++ s)) : EndsLive s := by
  have hnewline : '\n' ∉ x := fun hc => (hx _ hc).2 rfl
  rcases h with h | h
  · by_cases hp : '%' ∈ x
    · -- the comment goes on behind the text
      obtain ⟨a, b, rfl, ha⟩ := List.eq_append_cons_of_mem hp
      have hlive : Live a := live_of_plain fun c hc =>
        ⟨(hx c (List.mem_append_left _ hc)).1, fun heq => ha (heq ▸ hc)⟩
      have hb : '\n' ∉ b := fun hc => hnewline (by simp [hc])
      rw [List.append_assoc, hlive.append_iff, live_comment_append_iff hb] at h
      exact .inr h
    · have hlive : Live x := live_of_plain fun c hc => ⟨(hx c hc).1, fun heq => hp (heq ▸ hc)⟩
      exact .inl (hlive.append_iff.1 h)
  · exact .inr ((live_comment_append_iff hnewline s).1 h)

/-- A backslash takes the next character along, unless both are part of a comment. -/
theorem EndsLive.of_escape {c : Char} {x s : Text} (hx : ∀ d ∈ x, d ≠ '\\' ∧ d ≠ '\n')
    (h : EndsLive ('\\' :: c :: x ++ s)) : EndsLive s := by
  apply EndsLive.of_line hx
  rcases h with h | h
  · exact .inl ((live_escape c).append_iff.1 h)
  · by_cases hc : c = '\n'
    · -- the newline ends the comment
      subst hc
      have hcomment : Live ('%' :: ['\\'] ++ '\n' :: (x ++ s)) := h
      exact .inl ((live_comment_newline_iff _).1 hcomment)
    · have hnewline : '\n' ∉ ['\\', c] := by simp [Ne.symm hc]
      exact .inr ((live_comment_append_iff hnewline (x ++ s)).1 h)

/-- Past a comment on the same line nothing is known but that the text ends live. -/
theorem EndsLive.of_comment {x s : Text} (hx : '\n' ∉ x) (h : EndsLive ('%' :: x ++ s)) :
    EndsLive s := by
  rcases h with h | h
  · exact .inr ((live_comment_append_iff hx s).1 h)
  · have hline : '\n' ∉ '%' :: x := by simp [hx]
    exact .inr ((live_comment_append_iff hline s).1 h)

/-- Blanks in front change nothing. -/
theorem EndsLive.of_blank {x s : Text} (hx : ∀ c ∈ x, Text.isBlank c = true)
    (h : EndsLive (x ++ s)) : EndsLive s := by
  have hplain : ∀ c ∈ x, c ≠ '\\' ∧ c ≠ '%' := by
    intro c hc
    constructor <;> rintro rfl <;> exact absurd (hx _ hc) (by decide)
  rcases h with h | h
  · exact .inl ((live_of_plain hplain).append_iff.1 h)
  · by_cases hnewline : '\n' ∈ x
    · -- behind the newline there are only blanks
      obtain ⟨a, b, rfl, -⟩ := List.eq_append_cons_of_mem hnewline
      rw [List.append_assoc, List.cons_append, ← List.cons_append, live_comment_newline_iff] at h
      exact .inl ((live_of_plain fun c hc => hplain c (by simp [hc])).append_iff.1 h)
    · exact .inr ((live_comment_append_iff hnewline s).1 h)

/-! ## Lexemes -/

/-- No letter is a backslash or a newline. -/
theorem ne_of_isAlpha {c : Char} (h : c.isAlpha = true) : c ≠ '\\' ∧ c ≠ '\n' := by
  constructor <;> rintro rfl <;> exact absurd h (by decide)

/-- The letters of a command and the name group behind it stand on one line, with no backslash among
them. -/
theorem ne_of_mem_tag {word name : Text} (hword : ∀ c ∈ word, c.isAlpha = true)
    (hname : ∀ c ∈ name, endsName c = false) :
    ∀ c ∈ word ++ '{' :: name ++ ['}'], c ≠ '\\' ∧ c ≠ '\n' := by
  intro c hc
  simp only [List.mem_append, List.mem_cons, List.not_mem_nil, or_false] at hc
  rcases hc with (hc | rfl | hc) | rfl
  · exact ne_of_isAlpha (hword c hc)
  · decide
  · constructor <;> rintro rfl <;> exact absurd (hname _ hc) (by decide)
  · decide

/-- **Lexemes keep the two in step**: what follows a lexeme ends at a live place if the whole
does. -/
theorem endsLive_of_begins {l : Lexeme} {s u : Text} (hbegins : Begins l (s ++ u))
    (h : EndsLive (l.text ++ s)) : EndsLive s := by
  generalize hw : s ++ u = w at hbegins
  have htag (word name : Text) (hword : ∀ c ∈ word, c.isAlpha = true) (hne : word ≠ [])
      (hname : ∀ c ∈ name, endsName c = false)
      (h : EndsLive ('\\' :: word ++ '{' :: name ++ ['}'] ++ s)) : EndsLive s := by
    obtain ⟨c, word, rfl⟩ := List.exists_cons_of_ne_nil hne
    have hrest := ne_of_mem_tag (fun d hd => hword d (List.mem_cons_of_mem c hd)) hname
    exact EndsLive.of_escape hrest (by simpa using h)
  cases hbegins with
  | @sign c _ _ hsign =>
      refine EndsLive.of_line (x := [c]) (fun d hd => ?_) h
      obtain rfl := List.mem_singleton.1 hd
      constructor <;> rintro rfl <;> simp [sign?, operators] at hsign
  | comment hs =>
      exact EndsLive.of_comment (fun hc => absurd (hs _ hc) (by decide)) h
  | blank _ hs => exact EndsLive.of_blank hs h
  | plain _ hs =>
      refine EndsLive.of_line (fun d hd => ?_) h
      constructor <;> rintro rfl <;> exact absurd (hs _ hd) (by decide)
  | backslash =>
      -- nothing follows a backslash that stands alone
      rw [(List.append_eq_nil_iff.1 hw).1]
      exact .inl live_nil
  | escaped => exact EndsLive.of_escape (x := []) (by simp) h
  | word hne hname =>
      obtain ⟨c, name, rfl⟩ := List.exists_cons_of_ne_nil hne
      exact EndsLive.of_escape
        (fun d hd => ne_of_isAlpha (hname d (List.mem_cons_of_mem c hd))) h
  | openingTag _ hname =>
      rw [Environment.openingTag_eq] at h
      exact htag _ _ (TakesName.isAlpha (.inl rfl)) (by decide) hname h
  | closingTag _ hname =>
      rw [Environment.closingTag_eq] at h
      exact htag _ _ (TakesName.isAlpha (.inr rfl)) (by decide) hname h

/-! ## Boundaries at live places -/

/-- Whether a text starts as a delimiter does, with a backslash or with a dollar that no name in
braces can run over. -/
def Blocks (u : Text) : Prop :=
  (∃ v, u = '\\' :: v) ∨ ∃ v, u = '$' :: v ∧ '}' ∉ v

/-- A text that blocks starts with a backslash or a dollar. -/
theorem Blocks.exists_cons {u : Text} (h : Blocks u) :
    ∃ c v, u = c :: v ∧ (c = '\\' ∨ c = '$' ∧ '}' ∉ v) := by
  rcases h with ⟨v, rfl⟩ | ⟨v, rfl, hv⟩
  · exact ⟨_, v, rfl, .inl rfl⟩
  · exact ⟨_, v, rfl, .inr ⟨rfl, hv⟩⟩

/-- No tag runs into a text that starts as a delimiter does. -/
theorem tag_ne_append {word name s v w : Text} (hword : ∀ c ∈ word, c.isAlpha = true)
    (hname : ∀ c ∈ name, endsName c = false) (hs : s ≠ []) (hv : v ≠ [])
    (hblocks : Blocks (v ++ w)) :
    '\\' :: word ++ '{' :: name ++ ['}'] ≠ s ++ v := by
  intro htext
  obtain ⟨d, s, rfl⟩ := List.exists_cons_of_ne_nil hs
  obtain ⟨c, v, rfl⟩ := List.exists_cons_of_ne_nil hv
  have htail : word ++ '{' :: name ++ ['}'] = s ++ c :: v := (List.cons.inj htext).2
  obtain ⟨_, _, heq, hc⟩ := hblocks.exists_cons
  obtain ⟨rfl, rfl⟩ := List.cons.inj heq
  rcases hc with rfl | ⟨rfl, hbrace⟩
  · have hmem : '\\' ∈ word ++ '{' :: name ++ ['}'] := by
      rw [htail]
      exact List.mem_append_right s List.mem_cons_self
    exact (ne_of_mem_tag hword hname _ hmem).1 rfl
  · -- the brace that ends the tag would stand behind the dollar
    have hlast := congrArg List.getLast? htail
    rw [List.getLast?_concat, List.getLast?_append_cons] at hlast
    rcases List.mem_cons.1 (List.mem_of_getLast? hlast.symm) with heq | hmem
    · exact absurd heq (by decide)
    · exact hbrace (List.mem_append_left w hmem)

/-- No lexeme runs over a live place into a text that starts as a delimiter does. -/
theorem text_ne_append {l : Lexeme} {s v u w : Text} (hbegins : Begins l u) (hlive : EndsLive s)
    (hs : s ≠ []) (hv : v ≠ []) (hblocks : Blocks (v ++ w)) : l.text ≠ s ++ v := by
  intro htext
  obtain ⟨d, s, rfl⟩ := List.exists_cons_of_ne_nil hs
  obtain ⟨c, v, rfl⟩ := List.exists_cons_of_ne_nil hv
  have hc : c = '\\' ∨ c = '$' := by
    obtain ⟨_, _, heq, hc⟩ := hblocks.exists_cons
    obtain ⟨rfl, -⟩ := List.cons.inj heq
    exact hc.imp_right And.left
  -- what follows the first character of the lexeme holds `c`
  have hmem {e : Char} {x : Text} (heq : e :: x = d :: s ++ c :: v) : c ∈ x := by
    rw [(List.cons.inj heq).2]
    exact List.mem_append_right s List.mem_cons_self
  have hlone (e : Char) : [e] ≠ d :: s ++ c :: v := fun heq =>
    absurd (hmem heq) List.not_mem_nil
  cases hbegins with
  | sign => exact hlone _ htext
  | comment hbody =>
      -- the place would lie in the comment
      obtain ⟨rfl, rfl⟩ := List.cons.inj htext
      have hnewline : '\n' ∉ s := fun hmem =>
        absurd (hbody _ (List.mem_append_left _ hmem)) (by decide)
      rcases hlive with hlive | hlive
      · exact not_live_comment hnewline hlive
      · exact not_live_comment (by simp [hnewline]) hlive
  | @blank x _ _ hall =>
      obtain rfl : x = d :: s ++ c :: v := htext
      have hblank := hall c (List.mem_append_right _ List.mem_cons_self)
      rcases hc with rfl | rfl <;> exact absurd hblank (by decide)
  | @plain x _ _ hall =>
      obtain rfl : x = d :: s ++ c :: v := htext
      have hplain := hall c (List.mem_append_right _ List.mem_cons_self)
      rcases hc with rfl | rfl <;> exact absurd hplain (by decide)
  | backslash => exact hlone _ htext
  | escaped =>
      -- the place would lie behind the backslash
      obtain ⟨rfl, hrest⟩ := List.cons.inj htext
      obtain rfl : s = [] := by
        rcases List.append_eq_singleton_iff.1 hrest.symm with ⟨hs, -⟩ | ⟨-, h⟩
        · exact hs
        · cases h
      rcases hlive with hlive | hlive
      · exact absurd hlive.even (by decide)
      · exact not_live_comment (by decide) hlive
  | word _ hname =>
      have halpha := hname c (hmem htext)
      rcases hc with rfl | rfl <;> exact absurd halpha (by decide)
  | openingTag _ hname =>
      rw [Environment.openingTag_eq] at htext
      exact tag_ne_append (TakesName.isAlpha (.inl rfl)) hname hs hv hblocks htext
  | closingTag _ hname =>
      rw [Environment.closingTag_eq] at htext
      exact tag_ne_append (TakesName.isAlpha (.inr rfl)) hname hs hv hblocks htext

/-- **Boundaries at live places**: before a text that starts as a delimiter does, a live place is a
boundary between lexemes. -/
theorem apart_of_endsLive {s u : Text} (hlive : EndsLive s) (hblocks : Blocks u) : Apart s u := by
  -- the induction takes one lexeme off the front; `EndsLive` is what the rest keeps
  induction hn : s.length using Nat.strong_induction_on generalizing s with
  | _ n ih =>
    by_cases hs : s = []
    · simp [hs, Apart]
    · obtain ⟨c, t, hct⟩ := List.exists_cons_of_ne_nil (List.append_ne_nil_of_left_ne_nil hs u)
      have hfirst : lex (s ++ u) = (first c t).1 :: lex (first c t).2 := by rw [hct, lex_cons]
      obtain ⟨htext, hbegins, -⟩ := lex_eq_cons_iff.1 hfirst
      rw [join_lex] at htext hbegins
      generalize (first c t).1 = l at *
      generalize (first c t).2 = rest at *
      rcases List.append_eq_append_iff.1 htext with ⟨v, hl, rfl⟩ | ⟨s', rfl, rfl⟩
      · -- the lexeme does not reach into `u`
        have hv : v = [] := by
          by_contra hv
          exact text_ne_append hbegins hlive hs hv hblocks hl
        subst hv
        rw [List.append_nil] at hl
        subst hl
        rw [Apart, List.nil_append] at *
        have hself := lex_text_append (Begins.of_append (u := []) hbegins)
        rw [List.append_nil, lex_nil] at hself
        rw [lex_text_append hbegins, hself]
        rfl
      · have hpos := List.length_pos_iff.2 hbegins.text_ne_nil
        have hshort : s'.length < n := by
          rw [← hn, List.length_append]
          omega
        have hrest : Apart s' u := ih _ hshort (endsLive_of_begins hbegins hlive) rfl
        have hsingle : BeginsEach [l] (s' ++ u) := ⟨hbegins, trivial⟩
        have hfront := (lex_join_of_beginsEach hsingle).2
        rw [join_cons, join_nil, List.append_nil] at hfront
        exact hfront.append_iff.2 hrest

end MathEdit
