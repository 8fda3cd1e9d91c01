import Mathlib.Data.List.Induction
import MathEdit.Proofs.Region.Live
import MathEdit.Proofs.Token.Blanks

/-! # Signs behind a text

A sign, a percent sign and a backslash each start a lexeme wherever they are not taken in by the one
before them: by a comment, by a backslash that escapes them, or by the name of an environment. The
backslash that is left over at the end of a text shows in the number of backslashes there.

* **`Lexeme.Begins.cons_iff`**: the lexemes that end before such a character.
* **`even_backslashesAtEnd_iff`**: outside of comments the backslashes at the end of a text pair up
  exactly if the last one is not left over.
* **`begins_getLast?_iff`**, **`apart_cons_iff`**: what keeps a text from being scanned apart from
  what starts with such a character. -/

namespace MathEdit

open Lexeme

/-- Whether a character starts a lexeme of its own: it is no letter, no blank and no plain
character. -/
structure StartsLexeme (c : Char) : Prop where
  special : isSpecial c = true
  blank : Text.isBlank c = false
  alpha : c.isAlpha = false

instance (c : Char) : Decidable (StartsLexeme c) :=
  decidable_of_iff (isSpecial c = true ∧ Text.isBlank c = false ∧ c.isAlpha = false)
    ⟨fun ⟨h, hb, ha⟩ => ⟨h, hb, ha⟩, fun ⟨h, hb, ha⟩ => ⟨h, hb, ha⟩⟩

/-- No character that starts a lexeme ends a comment. -/
theorem StartsLexeme.inComment {c : Char} (h : StartsLexeme c) : inComment c = true := by
  have hblank := h.blank
  simp only [MathEdit.inComment, Bool.and_eq_true, decide_eq_true_eq]
  constructor <;> rintro rfl <;> exact absurd hblank (by decide)

/-! ## Last lexemes -/

namespace Lexeme

variable {l : Lexeme} {c : Char} {u : Text}

/-- A lexeme is no lone backslash if there is text behind it. -/
theorem Begins.text_ne_backslash (h : Begins l u) (hu : u ≠ []) : l.text ≠ ['\\'] := by
  intro htext
  -- only the backslash at the end of the text is one alone
  cases h with
  | @sign d _ _ hsign =>
      obtain rfl : d = '\\' := by simpa using htext
      simp [sign?, operators] at hsign
  | comment => exact absurd (List.cons.inj htext).1 (by decide)
  | @blank s _ _ hs =>
      obtain rfl : s = ['\\'] := htext
      exact absurd (hs '\\' List.mem_cons_self) (by decide)
  | @plain s _ _ hs =>
      obtain rfl : s = ['\\'] := htext
      exact absurd (hs '\\' List.mem_cons_self) (by decide)
  | backslash => exact hu rfl
  | escaped => simp at htext
  | word hne => exact hne (List.cons.inj htext).2
  | openingTag =>
      rw [Environment.openingTag_eq] at htext
      simp at htext
  | closingTag =>
      rw [Environment.closingTag_eq] at htext
      simp at htext

/-- A lexeme at the end of a text ends before a character that starts a lexeme, unless it is a
comment or a backslash that is left over, or takes a name along. -/
theorem Begins.cons_iff (h : Begins l []) (hc : StartsLexeme c)
    (hname : l.AwaitsName → nameGroup? (c :: u) = none) :
    Begins l (c :: u) ↔ l.kind ≠ .comment ∧ l.text ≠ ['\\'] := by
  constructor
  · intro hbegins
    refine ⟨fun hkind => ?_, hbegins.text_ne_backslash (List.cons_ne_nil c u)⟩
    have hstops := (hbegins.of_comment hkind).2 c rfl
    simp [hc.inComment] at hstops
  -- by kinds: what ends a lexeme here ends it in front of `c` too
  · rintro ⟨hkind, htext⟩
    cases h with
    | sign h => exact .sign h
    | comment => exact absurd rfl hkind
    | blank hne hs =>
        refine .blank hne hs ?_
        rintro d ⟨⟩
        exact hc.blank
    | plain hne hs =>
        refine .plain hne hs ?_
        rintro d ⟨⟩
        simp [hc.special]
    | backslash => exact absurd rfl htext
    | escaped h => exact .escaped h
    | @word name _ hne halpha =>
        refine .word hne halpha ?_ ?_
        · rintro d ⟨⟩
          exact hc.alpha
        · intro htakes
          exact hname ⟨name, htakes, by rw [htakes.wordKind_eq]⟩
    | openingTag hne hends => exact .openingTag hne hends
    | closingTag hne hends => exact .closingTag hne hends

/-- Only a comment, a row break and a backslash that is left over can end in a backslash. -/
theorem Begins.of_getLast?_backslash (h : Begins l u) (hlast : l.text.getLast? = some '\\') :
    l.kind = .comment ∨ l = ⟨.rowBreak, ['\\', '\\']⟩ ∨ l = ⟨.plain, ['\\']⟩ := by
  -- names and plain text have no backslash, and an escape ends in one just if it is a row break
  cases h with
  | @sign d _ _ hsign =>
      obtain rfl : d = '\\' := by simpa using hlast
      simp [sign?, operators] at hsign
  | comment => exact .inl rfl
  | blank _ hs => exact absurd (hs _ (List.mem_of_getLast? hlast)) (by decide)
  | plain _ hs => exact absurd (hs _ (List.mem_of_getLast? hlast)) (by decide)
  | backslash => exact .inr (.inr rfl)
  | @escaped d =>
      obtain rfl : d = '\\' := by simpa using hlast
      exact .inr (.inl rfl)
  | word hne hname =>
      rw [List.getLast?_cons_of_ne_nil hne] at hlast
      exact absurd (hname _ (List.mem_of_getLast? hlast)) (by decide)
  | openingTag => simp [Environment.openingTag] at hlast
  | closingTag => simp [Environment.closingTag] at hlast

end Lexeme

/-! ## Backslashes at the end -/

/-- A text that does not end in a backslash has none at its end. -/
theorem backslashesAtEnd_eq_zero {s : Text} (h : s.getLast? ≠ some '\\') :
    backslashesAtEnd s = 0 := by
  rcases List.eq_nil_or_concat' s with rfl | ⟨front, c, rfl⟩
  · rfl
  · exact backslashesAtEnd_concat front fun heq => h (by rw [heq, List.getLast?_concat])

/-- Behind lexemes that do not end in a comment the backslashes pair up unless the last lexeme is
one that is left over. -/
theorem even_backslashesAtEnd_join {ls : List Lexeme} (h : BeginsEach ls [])
    (hlast : ∀ l ∈ ls.getLast?, l.kind ≠ .comment) :
    Even (backslashesAtEnd (join ls)) ↔ ∀ l ∈ ls.getLast?, l.text ≠ ['\\'] := by
  -- a row break adds two backslashes to those of the lexemes before it, so the induction adds
  -- lexemes at the end
  induction ls using List.reverseRecOn with
  | nil => simp [backslashesAtEnd]
  | append_singleton ls l ih =>
      rw [beginsEach_append_iff, join_cons, join_nil, List.append_nil, List.append_nil] at h
      obtain ⟨hfront, hbegins, -⟩ := h
      have hkind : l.kind ≠ .comment := hlast l (by simp)
      rw [join_append, join_cons, join_nil, List.append_nil, List.getLast?_concat]
      simp only [Option.mem_def, Option.some.injEq, forall_eq']
      by_cases hend : l.text.getLast? = some '\\'
      · -- behind the lexemes in front a backslash starts a lexeme
        have heven (hhead : l.text.head? = some '\\') : Even (backslashesAtEnd (join ls)) := by
          obtain ⟨s, hs⟩ := List.head?_eq_some_iff.1 hhead
          rw [hs] at hfront
          have hends : ∀ m ∈ ls.getLast?, m.kind ≠ .comment ∧ m.text ≠ ['\\'] := by
            intro m hm
            obtain ⟨a, ha⟩ := List.getLast?_eq_some_iff.1 hm
            rw [ha, beginsEach_append_iff] at hfront
            have hm := hfront.2.1
            rw [join_nil, List.nil_append] at hm
            exact (hm.of_append (u := []) |>.cons_iff (by decide) fun _ => rfl).1 hm
          exact (ih hfront.of_append fun m hm => (hends m hm).1).2 fun m hm => (hends m hm).2
        rcases hbegins.of_getLast?_backslash hend with h | rfl | rfl
        · exact absurd h hkind
        · rw [even_backslashesAtEnd_append (heven rfl)]
          decide
        · rw [even_backslashesAtEnd_append (heven rfl)]
          decide
      · have hlast : (join ls ++ l.text).getLast? ≠ some '\\' := by
          rwa [List.getLast?_append_of_ne_nil _ hbegins.text_ne_nil]
        rw [backslashesAtEnd_eq_zero hlast]
        refine iff_of_true Even.zero ?_
        intro htext
        exact hend (by rw [htext]; rfl)

/-- **Backslashes at the end** of a text that does not end in a comment pair up unless the last one
is left over. -/
theorem even_backslashesAtEnd_iff {s : Text} (h : ¬ EndsInComment s) :
    Even (backslashesAtEnd s) ↔ ∀ l ∈ (lex s).getLast?, l.text ≠ ['\\'] := by
  have hlast : ∀ l ∈ (lex s).getLast?, l.kind ≠ .comment := fun l hl hkind => h ⟨l, hl, hkind⟩
  have hjoin := even_backslashesAtEnd_join (beginsEach_lex s) hlast
  rwa [join_lex] at hjoin

/-! ## Boundaries before a sign -/

variable {s u : Text} {c : Char}

/-- The last lexeme of a text ends before a character that starts a lexeme unless that is part of a
comment, or escaped. -/
theorem begins_getLast?_iff (hc : StartsLexeme c)
    (hname : ∀ l ∈ (lex s).getLast?, l.AwaitsName → nameGroup? (c :: u) = none) :
    (∀ l ∈ (lex s).getLast?, Begins l (c :: u)) ↔
      ¬ EndsInComment s ∧ Even (backslashesAtEnd s) := by
  -- only the last lexeme is beside `c`
  have hiff : (∀ l ∈ (lex s).getLast?, Begins l (c :: u)) ↔
      ∀ l ∈ (lex s).getLast?, l.kind ≠ .comment ∧ l.text ≠ ['\\'] :=
    forall₂_congr fun l hl => (getLast?_text_of_getLast?_lex hl).2.cons_iff hc (hname l hl)
  rw [hiff]
  constructor
  · intro h
    have hcomment : ¬ EndsInComment s := fun ⟨l, hl, hkind⟩ => (h l hl).1 hkind
    exact ⟨hcomment, (even_backslashesAtEnd_iff hcomment).2 fun l hl => (h l hl).2⟩
  · rintro ⟨hcomment, heven⟩ l hl
    exact ⟨fun hkind => hcomment ⟨l, hl, hkind⟩, (even_backslashesAtEnd_iff hcomment).1 heven l hl⟩

/-- A name group starts with a brace. -/
theorem nameGroup?_cons_eq_none (hc : c ≠ '{') : nameGroup? (c :: u) = none := by
  rw [Option.eq_none_iff_forall_ne_some]
  rintro ⟨name, rest⟩ hsome
  exact hc (List.cons.inj (nameGroup?_eq_some_iff.1 hsome).1).1

/-- **Before a sign**: a text is scanned apart from what starts with a percent sign, a backslash or
a sign other than a brace unless this is part of a comment, escaped, or part of a name. -/
theorem apart_cons_iff (hc : StartsLexeme c) (hopen : c ≠ '{') (hclose : c ≠ '}') :
    Apart s (c :: u) ↔ (¬ EndsInComment s ∧ Even (backslashesAtEnd s)) ∧
      ¬ (LeavesNameOpen s ∧ closesName (c :: u) = true) := by
  have hhead : ∀ d ∈ (c :: u).head?, d ≠ '}' := by
    rintro d ⟨⟩
    exact hclose
  rw [apart_iff hhead, begins_getLast?_iff hc fun _ _ _ => nameGroup?_cons_eq_none hopen]

end MathEdit
