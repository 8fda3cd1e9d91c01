import MathEdit.Proofs.Equation.Rows

/-! # The tokens of a split equation

Apart from whitespace, a split equation has the tokens of the equation in their order, one level
deeper, with alignment signs and row breaks before the `=` where it is split. This holds as long as
no token of the equation could take in what the layout puts behind it.

* **`solid t`**: the lexemes of a text that are not blank.
* **`Equation.aligned`**: the tokens of an equation with the marks of its rows.
* **`Equation.scan_split`**: these are the tokens of the split equation. -/

namespace MathEdit

open Lexeme

/-! ## Lexemes that are not blank -/

/-- The lexemes of a run that are not blank. -/
def withoutBlanks (ls : List Lexeme) : List Lexeme := ls.filter (·.kind ≠ .blank)

/-- The lexemes of a text that are not blank. -/
def solid (t : Text) : List Lexeme := withoutBlanks (lex t)

/-- An empty text has no lexemes. -/
@[simp] theorem solid_nil : solid [] = [] := by simp [solid, withoutBlanks]

/-- Blanks are left out of a run part by part. -/
@[simp] theorem withoutBlanks_append (ls ms : List Lexeme) :
    withoutBlanks (ls ++ ms) = withoutBlanks ls ++ withoutBlanks ms := List.filter_append _ _

/-- A blank is left out. -/
theorem withoutBlanks_cons_of_blank {l : Lexeme} (h : l.kind = .blank) (ls : List Lexeme) :
    withoutBlanks (l :: ls) = withoutBlanks ls := List.filter_cons_of_neg (by simpa using h)

/-- Any other lexeme stays. -/
theorem withoutBlanks_cons_of_ne {l : Lexeme} (h : l.kind ≠ .blank) (ls : List Lexeme) :
    withoutBlanks (l :: ls) = l :: withoutBlanks ls := List.filter_cons_of_pos (by simpa using h)

/-- What is scanned apart has the lexemes of its parts. -/
theorem Apart.solid_append {s u : Text} (h : Apart s u) : solid (s ++ u) = solid s ++ solid u := by
  rw [solid, solid, solid, h, withoutBlanks_append]

/-- What a text starts with if it starts with whitespace. -/
theorem lex_eq_of_isBlank {c : Char} {t : Text} (hc : Text.isBlank c = true) :
    ∃ l, l.kind = .blank ∧ lex (c :: t) = l :: lex (Text.trimStart (c :: t)) := by
  have hrun : Begins ⟨.blank, c :: t.takeWhile Text.isBlank⟩ (t.dropWhile Text.isBlank) := by
    refine .blank (List.cons_ne_nil _ _) ?_ (stops_dropWhile _ _)
    intro d hd
    rcases List.mem_cons.1 hd with rfl | hd
    · exact hc
    · exact List.mem_takeWhile_imp hd
  refine ⟨⟨.blank, c :: t.takeWhile Text.isBlank⟩, rfl, ?_⟩
  rw [Text.trimStart, List.dropWhile_cons_of_pos hc, ← lex_text_append hrun, List.cons_append,
    List.takeWhile_append_dropWhile]

/-- Trimming in front takes away nothing but blanks. -/
theorem solid_trimStart (t : Text) : solid (Text.trimStart t) = solid t := by
  cases t with
  | nil => rfl
  | cons c t =>
      by_cases hc : Text.isBlank c = true
      · obtain ⟨l, hkind, hlex⟩ := lex_eq_of_isBlank (t := t) hc
        rw [solid, solid, hlex, withoutBlanks_cons_of_blank hkind]
      · rw [Text.trimStart, List.dropWhile_cons_of_neg hc]

/-- Whitespace at the front of a text does not show. -/
theorem solid_cons_of_isBlank {c : Char} {t : Text} (hc : Text.isBlank c = true) :
    solid (c :: t) = solid t := by
  rw [← solid_trimStart (c :: t), ← solid_trimStart t, Text.trimStart, Text.trimStart,
    List.dropWhile_cons_of_pos hc]

/-! ## Lexemes that take nothing in -/

/-- No blank is a letter. -/
theorem isAlpha_of_isBlank {c : Char} (hc : Text.isBlank c = true) : c.isAlpha = false := by
  rw [← Bool.not_eq_true]
  intro halpha
  rw [isBlank_of_isAlpha halpha] at hc
  cases hc

/-- Whether a lexeme takes in nothing behind whitespace: it is no comment and no command that could
take a name along. -/
structure Lexeme.Complete (l : Lexeme) : Prop where
  comment : l.kind ≠ .comment
  command : ∀ name, TakesName name → l.kind ≠ .command name

/-- A complete lexeme ends before whitespace as before other text, unless it is a run of blanks or a
backslash. -/
theorem Lexeme.Complete.begins {l : Lexeme} {u v : Text} {c : Char} (hl : l.Complete)
    (h : Begins l u) (hkind : l.kind ≠ .blank) (hslash : l ≠ ⟨.plain, ['\\']⟩)
    (hc : Text.isBlank c = true) : Begins l (c :: v) := by
  cases h with
  | sign h => exact .sign h
  | comment => exact absurd rfl hl.comment
  | blank => exact absurd rfl hkind
  -- a blank ends a run of plain characters
  | plain hne hs =>
      refine .plain hne hs ?_
      rintro d ⟨⟩
      simp [isSpecial, hc]
  | backslash => exact absurd rfl hslash
  | escaped h => exact .escaped h
  | @word name _ hne halpha =>
      refine .word hne halpha ?_ ?_
      -- and it ends a name, behind which a complete command waits for nothing
      · rintro d ⟨⟩
        exact isAlpha_of_isBlank hc
      · intro htakes
        exact absurd htakes.wordKind_eq (hl.command name htakes)
  | openingTag hne henv => exact .openingTag hne henv
  | closingTag hne henv => exact .closingTag hne henv

/-- Whether a lexeme is none of those that depend on whitespace or on a group behind it: a comment,
a command that takes a name along, an escaped blank and a backslash at the end. -/
structure Lexeme.Settled (l : Lexeme) : Prop where
  comment : l.kind ≠ .comment
  command : ∀ name, TakesName name → l.kind ≠ .command name
  escaped : ∀ c, Text.isBlank c = true → l.kind ≠ .escaped c
  backslash : l.text ≠ ['\\']

/-- A settled lexeme is complete. -/
theorem Lexeme.Settled.complete {l : Lexeme} (h : l.Settled) : l.Complete := ⟨h.comment, h.command⟩

/-- A settled lexeme ends before whitespace unless it is blank itself. -/
theorem Lexeme.Settled.begins {l : Lexeme} {u v : Text} {c : Char} (hl : l.Settled)
    (h : Begins l u) (hkind : l.kind ≠ .blank) (hc : Text.isBlank c = true) :
    Begins l (c :: v) := by
  have hslash : l ≠ ⟨.plain, ['\\']⟩ := by
    rintro rfl
    exact hl.backslash rfl
  exact hl.complete.begins h hkind hslash hc

/-- A text of settled lexemes is scanned apart from whitespace if it does not end in whitespace. -/
theorem apart_of_settled {s v : Text} {c : Char} (hs : ∀ l ∈ lex s, l.Settled)
    (hlast : ∀ l ∈ (lex s).getLast?, l.kind ≠ .blank) (hc : Text.isBlank c = true) :
    Apart s (c :: v) := by
  apply apart_of_begins
  · -- the last lexeme ends before whitespace
    intro l hl
    have hmem : l ∈ lex s := List.mem_of_getLast? hl
    exact (hs l hmem).begins (getLast?_text_of_getLast?_lex hl).2 (hlast l hl) hc
  · -- and no command waits for a name
    intro a l b hsplit hawaits
    obtain ⟨name, htakes, rfl⟩ := hawaits
    have hmem : ⟨.command name, '\\' :: name⟩ ∈ lex s := by simp [hsplit]
    exact absurd rfl ((hs _ hmem).command name htakes)

/-! ## Trimmed texts -/

/-- A settled lexeme that is not blank does not end in whitespace. -/
theorem Lexeme.Settled.isBlank_of_getLast? {l : Lexeme} {u : Text} {c : Char} (hl : l.Settled)
    (h : Begins l u) (hkind : l.kind ≠ .blank) (hc : c ∈ l.text.getLast?) :
    Text.isBlank c = false := by
  rw [← Bool.not_eq_true]
  intro hblank
  rcases h.kind_of_getLast? hc hblank with hk | hk | hk
  · exact hkind hk
  · exact hl.comment hk
  · exact hl.escaped c hblank hk

/-- Whether a text is made of settled lexemes and does not end in whitespace. -/
structure Tidy (t : Text) : Prop where
  settled : ∀ l ∈ lex t, l.Settled
  last : ∀ l ∈ (lex t).getLast?, l.kind ≠ .blank

/-- A tidy text is scanned apart from what comes behind a blank. -/
theorem Tidy.apart {s v : Text} {c : Char} (h : Tidy s) (hc : Text.isBlank c = true) :
    Apart s (c :: v) := apart_of_settled h.settled h.last hc

/-- A tidy text does not end in a blank character. -/
theorem Tidy.isBlank_of_getLast? {s : Text} (h : Tidy s) :
    ∀ c ∈ s.getLast?, Text.isBlank c = false := by
  intro c hc
  cases hlast : (lex s).getLast? with
  | none =>
      have hnil := List.getLast?_eq_none_iff.1 hlast
      rw [← join_lex s, hnil] at hc
      cases hc
  | some l =>
      obtain ⟨htext, hbegins⟩ := getLast?_text_of_getLast?_lex hlast
      have hl : l.Settled := h.settled l (List.mem_of_getLast? hlast)
      rw [← htext] at hc
      exact hl.isBlank_of_getLast? hbegins (h.last l hlast) hc

/-- So it is what trimming leaves of it with blanks behind it. -/
theorem Tidy.trimEnd_append {s t : Text} (h : Tidy s) (ht : ∀ c ∈ t, Text.isBlank c = true) :
    Text.trimEnd (s ++ t) = s := by
  have hreverse : ∀ c ∈ t.reverse, Text.isBlank c = true := fun c hc => ht c (List.mem_reverse.1 hc)
  rw [Text.trimEnd, List.reverse_append, Text.dropWhile_append_of_all hreverse,
    List.reverse_reverse]
  rw [List.head?_reverse]
  exact h.isBlank_of_getLast?

/-- Before a run of blanks no other one ends. -/
theorem kind_ne_of_begins_blank {m l : Lexeme} {u : Text} (hm : Begins m l.text)
    (hl : Begins l u) (hkind : l.kind = .blank) : m.kind ≠ .blank := by
  intro hblank
  obtain ⟨c, rest, htext⟩ := List.exists_cons_of_ne_nil hl.text_ne_nil
  have hstops := (hm.of_kind_blank hblank).2
  have hall := (hl.of_kind_blank hkind).1
  rw [htext] at hstops hall
  have hc := hall c List.mem_cons_self
  rw [hstops c rfl] at hc
  cases hc

/-- Trimming a text of settled lexemes leaves a tidy text with the same lexemes but blanks. -/
theorem tidy_trimEnd {s : Text} (h : ∀ l ∈ lex s, l.Settled) :
    Tidy (Text.trimEnd s) ∧ solid (Text.trimEnd s) = solid s := by
  by_cases hlast : ∀ l ∈ (lex s).getLast?, l.kind ≠ .blank
  · -- nothing is cut off
    have htidy : Tidy s := ⟨h, hlast⟩
    have htrim : Text.trimEnd s = s := by
      simpa using htidy.trimEnd_append fun c hc => absurd hc List.not_mem_nil
    rw [htrim]
    exact ⟨htidy, rfl⟩
  · -- the blanks at the end are one lexeme, which is all that is cut off
    obtain ⟨l, hl, hkind⟩ : ∃ l, l ∈ (lex s).getLast? ∧ l.kind = .blank := by simpa using hlast
    obtain ⟨a, hlex⟩ := List.getLast?_eq_some_iff.1 hl
    have heach := beginsEach_lex s
    rw [hlex, beginsEach_append_iff, join_cons, join_nil, List.append_nil, List.append_nil] at heach
    obtain ⟨hfront, hbegins, -⟩ := heach
    have hfrontlex : lex (join a) = a := (lex_join_of_beginsEach hfront).1
    have htidy : Tidy (join a) := by
      refine ⟨fun m hm => h m ?_, fun m hm => ?_⟩
      · rw [hfrontlex] at hm
        rw [hlex]
        exact List.mem_append_left _ hm
      · rw [hfrontlex] at hm
        obtain ⟨a', rfl⟩ := List.getLast?_eq_some_iff.1 hm
        exact kind_ne_of_begins_blank (beginsEach_append_iff.1 hfront).2.1 hbegins hkind
    have htrim : Text.trimEnd s = join a := by
      rw [← join_lex s, hlex, join_append, join_cons, join_nil, List.append_nil]
      exact htidy.trimEnd_append (hbegins.of_kind_blank hkind).1
    rw [htrim]
    refine ⟨htidy, ?_⟩
    rw [solid, solid, hfrontlex, hlex, withoutBlanks_append, withoutBlanks, withoutBlanks]
    simp [hkind]

/-- Trimming makes a text of settled lexemes tidy and keeps what is not blank. -/
theorem tidy_trim {s : Text} (h : ∀ l ∈ lex s, l.Settled) :
    Tidy (Text.trim s) ∧ solid (Text.trim s) = solid s := by
  have hstart : ∀ l ∈ lex (Text.trimStart s), l.Settled := by
    cases s with
    | nil => exact h
    | cons c s =>
        by_cases hc : Text.isBlank c = true
        · obtain ⟨l, -, hlex⟩ := lex_eq_of_isBlank (t := s) hc
          intro m hm
          exact h m (by simp [hlex, hm])
        · rwa [Text.trimStart, List.dropWhile_cons_of_neg hc]
  obtain ⟨htidy, hsolid⟩ := tidy_trimEnd hstart
  exact ⟨htidy, hsolid.trans (solid_trimStart s)⟩

/-- A tidy text shows its own lexemes before whitespace. -/
theorem Tidy.solid_append {s v : Text} {c : Char} (h : Tidy s) (hc : Text.isBlank c = true) :
    solid (s ++ c :: v) = solid s ++ solid v := by
  rw [(h.apart hc).solid_append, solid_cons_of_isBlank hc]

namespace Equation

/-! ## The rows -/

/-- The alignment mark is scanned as itself before any text. -/
theorem solid_alignment (u : Text) : solid ('&' :: '=' :: u) = alignment ++ solid u := by
  have hbegins := beginsEach_alignment u
  have hlex : lex ('&' :: '=' :: u) = alignment ++ lex u := lex_join_append_iff.2 hbegins
  rw [solid, hlex, withoutBlanks_append]
  rfl

/-- So is the row break. -/
theorem solid_rowBreak (u : Text) : solid ('\\' :: '\\' :: u) = rowBreak ++ solid u := by
  have hlex : lex ('\\' :: '\\' :: u) = rowBreak ++ lex u :=
    lex_join_append_iff.2 (beginsEach_rowBreak u)
  rw [solid, hlex, withoutBlanks_append]
  rfl

/-- The lexemes that are not blank can be read off the rows of tidy sides. -/
theorem reading_solid : Reading solid Tidy alignment rowBreak where
  nil := solid_nil
  blank hc _ := solid_cons_of_isBlank hc
  append hs _ hc _ := hs.solid_append hc
  alignment := solid_alignment
  rowBreak := solid_rowBreak

/-- So is an opening tag, if its name is valid. -/
theorem solid_openingTag_append {name : Text} (hname : Environment.isName name = true) (u : Text) :
    solid (Environment.openingTag name ++ u) = openingMark name ++ solid u := by
  have hlex := lex_join_append_iff.2 (beginsEach_openingMark hname u)
  rw [openingMark, Lexeme.join_cons, Lexeme.join_nil, List.append_nil] at hlex
  rw [solid, hlex, withoutBlanks_append]
  rfl

/-- And a closing tag with nothing behind it. -/
theorem solid_closingTag {name : Text} (hname : Environment.isName name = true) :
    solid (Environment.closingTag name) = closingMark name := by
  have hlex := (lex_join_of_beginsEach (beginsEach_closingMark hname [])).1
  rw [closingMark, Lexeme.join_cons, Lexeme.join_nil, List.append_nil] at hlex
  rw [solid, hlex]
  rfl

/-- What a split equation shows: its rows between the tags. -/
theorem solid_layOut {style : RowStyle} {s : Sides} {rest : List Sides}
    (hname : Environment.isName style.environment = true)
    (hrows : ∀ r ∈ s :: rest, Tidy r.left ∧ Tidy r.right ∧ r.comments = []) :
    solid (layOut style ((s :: rest).map Sides.row))
      = openingMark style.environment ++ (solid s.left ++ alignment ++ solid s.right ++
        rest.flatMap (fun r => rowBreak ++ solid r.left ++ alignment ++ solid r.right)) ++
        closingMark style.environment :=
  reading_solid.layOut (solid_openingTag_append hname) (solid_closingTag hname) hrows

/-! ## The segments -/

/-- The lexemes before the first break, and those after each of the breaks. -/
def runsOf : List Token → List Lexeme × List (List Lexeme)
  | [] => ([], [])
  | t :: ts =>
      let (head, tail) := runsOf ts
      if isBreak t ts then ([], head :: tail) else (t.toLexeme :: head, tail)

/-- A break ends the first run and is in none. -/
theorem runsOf_of_isBreak {t : Token} {ts : List Token} (h : isBreak t ts = true) :
    runsOf (t :: ts) = ([], (runsOf ts).1 :: (runsOf ts).2) := by simp [runsOf, h]

/-- Any other token is one of the first run. -/
theorem runsOf_of_not_isBreak {t : Token} {ts : List Token} (h : isBreak t ts ≠ true) :
    runsOf (t :: ts) = (t.toLexeme :: (runsOf ts).1, (runsOf ts).2) := by simp [runsOf, h]

/-- The segments of an equation are the texts of these runs. -/
theorem segmentsOf_eq_join (ts : List Token) :
    segmentsOf ts = (Lexeme.join (runsOf ts).1, (runsOf ts).2.map Lexeme.join) := by
  induction ts with
  | nil => rfl
  | cons t ts ih =>
      rw [segmentsOf, ih]
      by_cases h : isBreak t ts = true
      · simp [h, runsOf_of_isBreak h]
      · simp [h, runsOf_of_not_isBreak h]

/-- The lexemes of a segment stand together. -/
theorem runsOf_infix_map (ts : List Token) :
    (runsOf ts).1 <+: ts.map Token.toLexeme ∧
      ∀ ls ∈ (runsOf ts).2, ls <:+: ts.map Token.toLexeme := by
  induction ts with
  | nil => simp [runsOf]
  | cons t ts ih =>
      obtain ⟨hfirst, hrest⟩ := ih
      rw [List.map_cons]
      -- a break leaves the runs behind it where they are, and starts the next one
      by_cases h : isBreak t ts = true
      · rw [runsOf_of_isBreak h]
        refine ⟨List.nil_prefix, ?_⟩
        intro ls hls
        rcases List.mem_cons.1 hls with rfl | hls
        · exact hfirst.isInfix.trans (List.infix_cons (List.infix_refl _))
        · exact List.infix_cons (hrest ls hls)
      · rw [runsOf_of_not_isBreak h]
        exact ⟨List.cons_prefix_cons.2 ⟨rfl, hfirst⟩, fun ls hls => List.infix_cons (hrest ls hls)⟩

/-- Lexemes that stand together are those of the text that they make up. -/
theorem lex_join_of_infix_lex {ls : List Lexeme} {t : Text} (h : ls <:+: lex t) :
    lex (Lexeme.join ls) = ls := by
  obtain ⟨a, b, hsplit⟩ := h
  have heach := beginsEach_lex t
  rw [← hsplit, beginsEach_append_iff, beginsEach_append_iff] at heach
  exact (lex_join_of_beginsEach heach.1.2).1

/-! ## The tokens of the rows -/

/-- The tokens of an equation that are not blank, one level deeper, with an alignment sign before
the first break, if it is still to come, and a row break and an alignment sign before each other
one. -/
def aligned : (first : Bool) → List Token → List (Lexeme × Int)
  | _, [] => []
  | first, t :: ts =>
      if isBreak t ts then
        (if first then [] else rowBreak.map (·, t.depth + 1)) ++
          (⟨.operator '&', ['&']⟩, t.depth + 1) :: (t.toLexeme, t.depth + 1) :: aligned false ts
      else if t.isBlank then aligned first ts
      else (t.toLexeme, t.depth + 1) :: aligned first ts

/-- Lexemes with their depths, where `depth` is the one before the first. -/
def leveled : (depth : Int) → List Lexeme → List (Lexeme × Int)
  | _, [] => []
  | depth, l :: ls =>
      (l, if l.kind.isClosing then depth - 1 else depth) :: leveled (depth + l.kind.shift) ls

/-- What stands behind a run starts at the depth that the run leads to. -/
theorem leveled_append (depth : Int) (ls ms : List Lexeme) :
    leveled depth (ls ++ ms) = leveled depth ls ++ leveled (depth + Lexeme.depth ls) ms := by
  induction ls generalizing depth with
  | nil => simp [leveled, Lexeme.depth]
  | cons l ls ih => simp [leveled, ih, Lexeme.depth, Int.add_assoc]

/-- Starting deeper takes all lexemes as much deeper. -/
theorem leveled_add (depth k : Int) (ls : List Lexeme) :
    leveled (depth + k) ls = (leveled depth ls).map fun x => (x.1, x.2 + k) := by
  induction ls generalizing depth with
  | nil => rfl
  | cons l ls ih =>
      have hnext : depth + k + l.kind.shift = depth + l.kind.shift + k := by omega
      have hlevel : (if l.kind.isClosing then depth + k - 1 else depth + k) =
          (if l.kind.isClosing then depth - 1 else depth) + k := by
        split <;> omega
      rw [leveled, leveled, hnext, ih, hlevel, List.map_cons]

/-- Between the tags of an environment lexemes are a level deeper. -/
theorem leveled_between_tags (name : Text) (ls : List Lexeme) :
    leveled 0 (openingMark name ++ ls ++ closingMark name) =
      (⟨.opening (.environment name), Environment.openingTag name⟩, 0) :: leveled 1 ls ++
        [(⟨.closing (.environment name), Environment.closingTag name⟩, Lexeme.depth ls)] := by
  have hopening : (0 : Int) + Lexeme.depth (openingMark name) = 1 := rfl
  have hclosing : (0 : Int) + Lexeme.depth (openingMark name ++ ls) - 1 = Lexeme.depth ls := by
    rw [Lexeme.depth_append]
    simp only [openingMark, Lexeme.depth, Token.Kind.shift]
    omega
  rw [leveled_append, leveled_append, hopening]
  simp only [openingMark, closingMark, leveled, Token.Kind.isClosing, ← hclosing]
  rfl

/-- Tokens chosen by their kinds have the depths of the lexemes chosen, if those left out open and
close nothing. -/
theorem filter_place_of_shift {p : Token.Kind → Bool} (hp : ∀ k, p k = false → k.shift = 0)
    (position : Nat) (depth : Int) (ls : List Lexeme) :
    ((Token.place position depth ls).filter (p ·.kind)).map (fun t => (t.toLexeme, t.depth))
      = leveled depth (ls.filter (p ·.kind)) := by
  induction ls generalizing position depth with
  | nil => rfl
  | cons l ls ih =>
      rw [Token.place, List.filter_cons, List.filter_cons]
      by_cases h : p l.kind = true
      · rw [if_pos h, if_pos h, List.map_cons, ih, leveled]
      · have hshift : l.kind.shift = 0 := hp l.kind (by simpa using h)
        rw [if_neg h, if_neg h, ih, hshift, Int.add_zero]

/-- The tokens of a run that are not blank have the depths of its lexemes that are not. -/
theorem filter_place (position : Nat) (depth : Int) (ls : List Lexeme) :
    ((Token.place position depth ls).filter (!·.isBlank)).map (fun t => (t.toLexeme, t.depth))
      = leveled depth (withoutBlanks ls) := by
  have hblank (k : Token.Kind) (h : decide (k ≠ .blank) = false) : k.shift = 0 := by
    obtain rfl : k = .blank := by simpa using h
    rfl
  have hfilter : ((Token.place position depth ls).filter (!·.isBlank)) =
      (Token.place position depth ls).filter fun t => decide (t.kind ≠ .blank) :=
    List.filter_congr fun t _ => by simp [Token.isBlank]
  rw [hfilter]
  exact filter_place_of_shift hblank position depth ls

/-- Before a break the marks of its row are put in. -/
theorem aligned_of_isBreak {first : Bool} {t : Token} {ts : List Token} (h : isBreak t ts = true) :
    aligned first (t :: ts) = (if first then [] else rowBreak.map (·, t.depth + 1)) ++
      (⟨.operator '&', ['&']⟩, t.depth + 1) :: (t.toLexeme, t.depth + 1) :: aligned false ts :=
  if_pos h

/-- A blank is left out. -/
theorem aligned_of_isBlank {first : Bool} {t : Token} {ts : List Token} (h : t.isBlank = true) :
    aligned first (t :: ts) = aligned first ts := by
  have hkind : t.kind = .blank := by simpa [Token.isBlank] using h
  rw [aligned, if_neg (by simp [isBreak, hkind]), if_pos h]

/-- Any other token is a level deeper. -/
theorem aligned_of_ne {first : Bool} {t : Token} {ts : List Token} (h : isBreak t ts ≠ true)
    (hblank : t.isBlank ≠ true) :
    aligned first (t :: ts) = (t.toLexeme, t.depth + 1) :: aligned first ts := by
  rw [aligned, if_neg h, if_neg hblank]

/-- The marks of the rows change no depth. -/
theorem aligned_place (first : Bool) (position : Nat) (depth : Int) (ls : List Lexeme) :
    aligned first (Token.place position depth ls)
        = leveled (depth + 1) ((aligned first (Token.place position depth ls)).map Prod.fst) ∧
      Lexeme.depth ((aligned first (Token.place position depth ls)).map Prod.fst)
        = Lexeme.depth ls := by
  induction ls generalizing first position depth with
  | nil => exact ⟨rfl, rfl⟩
  | cons l ls ih =>
      rw [Token.place, Lexeme.depth]
      generalize hrest : Token.place (position + Text.width l.text) (depth + l.kind.shift) ls = rest
      generalize hlevel : (if l.kind.isClosing then depth - 1 else depth) = level
      have hih (first : Bool) := ih first (position + Text.width l.text) (depth + l.kind.shift)
      rw [hrest] at hih
      by_cases hbreak : isBreak ⟨l, position, level⟩ rest = true
      · -- neither the sign nor the marks in front of it open or close anything
        have hkind : l.kind = .operator '=' := (kind_and_counter_of_isBreak hbreak).1
        have hshift : l.kind.shift = 0 := by rw [hkind]; rfl
        have hclosing : l.kind.isClosing = false := by rw [hkind]; rfl
        obtain ⟨hleveled, hdepth⟩ := hih false
        rw [hclosing, if_neg Bool.false_ne_true] at hlevel
        rw [hshift, Int.add_zero] at hleveled
        rw [aligned_of_isBreak hbreak, hshift]
        subst hlevel
        cases first <;>
          simp [leveled, Lexeme.depth, Token.Kind.isClosing, Token.Kind.shift, rowBreak,
            Token.Kind.rowBreak, hkind, ← hleveled, hdepth]
      · obtain ⟨hleveled, hdepth⟩ := hih first
        by_cases hblank : l.kind = .blank
        · -- a run of blanks is left out, and changes no depth
          have hshift : l.kind.shift = 0 := by rw [hblank]; rfl
          rw [hshift, Int.add_zero] at hleveled
          rw [aligned_of_isBlank (by simpa [Token.isBlank] using hblank), hshift, Int.zero_add]
          exact ⟨hleveled, hdepth⟩
        · rw [aligned_of_ne hbreak (by simpa [Token.isBlank] using hblank), List.map_cons, leveled,
            Lexeme.depth, hdepth]
          refine ⟨?_, rfl⟩
          have hnext : depth + 1 + l.kind.shift = depth + l.kind.shift + 1 := by omega
          have hlevel' : level + 1 = if l.kind.isClosing then depth + 1 - 1 else depth + 1 := by
            rw [← hlevel]
            split <;> omega
          rw [hnext, ← hleveled, hlevel']

/-- The tokens of the rows are those of the segments with the marks between them. -/
theorem map_aligned {ts : List Token}
    (hts : ∀ t ∈ ts, t.kind = .operator '=' → t.text = ['=']) :
    (aligned false ts).map Prod.fst = withoutBlanks (runsOf ts).1 ++
        (runsOf ts).2.flatMap (fun r => rowBreak ++ alignment ++ withoutBlanks r) ∧
      ∀ right further, (runsOf ts).2 = right :: further →
        (aligned true ts).map Prod.fst = withoutBlanks (runsOf ts).1 ++ alignment ++
          withoutBlanks right ++
          further.flatMap (fun r => rowBreak ++ alignment ++ withoutBlanks r) := by
  induction ts with
  | nil => simp [aligned, runsOf, withoutBlanks]
  | cons t ts ih =>
      obtain ⟨hfalse, htrue⟩ := ih fun u hu => hts u (List.mem_cons_of_mem t hu)
      by_cases hbreak : isBreak t ts = true
      · have hkind : t.kind = .operator '=' := (kind_and_counter_of_isBreak hbreak).1
        have hsign : t.toLexeme = ⟨.operator '=', ['=']⟩ := by
          rw [← hkind, ← hts t List.mem_cons_self hkind]
        rw [runsOf_of_isBreak hbreak, aligned_of_isBreak hbreak, aligned_of_isBreak hbreak]
        constructor
        · -- the break is a further one
          simp [hfalse, hsign, alignment, withoutBlanks, rowBreak]
        · -- the break is the first one, and those behind it are further ones
          intro right further h
          obtain ⟨rfl, rfl⟩ := List.cons.inj h
          simp [hfalse, hsign, alignment, withoutBlanks]
      · rw [runsOf_of_not_isBreak hbreak]
        by_cases hblank : t.isBlank = true
        · have hkind : t.kind = .blank := by simpa [Token.isBlank] using hblank
          rw [aligned_of_isBlank hblank, aligned_of_isBlank hblank,
            withoutBlanks_cons_of_blank hkind]
          exact ⟨hfalse, htrue⟩
        · have hkind : t.kind ≠ .blank := by simpa [Token.isBlank] using hblank
          rw [aligned_of_ne hbreak hblank, aligned_of_ne hbreak hblank,
            withoutBlanks_cons_of_ne hkind, List.map_cons, List.map_cons, hfalse]
          refine ⟨rfl, ?_⟩
          intro right further h
          rw [htrue right further h]
          rfl

/-! ## The split equation -/

/-- No comment is taken off a segment of settled lexemes. -/
theorem part_of_settled {s : Text} (h : ∀ l ∈ lex s, l.Settled) :
    part s = ⟨Text.trim s, none⟩ := by
  apply part_of_not_endsInComment
  rintro ⟨l, hl, hkind⟩
  exact ((tidy_trim h).1.settled l (List.mem_of_getLast? hl)).comment hkind

/-- A segment of settled lexemes shows them in its row. -/
theorem part_join {ls : List Lexeme} {t : Text} (hls : ls <:+: lex t)
    (h : ∀ l ∈ lex t, l.Settled) :
    Tidy (part (Lexeme.join ls)).code ∧ solid (part (Lexeme.join ls)).code = withoutBlanks ls ∧
      (part (Lexeme.join ls)).comment = none := by
  have hlex := lex_join_of_infix_lex hls
  have hsettled : ∀ l ∈ lex (Lexeme.join ls), l.Settled := by
    rw [hlex]
    exact fun l hl => h l (hls.subset hl)
  obtain ⟨htidy, hsolid⟩ := tidy_trim hsettled
  rw [part_of_settled hsettled]
  refine ⟨htidy, ?_, rfl⟩
  rw [hsolid, solid, hlex]

/-- The sign of an operator is the operator. -/
theorem eq_of_sign?_operator {c d : Char} (h : sign? d = some (.operator c)) : d = c := by
  unfold sign? at h
  split at h
  case h_10 =>
    split at h
    · simpa using h
    · simp at h
  all_goals simp at h

/-- An operator is written as its sign. -/
theorem text_of_operator {t : Text} {l : Lexeme} {c : Char} (h : l ∈ lex t)
    (hkind : l.kind = .operator c) : l.text = [c] := by
  obtain ⟨u, hbegins⟩ := exists_begins_of_mem_lex h
  obtain ⟨d, htext, hsign⟩ := hbegins.of_isSign (by rw [hkind]; rfl)
  rw [hkind] at hsign
  rw [htext, eq_of_sign?_operator hsign]

/-- The lexemes of a split equation that are not blank. -/
theorem solid_split {style : RowStyle} {t : Text}
    (hname : Environment.isName style.environment = true) (hbreaks : breaks (inner t) ≠ [])
    (hsettled : ∀ l ∈ lex (inner t), l.Settled) :
    solid (split style t) = openingMark style.environment ++
      (aligned true (scan (inner t))).map Prod.fst ++ closingMark style.environment := by
  obtain ⟨left, right, further, hsegments⟩ := exists_segmentsOf hbreaks
  rw [split_eq_layOut hsegments]
  rw [segmentsOf_eq_join] at hsegments
  obtain ⟨rfl, hrest⟩ := Prod.mk.inj hsegments
  obtain ⟨r, rs, hruns, rfl, rfl⟩ := List.map_eq_cons_iff.1 hrest
  -- the segments are runs of the lexemes of the equation
  have hmap : (scan (inner t)).map Token.toLexeme = lex (inner t) := Token.map_toLexeme_place 0 0 _
  obtain ⟨hfirst, hothers⟩ := runsOf_infix_map (scan (inner t))
  rw [hmap] at hfirst hothers
  rw [hruns] at hothers
  -- so their rows show the lexemes that they are made of
  obtain ⟨htidy, hsolid, hcomment⟩ := part_join hfirst.isInfix hsettled
  obtain ⟨htidy', hsolid', hcomment'⟩ := part_join (hothers r List.mem_cons_self) hsettled
  have hfurther (ls : List Lexeme) (hls : ls ∈ rs) :=
    part_join (hothers ls (List.mem_cons_of_mem r hls)) hsettled
  have hrows : ∀ s ∈ sides (Lexeme.join (runsOf (scan (inner t))).1) (Lexeme.join r)
      (rs.map Lexeme.join), Tidy s.left ∧ Tidy s.right ∧ s.comments = [] := by
    intro s hs
    rcases List.mem_cons.1 hs with rfl | hs
    · exact ⟨htidy, htidy', by simp [firstSides, hcomment, hcomment']⟩
    · obtain ⟨x, hx, rfl⟩ := List.mem_map.1 hs
      obtain ⟨ls, hls, rfl⟩ := List.mem_map.1 hx
      obtain ⟨htidy, -, hcomment⟩ := hfurther ls hls
      exact ⟨⟨by simp [furtherSides], by simp [furtherSides]⟩, htidy,
        by simp [furtherSides, hcomment]⟩
  have hsign : ∀ u ∈ scan (inner t), u.kind = .operator '=' → u.text = ['='] := by
    intro u hu hkind
    have hmem : u.toLexeme ∈ lex (inner t) := hmap ▸ List.mem_map_of_mem hu
    exact text_of_operator hmem hkind
  have hrest : ((rs.map Lexeme.join).map furtherSides).flatMap
        (fun s => rowBreak ++ solid s.left ++ alignment ++ solid s.right)
      = rs.flatMap fun ls => rowBreak ++ alignment ++ withoutBlanks ls := by
    rw [List.map_map, List.flatMap_map]
    apply List.flatMap_congr
    intro ls hls
    simp [furtherSides, (hfurther ls hls).2.1]
  rw [sides, solid_layOut hname hrows, hrest, (map_aligned hsign).2 r rs hruns, firstSides]
  simp only [hsolid, hsolid', List.append_assoc]

/-- **Splitting keeps the tokens**: without whitespace, the tokens of a split equation are those of
the equation in their order, one level deeper, with the marks of the rows in front of the breaks and
the tags of the environment around them. -/
theorem scan_split {style : RowStyle} {t : Text}
    (hname : Environment.isName style.environment = true) (hbreaks : breaks (inner t) ≠ [])
    (hsettled : ∀ l ∈ lex (inner t), l.Settled) :
    ((scan (split style t)).filter (!·.isBlank)).map (fun u => (u.toLexeme, u.depth)) =
      (⟨.opening (.environment style.environment), Environment.openingTag style.environment⟩, 0) ::
        aligned true (scan (inner t)) ++
        [(⟨.closing (.environment style.environment),
          Environment.closingTag style.environment⟩, finalDepth (inner t))] := by
  obtain ⟨hleveled, hdepth⟩ := aligned_place true 0 0 (lex (inner t))
  rw [← scan, Int.zero_add] at hleveled
  rw [← scan] at hdepth
  -- the tags take everything one level deeper, and the depth of the equation is that of its rows
  rw [scan, filter_place, ← solid, solid_split hname hbreaks hsettled, leveled_between_tags,
    ← hleveled, hdepth, finalDepth]

/-- A chain of two equations becomes two rows. -/
theorem scan_split_of_chain :
    Environment.isName RowStyle.standard.environment = true ∧ breaks (inner "a=b=c".toList) ≠ [] ∧
      (∀ l ∈ lex (inner "a=b=c".toList), l.Settled) ∧
      ((scan (split .standard "a=b=c".toList)).filter (!·.isBlank)).map
          (fun u => (u.toLexeme, u.depth)) =
        (⟨.opening (.environment "align".toList), Environment.openingTag "align".toList⟩, 0) ::
          [(⟨.plain, ['a']⟩, 1), (⟨.operator '&', ['&']⟩, 1), (⟨.operator '=', ['=']⟩, 1),
            (⟨.plain, ['b']⟩, 1), (⟨.rowBreak, ['\\', '\\']⟩, 1), (⟨.operator '&', ['&']⟩, 1),
            (⟨.operator '=', ['=']⟩, 1), (⟨.plain, ['c']⟩, 1)] ++
          [(⟨.closing (.environment "align".toList),
            Environment.closingTag "align".toList⟩, 0)] := by
  have hname : Environment.isName RowStyle.standard.environment = true := by cbv
  have hbreaks : breaks (inner "a=b=c".toList) = [1, 3] := by cbv
  have hlex : lex (inner "a=b=c".toList) =
      [⟨.plain, ['a']⟩, ⟨.operator '=', ['=']⟩, ⟨.plain, ['b']⟩, ⟨.operator '=', ['=']⟩,
        ⟨.plain, ['c']⟩] := by cbv
  have haligned : aligned true (scan (inner "a=b=c".toList)) =
      [(⟨.plain, ['a']⟩, 1), (⟨.operator '&', ['&']⟩, 1), (⟨.operator '=', ['=']⟩, 1),
        (⟨.plain, ['b']⟩, 1), (⟨.rowBreak, ['\\', '\\']⟩, 1), (⟨.operator '&', ['&']⟩, 1),
        (⟨.operator '=', ['=']⟩, 1), (⟨.plain, ['c']⟩, 1)] := by cbv
  have hne : breaks (inner "a=b=c".toList) ≠ [] := by
    rw [hbreaks]
    exact List.cons_ne_nil _ _
  have hsettled : ∀ l ∈ lex (inner "a=b=c".toList), l.Settled := by
    have hplain (c : Char) (hc : c ≠ '\\') : Lexeme.Settled ⟨.plain, [c]⟩ :=
      ⟨by simp, by simp, by simp, by simpa using hc⟩
    have hsign : Lexeme.Settled ⟨.operator '=', ['=']⟩ := ⟨by simp, by simp, by simp, by simp⟩
    rw [hlex]
    simp [hplain, hsign]
  have hdepth : finalDepth (inner "a=b=c".toList) = 0 := by cbv
  refine ⟨hname, hne, hsettled, ?_⟩
  rw [scan_split hname hne hsettled, haligned, hdepth]
  rfl

end Equation

end MathEdit
