import Mathlib.Data.List.Basic
import MathEdit.Proofs.Token.Boundaries

/-! # Blanks between texts

A place in a text is no boundary in three cases only: a run goes on behind it, a comment does, or a
command finds the end of its name there. A blank at the place leaves the last two.

* **`apart_iff`**: what keeps two texts from being scanned apart.
* **`apart_space_iff`**: after a space it is a comment or an open name.
* **`apart_newline`**: after a newline it is nothing. -/

namespace MathEdit

open Lexeme

/-! ## Open names -/

/-- Whether the first character of a text that can end a name ends it rightly. -/
def closesName (v : Text) : Bool := (v.dropWhile (!endsName ·)).head? = some '}'

/-- Whether a text ends in a command that takes a name along and the front of its name. -/
def LeavesNameOpen (s : Text) : Prop :=
  ∃ front name part, s = front ++ '\\' :: name ++ '{' :: part ∧ TakesName name ∧
    (∀ c ∈ part, endsName c = false) ∧ Apart front ['\\']

/-- A text ends a name rightly if a closing brace is the first character in it that can end one. -/
theorem closesName_iff {v : Text} :
    closesName v = true ↔
      ∃ part rest, v = part ++ '}' :: rest ∧ ∀ c ∈ part, endsName c = false := by
  rw [closesName, decide_eq_true_eq]
  constructor
  · intro h
    obtain ⟨rest, hrest⟩ := List.head?_eq_some_iff.1 h
    refine ⟨v.takeWhile (!endsName ·), rest, ?_, ?_⟩
    · rw [← hrest, List.takeWhile_append_dropWhile]
    · intro c hc
      simpa using List.mem_takeWhile_imp hc
  · rintro ⟨part, rest, rfl, hpart⟩
    rw [Text.dropWhile_append_of_all (fun c hc => by simp [hpart c hc])]
    · rfl
    · rintro c ⟨⟩
      rfl

/-- Text that closes no name itself changes nothing when it is appended. -/
theorem closesName_append {w : Text} (hw : closesName w = false) (v : Text) :
    closesName (v ++ w) = closesName v := by
  rw [closesName, closesName, List.dropWhile_append]
  split
  · next h =>
      -- no character of `v` can end a name
      rw [List.isEmpty_iff.1 h]
      exact hw
  · next h =>
      obtain ⟨c, rest, hrest⟩ := List.exists_cons_of_ne_nil (mt List.isEmpty_iff.2 h)
      rw [hrest]
      rfl

/-- Only a name that is left open can be closed by what is appended. -/
theorem exists_of_nameGroup?_append {u v : Text} (hu : u ≠ []) (hnone : nameGroup? u = none)
    (h : nameGroup? (u ++ v) ≠ none) :
    ∃ part, u = '{' :: part ∧ (∀ c ∈ part, endsName c = false) ∧ closesName v = true := by
  obtain ⟨⟨name, rest⟩, h⟩ := Option.ne_none_iff_exists'.1 h
  obtain ⟨hsplit, hne, hname⟩ := nameGroup?_eq_some_iff.1 h
  obtain ⟨c, part, rfl⟩ := List.exists_cons_of_ne_nil hu
  obtain ⟨rfl, htail⟩ := List.cons.inj hsplit
  refine ⟨part, rfl, ?_⟩
  rcases List.append_eq_append_iff.1 htail with ⟨more, rfl, rfl⟩ | ⟨more, rfl, hmore⟩
  · -- the name goes on in `v`
    refine ⟨fun c hc => hname c (List.mem_append_left _ hc), ?_⟩
    exact closesName_iff.2 ⟨more, rest, rfl, fun c hc => hname c (List.mem_append_right _ hc)⟩
  · cases more with
    | nil =>
        rw [List.append_nil]
        exact ⟨hname, closesName_iff.2 ⟨[], rest, hmore.symm, by simp⟩⟩
    | cons d more =>
        -- the name ends in `u` already
        obtain ⟨rfl, rfl⟩ := List.cons.inj hmore
        have hsome : nameGroup? ('{' :: (name ++ '}' :: more)) = some (name, more) :=
          nameGroup?_eq_some_iff.2 ⟨rfl, hne, hname⟩
        rw [hsome] at hnone
        cases hnone

/-! ## More text behind -/

/-- Where a text stops a run, more text behind it changes nothing. -/
theorem Stops.append {p : Char → Bool} {u : Text} (h : Stops p u) (hu : u ≠ []) (v : Text) :
    Stops p (u ++ v) := by
  obtain ⟨c, u, rfl⟩ := List.exists_cons_of_ne_nil hu
  exact h

/-- Whether a lexeme is a command that could take a name along. -/
def Lexeme.AwaitsName (l : Lexeme) : Prop :=
  ∃ name, TakesName name ∧ l = ⟨.command name, '\\' :: name⟩

/-- More text behind a lexeme changes nothing unless it closes a name. -/
theorem Lexeme.Begins.append {l : Lexeme} {u v : Text} (h : Begins l u) (hu : u ≠ [])
    (hname : l.AwaitsName → nameGroup? u = none → nameGroup? (u ++ v) = none) :
    Begins l (u ++ v) := by
  cases h with
  | sign h => exact .sign h
  | comment hs hstop => exact .comment hs (hstop.append hu v)
  | blank hne hs hstop => exact .blank hne hs (hstop.append hu v)
  | plain hne hs hstop => exact .plain hne hs (hstop.append hu v)
  | backslash => exact absurd rfl hu
  | escaped h => exact .escaped h
  -- only a word that awaits a name looks further than one character
  | @word name _ hne halpha hstop hgroup =>
      refine .word hne halpha (hstop.append hu v) ?_
      intro htakes
      exact hname ⟨name, htakes, by rw [htakes.wordKind_eq]⟩ (hgroup htakes)
  | openingTag hne henv => exact .openingTag hne henv
  | closingTag hne henv => exact .closingTag hne henv

/-- More text changes nothing behind a backslash. -/
theorem Apart.backslash {s : Text} (h : Apart s ['\\']) (v : Text) : Apart s ('\\' :: v) := by
  rw [apart_iff_beginsEach, beginsEach_iff_forall] at h ⊢
  intro a l b hsplit
  have hbegins := (h a l b hsplit).append (v := v) (by simp) fun _ hnone => by
    -- a name would run over the backslash
    by_contra hsome
    obtain ⟨part, hpart, hends, -⟩ := exists_of_nameGroup?_append (by simp) hnone hsome
    have hmem : '\\' ∈ '{' :: part := by simp [← hpart]
    rcases List.mem_cons.1 hmem with heq | hmem
    · exact absurd heq (by decide)
    · exact absurd (hends _ hmem) (by decide)
  simpa using hbegins

/-- The letters of a command that could take a name along stop at a brace. -/
theorem begins_command {name u : Text} (htakes : TakesName name)
    (h : nameGroup? ('{' :: u) = none) : Begins ⟨.command name, '\\' :: name⟩ ('{' :: u) := by
  rw [← htakes.wordKind_eq]
  exact .word htakes.ne_nil htakes.isAlpha (stops_brace u) fun _ => h

/-- Behind a command a name that is left open stands apart from it. -/
theorem exists_lex_of_part {name part : Text} (htakes : TakesName name)
    (hpart : ∀ c ∈ part, endsName c = false) :
    ∃ ls, lex ('\\' :: name ++ '{' :: part) = ⟨.command name, '\\' :: name⟩ :: ls := by
  have hnone : nameGroup? ('{' :: part) = none := by
    rw [Option.eq_none_iff_forall_ne_some]
    rintro ⟨found, rest⟩ hsome
    obtain ⟨hsplit, -⟩ := nameGroup?_eq_some_iff.1 hsome
    obtain ⟨-, rfl⟩ := List.cons.inj hsplit
    exact absurd (hpart '}' (by simp)) (by decide)
  exact ⟨_, lex_text_append (begins_command htakes hnone)⟩

/-- Behind a command a name that is closed belongs to it. -/
theorem exists_lex_of_name {name found : Text} (htakes : TakesName name) (hne : found ≠ [])
    (hfound : ∀ c ∈ found, endsName c = false) (rest : Text) :
    ∃ l ls, lex ('\\' :: name ++ '{' :: found ++ '}' :: rest) = l :: ls ∧
      l.kind ≠ .command name := by
  rcases htakes with rfl | rfl
  · have htag := lex_text_append (Begins.openingTag (u := rest) hne hfound)
    simp only [Environment.openingTag_eq, List.append_assoc, List.singleton_append] at htag
    exact ⟨_, _, by simpa using htag, by simp⟩
  · have htag := lex_text_append (Begins.closingTag (u := rest) hne hfound)
    simp only [Environment.closingTag_eq, List.append_assoc, List.singleton_append] at htag
    exact ⟨_, _, by simpa using htag, by simp⟩

/-- A name that is left open and closed right away is a name after all. -/
theorem not_apart_of_closesName {s v : Text} (hv : ∀ c ∈ v.head?, c ≠ '}')
    (hs : LeavesNameOpen s) (hcloses : closesName v = true) : ¬ Apart s v := by
  obtain ⟨front, name, part, rfl, htakes, hpart, hfront⟩ := hs
  obtain ⟨more, rest, rfl, hmore⟩ := closesName_iff.1 hcloses
  intro h
  have hne : part ++ more ≠ [] := by
    intro hnil
    obtain ⟨rfl, rfl⟩ := List.append_eq_nil_iff.1 hnil
    exact hv '}' rfl rfl
  have hall : ∀ c ∈ part ++ more, endsName c = false := by
    intro c hc
    rcases List.mem_append.1 hc with hc | hc
    · exact hpart c hc
    · exact hmore c hc
  -- the first lexeme behind `front` is the command alone, or the tag
  obtain ⟨ls, hopen⟩ := exists_lex_of_part htakes hpart
  obtain ⟨l, ms, hclosed, hkind⟩ := exists_lex_of_name htakes hne hall rest
  have hshort := hfront.backslash (name ++ '{' :: part)
  have hlong := hfront.backslash (name ++ '{' :: (part ++ more) ++ '}' :: rest)
  simp only [Apart, List.cons_append, List.append_assoc] at h hshort hlong hopen hclosed
  rw [hlong, hshort, hopen, hclosed, List.append_assoc] at h
  obtain ⟨rfl, -⟩ := List.cons.inj (List.append_cancel_left h)
  exact hkind rfl

/-! ## Boundaries -/

/-- Two texts are scanned apart if the last lexeme of the first ends there and none of its commands
finds a name that goes on in the second. -/
theorem apart_of_begins {s v : Text} (hlast : ∀ l ∈ (lex s).getLast?, Begins l v)
    (hname : ∀ a l b, lex s = a ++ l :: b → l.AwaitsName → join b ≠ [] →
      nameGroup? (join b) = none → nameGroup? (join b ++ v) = none) : Apart s v := by
  rw [apart_iff_beginsEach, beginsEach_iff_forall]
  intro a l b hsplit
  have hbegins := beginsEach_iff_forall.1 (beginsEach_lex s) a l b hsplit
  rw [List.append_nil] at hbegins
  -- the last lexeme is beside `v`, and the others see it only through a name group
  by_cases hb : b = []
  · subst hb
    exact hlast l (by simp [hsplit])
  · have hne : join b ≠ [] := by
      obtain ⟨m, b, rfl⟩ := List.exists_cons_of_ne_nil hb
      obtain ⟨u, hm⟩ := exists_begins_of_mem_lex (t := s) (l := m) (by simp [hsplit])
      simp [hm.text_ne_nil]
    exact hbegins.append hne fun hawaits => hname a l b hsplit hawaits hne

/-- Two texts are scanned apart if the last lexeme of the first ends there and no name that the
first leaves open is closed in the second. -/
theorem apart_of_getLast? {s v : Text} (hlast : ∀ l ∈ (lex s).getLast?, Begins l v)
    (hname : ¬ (LeavesNameOpen s ∧ closesName v = true)) : Apart s v := by
  apply apart_of_begins hlast
  intro a l b hsplit hawaits hne hnone
  by_contra hsome
  obtain ⟨name, htakes, rfl⟩ := hawaits
  obtain ⟨part, hpart, hends, hcloses⟩ := exists_of_nameGroup?_append hne hnone hsome
  have hfront := beginsEach_lex s
  rw [hsplit, beginsEach_append_iff, List.append_nil] at hfront
  refine hname ⟨⟨join a, name, part, ?_, htakes, hends, ?_⟩, hcloses⟩
  · rw [← join_lex s, hsplit, join_append, join_cons, hpart, List.append_assoc]
  · exact Apart.of_append (u := ['\\']) (lex_join_of_beginsEach hfront.1).2

/-- **What a boundary takes**: two texts are scanned apart unless the last lexeme of the first goes
on in the second or a name that the first leaves open is closed in the second. -/
theorem apart_iff {s v : Text} (hv : ∀ c ∈ v.head?, c ≠ '}') :
    Apart s v ↔
      (∀ l ∈ (lex s).getLast?, Begins l v) ∧ ¬ (LeavesNameOpen s ∧ closesName v = true) := by
  constructor
  · intro h
    constructor
    -- the lexemes of the two texts together begin each in front of what follows
    · intro l hl
      obtain ⟨a, ha⟩ := List.getLast?_eq_some_iff.1 hl
      rw [apart_iff_beginsEach, ha, beginsEach_append_iff] at h
      exact h.2.1
    · rintro ⟨hopen, hcloses⟩
      exact not_apart_of_closesName hv hopen hcloses h
  · rintro ⟨hlast, hname⟩
    exact apart_of_getLast? hlast hname

/-- Text that closes no name is scanned apart as what it follows is. -/
theorem Apart.append {s v w : Text} (h : Apart s v) (hne : v ≠ []) (hv : ∀ c ∈ v.head?, c ≠ '}')
    (hw : closesName w = false) : Apart s (v ++ w) := by
  have hhead : ∀ c ∈ (v ++ w).head?, c ≠ '}' := by
    rwa [List.head?_append_of_ne_nil v hne]
  rw [apart_iff hv] at h
  rw [apart_iff hhead, closesName_append hw]
  refine ⟨fun l hl => (h.1 l hl).append hne fun _ hnone => ?_, h.2⟩
  -- a name that goes on in `w` would be closed there
  by_contra hsome
  obtain ⟨_, -, -, hcloses⟩ := exists_of_nameGroup?_append hne hnone hsome
  rw [hw] at hcloses
  cases hcloses

/-! ## The end of a text -/

/-- No letter is whitespace. -/
theorem isBlank_of_isAlpha {c : Char} (h : c.isAlpha = true) : Text.isBlank c = false := by
  have hrange : 65 ≤ c.toNat ∧ c.toNat ≤ 122 := by
    rcases Bool.or_eq_true_iff.1 h with hupper | hlower
    · obtain ⟨hle, hge⟩ := of_decide_eq_true hupper
      exact ⟨hle, Nat.le_trans hge (by decide)⟩
    · obtain ⟨hle, hge⟩ := Bool.and_eq_true_iff.1 hlower
      exact ⟨Nat.le_trans (by decide) (of_decide_eq_true hle), of_decide_eq_true hge⟩
  simp only [Text.isBlank, Text.inRanges, Text.blankRanges, List.any_cons, List.any_nil,
    Bool.or_eq_false_iff, Bool.and_eq_false_iff, decide_eq_false_iff_not, and_true]
  omega

/-- Signs are no part of the layout and no backslash constructs. -/
theorem ne_of_sign? {c : Char} {kind : Token.Kind} (h : sign? c = some kind) :
    kind ≠ .blank ∧ kind ≠ .comment ∧ ∀ d, kind ≠ .escaped d := by
  have hsign := isSign_of_sign? h
  refine ⟨?_, ?_, ?_⟩
  · rintro rfl
    cases hsign
  · rintro rfl
    cases hsign
  · rintro d rfl
    cases hsign

/-- A backslash and letters are no blank, no comment and no escaped character. -/
theorem wordKind_ne (name : Text) :
    wordKind name ≠ .blank ∧ wordKind name ≠ .comment ∧ ∀ d, wordKind name ≠ .escaped d := by
  unfold wordKind
  split
  · simp
  · split <;> simp

/-- Only a run of blanks, a comment and an escape can end in whitespace. -/
theorem Lexeme.Begins.kind_of_getLast? {l : Lexeme} {u : Text} {c : Char} (h : Begins l u)
    (hc : l.text.getLast? = some c) (hblank : Text.isBlank c = true) :
    l.kind = .blank ∨ l.kind = .comment ∨ l.kind = .escaped c := by
  -- signs, names, plain text and tags end in a character that is not blank
  cases h with
  | @sign d _ _ h =>
      have heq : d = c := Option.some.inj hc
      rw [← heq, isBlank_of_sign? h] at hblank
      cases hblank
  | comment => exact .inr (.inl rfl)
  | blank => exact .inl rfl
  | plain hne hs =>
      have hspecial : isSpecial c = true := by simp [isSpecial, hblank]
      rw [hs c (List.mem_of_getLast? hc)] at hspecial
      cases hspecial
  | backslash =>
      obtain rfl := Option.some.inj hc
      exact absurd hblank (by decide)
  | escaped =>
      obtain rfl := Option.some.inj hc
      exact .inr (.inr rfl)
  | @word name _ hne halpha =>
      have hmem : c ∈ name := by
        rw [List.getLast?_cons_of_ne_nil hne] at hc
        exact List.mem_of_getLast? hc
      rw [isBlank_of_isAlpha (halpha c hmem)] at hblank
      cases hblank
  | openingTag | closingTag =>
      have hbrace : c = '}' := by
        simpa [Environment.openingTag, Environment.closingTag] using hc.symm
      subst hbrace
      exact absurd hblank (by decide)

/-- A run of blanks and an escape end before anything that is not blank. -/
theorem Lexeme.Begins.of_blank {l : Lexeme} {u v : Text} (h : Begins l u)
    (hkind : l.kind = .blank ∨ ∃ c, l.kind = .escaped c) (hv : Stops Text.isBlank v) :
    Begins l v := by
  cases h with
  | sign h =>
      obtain ⟨hblank, -, hescaped⟩ := ne_of_sign? h
      rcases hkind with hkind | ⟨c, hkind⟩
      · exact absurd hkind hblank
      · exact absurd hkind (hescaped c)
  | blank hne hs => exact .blank hne hs hv
  | escaped h => exact .escaped h
  | @word name =>
      obtain ⟨hblank, -, hescaped⟩ := wordKind_ne name
      rcases hkind with hkind | ⟨c, hkind⟩
      · exact absurd hkind hblank
      · exact absurd hkind (hescaped c)
  | _ => simp at hkind

/-- A run of blanks is as long as it can be. -/
theorem Lexeme.Begins.of_kind_blank {l : Lexeme} {u : Text} (h : Begins l u)
    (hkind : l.kind = .blank) :
    (∀ c ∈ l.text, Text.isBlank c = true) ∧ Stops Text.isBlank u := by
  cases h with
  | sign h => exact absurd hkind (ne_of_sign? h).1
  | blank _ hs hu => exact ⟨hs, hu⟩
  | @word name => exact absurd hkind (wordKind_ne name).1
  | _ => simp at hkind

/-- A comment is a percent sign and the rest of its line. -/
theorem Lexeme.Begins.of_comment {l : Lexeme} {u : Text} (h : Begins l u)
    (hkind : l.kind = .comment) :
    (∃ body, l = ⟨.comment, '%' :: body⟩ ∧ ∀ c ∈ body, inComment c = true) ∧
      Stops inComment u := by
  cases h with
  | sign h => exact absurd hkind (ne_of_sign? h).2.1
  | comment hs hu => exact ⟨⟨_, rfl, hs⟩, hu⟩
  | @word name => exact absurd hkind (wordKind_ne name).2.1
  | _ => simp at hkind

/-- Whether the end of a text lies in a comment. -/
def EndsInComment (s : Text) : Prop := ∃ l ∈ (lex s).getLast?, l.kind = .comment

/-- A text ends in a comment if its last lexeme is a percent sign and more of the line. -/
theorem endsInComment_iff {s : Text} :
    EndsInComment s ↔ ∃ front body, s = front ++ '%' :: body ∧
      (∀ c ∈ body, inComment c = true) ∧ Apart front ('%' :: body) := by
  constructor
  · rintro ⟨l, hl, hkind⟩
    obtain ⟨a, ha⟩ := List.getLast?_eq_some_iff.1 hl
    have heach := beginsEach_lex s
    rw [ha, beginsEach_append_iff, List.append_nil] at heach
    obtain ⟨hfront, hbegins, -⟩ := heach
    -- the last lexeme is the comment, and the text in front reads alone
    obtain ⟨⟨body, rfl, hbody⟩, -⟩ := hbegins.of_comment hkind
    refine ⟨join a, body, ?_, hbody, ?_⟩
    · rw [← join_lex s, ha, join_append]
      simp
    · simpa using (lex_join_of_beginsEach hfront).2
  · rintro ⟨front, body, rfl, hbody, hapart⟩
    have hstops : Stops inComment [] := by simp [Stops]
    have hcomment := lex_text_append (Begins.comment hbody hstops)
    rw [List.append_nil, lex_nil] at hcomment
    refine ⟨⟨.comment, '%' :: body⟩, ?_, rfl⟩
    rw [hapart, hcomment]
    simp

/-- A character at the end of a text is at the end of each part there. -/
theorem exists_of_append_singleton_eq {s front part : Text} {c d : Char} (hne : c ≠ d)
    (h : s ++ [c] = front ++ d :: part) :
    ∃ part', part = part' ++ [c] ∧ s = front ++ d :: part' := by
  rcases List.eq_nil_or_concat' part with rfl | ⟨part', e, rfl⟩
  · obtain ⟨-, heq⟩ := List.append_inj' h rfl
    exact absurd (List.cons.inj heq).1 hne
  · rw [← List.cons_append, ← List.append_assoc] at h
    obtain ⟨rfl, heq⟩ := List.append_inj' h rfl
    obtain ⟨rfl, -⟩ := List.cons.inj heq
    exact ⟨part', rfl, rfl⟩

/-- A comment takes in the rest of its line, but a brace that closes a name before it. -/
theorem EndsInComment.append {s w : Text} (h : EndsInComment s)
    (hline : ∀ c ∈ w, inComment c = true) (hw : closesName w = false) : EndsInComment (s ++ w) := by
  obtain ⟨front, body, rfl, hbody, hapart⟩ := endsInComment_iff.1 h
  refine endsInComment_iff.2 ⟨front, body ++ w, by simp, ?_, ?_⟩
  · intro c hc
    rcases List.mem_append.1 hc with hc | hc
    · exact hbody c hc
    · exact hline c hc
  · have hhead : ∀ c ∈ ('%' :: body).head?, c ≠ '}' := by
      rintro c ⟨⟩
      decide
    exact hapart.append (List.cons_ne_nil _ _) hhead hw

/-- A space at the end neither starts a comment nor ends one. -/
theorem endsInComment_space {s : Text} : EndsInComment (s ++ [' ']) ↔ EndsInComment s := by
  constructor
  · intro h
    obtain ⟨front, body, hsplit, hbody, hapart⟩ := endsInComment_iff.1 h
    obtain ⟨body, rfl, rfl⟩ := exists_of_append_singleton_eq (by decide) hsplit
    rw [← List.cons_append] at hapart
    exact endsInComment_iff.2
      ⟨front, body, rfl, fun c hc => hbody c (List.mem_append_left _ hc), hapart.of_append⟩
  · intro h
    exact h.append (List.forall_mem_singleton.2 rfl) rfl

/-- It can be in a name, too. -/
theorem leavesNameOpen_space {s : Text} : LeavesNameOpen (s ++ [' ']) ↔ LeavesNameOpen s := by
  constructor
  · rintro ⟨front, name, part, hsplit, htakes, hpart, hfront⟩
    obtain ⟨part, rfl, rfl⟩ := exists_of_append_singleton_eq (by decide) hsplit
    exact ⟨front, name, part, rfl, htakes, fun c hc => hpart c (List.mem_append_left _ hc), hfront⟩
  · rintro ⟨front, name, part, rfl, htakes, hpart, hfront⟩
    refine ⟨front, name, part ++ [' '], by simp, htakes, ?_, hfront⟩
    intro c hc
    rcases List.mem_append.1 hc with hc | hc
    · exact hpart c hc
    · obtain rfl := List.mem_singleton.1 hc
      rfl

/-- The last lexeme of a text ends as the text does. -/
theorem getLast?_text_of_getLast?_lex {s : Text} {l : Lexeme} (h : l ∈ (lex s).getLast?) :
    l.text.getLast? = s.getLast? ∧ Begins l [] := by
  obtain ⟨a, ha⟩ := List.getLast?_eq_some_iff.1 h
  have heach := beginsEach_lex s
  rw [ha, beginsEach_append_iff] at heach
  obtain ⟨-, hbegins, -⟩ := heach
  refine ⟨?_, hbegins⟩
  rw [← join_lex s, ha, join_append, join_cons, join_nil, List.append_nil,
    List.getLast?_append_of_ne_nil _ hbegins.text_ne_nil]

/-- **After a space**: what keeps a text from being scanned apart from what follows the space behind
it is a comment, or a name that is closed only then. -/
theorem apart_space_iff {s v : Text} {c : Char} (hblank : Text.isBlank c = false) (hc : c ≠ '}') :
    Apart (s ++ [' ']) (c :: v) ↔
      ¬ EndsInComment s ∧ ¬ (LeavesNameOpen s ∧ closesName (c :: v) = true) := by
  have hhead : ∀ d ∈ (c :: v).head?, d ≠ '}' := by
    rintro d ⟨⟩
    exact hc
  have hstops : Stops Text.isBlank (c :: v) := by
    rintro d ⟨⟩
    exact hblank
  rw [apart_iff hhead, leavesNameOpen_space, ← endsInComment_space]
  refine and_congr_left fun _ => ⟨?_, ?_⟩
  · -- a comment ends only at a newline, which is blank
    rintro h ⟨l, hl, hkind⟩
    have hc := ((h l hl).of_comment hkind).2 c rfl
    simp only [inComment, ne_eq, Bool.and_eq_false_iff, decide_eq_false_iff_not,
      Classical.not_not] at hc
    rcases hc with rfl | rfl <;> exact absurd hblank (by decide)
  · -- the last lexeme ends in the space
    intro h l hl
    obtain ⟨hlast, hbegins⟩ := getLast?_text_of_getLast?_lex hl
    rw [List.getLast?_concat] at hlast
    rcases hbegins.kind_of_getLast? hlast rfl with hkind | hkind | hkind
    · exact hbegins.of_blank (.inl hkind) hstops
    · exact absurd ⟨l, hl, hkind⟩ h
    · exact hbegins.of_blank (.inr ⟨_, hkind⟩) hstops

/-- An empty text ends in no comment. -/
theorem not_endsInComment_nil : ¬ EndsInComment [] := by
  rintro ⟨l, hl, -⟩
  simp at hl

/-- And it leaves no name open. -/
theorem not_leavesNameOpen_nil : ¬ LeavesNameOpen [] := by
  rintro ⟨front, name, part, hsplit, -⟩
  simp at hsplit

/-- A space is scanned apart from what is not blank. -/
theorem apart_space {v : Text} (hv : Stops Text.isBlank v) : Apart [' '] v := by
  have hspace : Begins ⟨.blank, [' ']⟩ v := by
    refine .blank (List.cons_ne_nil _ _) ?_ hv
    intro c hc
    obtain rfl := List.mem_singleton.1 hc
    rfl
  have heach : BeginsEach [⟨.blank, [' ']⟩] v := ⟨hspace, trivial⟩
  exact (lex_join_of_beginsEach heach).2

/-- Two signs cannot each come last before text without the other. -/
theorem append_cons_ne_append_cons {a b x y : Text} {d e : Char} (hx : e ∉ d :: x)
    (hy : d ∉ e :: y) : a ++ d :: x ≠ b ++ e :: y := by
  intro h
  rcases List.append_eq_append_iff.1 h with ⟨m, -, h⟩ | ⟨m, -, h⟩
  · exact hx (by simp [h])
  · exact hy (by simp [h])

/-- **After a newline**: a line that starts with spaces is scanned apart from the lines before. -/
theorem apart_newline {s spaces v : Text} (hspaces : ∀ c ∈ spaces, Text.isBlank c = true)
    (hv : Stops Text.isBlank v) : Apart (s ++ '\n' :: spaces) v := by
  have hblank : ∀ c ∈ '\n' :: spaces, Text.isBlank c = true := by
    intro c hc
    rcases List.mem_cons.1 hc with rfl | hc
    · rfl
    · exact hspaces c hc
  apply apart_of_getLast?
  · intro l hl
    obtain ⟨hlast, hbegins⟩ := getLast?_text_of_getLast?_lex hl
    rw [List.getLast?_append_of_ne_nil _ (List.cons_ne_nil _ _)] at hlast
    obtain ⟨c, hc⟩ := Option.ne_none_iff_exists'.1
      (mt List.getLast?_eq_none_iff.1 (List.cons_ne_nil '\n' spaces))
    rw [hc] at hlast
    rcases hbegins.kind_of_getLast? hlast (hblank c (List.mem_of_getLast? hc)) with hkind | hkind |
      hkind
    · exact hbegins.of_blank (.inl hkind) hv
    · -- a comment would have ended before the newline
      obtain ⟨front, body, hsplit, hbody, -⟩ := endsInComment_iff.1 ⟨l, hl, hkind⟩
      refine absurd hsplit.symm (append_cons_ne_append_cons ?_ ?_)
      · intro hmem
        rcases List.mem_cons.1 hmem with heq | hmem
        · exact absurd heq (by decide)
        · exact absurd (hbody _ hmem) (by decide)
      · intro hmem
        exact absurd (hblank _ hmem) (by decide)
    · exact hbegins.of_blank (.inr ⟨_, hkind⟩) hv
  · -- no name goes on behind a newline
    rintro ⟨⟨front, name, part, hsplit, -, hpart, -⟩, -⟩
    refine absurd hsplit.symm (append_cons_ne_append_cons ?_ ?_)
    · intro hmem
      rcases List.mem_cons.1 hmem with heq | hmem
      · exact absurd heq (by decide)
      · exact absurd (hpart _ hmem) (by decide)
    · intro hmem
      exact absurd (hblank _ hmem) (by decide)

end MathEdit
