import MathEdit.Proofs.Token.Partition
import MathEdit.Proofs.Token.Signs

/-! # Comments on a line

A comment starts at a percent sign that is not escaped, and goes on to the end of the line. There is
one exception to this: the name of an environment may have percent signs in it, and these start no
comment as long as the name is closed behind them.

* **`OpensName`**: whether a text ends in a tag that is open, read off the text itself.
* **`StartsComment`**: whether a percent sign between two texts starts a comment on its line.
* **`exists_apart_of_startsComment`**: on a line there is a comment there or before.
* **`comments_of_line`**: the comment of a line starts at the first such percent sign. -/

namespace MathEdit

open Lexeme

/-! ## Names that are open -/

/-- Whether a text ends in a backslash that is not escaped, `begin` or `end`, a brace and the front
of a name. -/
def OpensName (s : Text) : Prop :=
  ∃ front name part, s = front ++ '\\' :: name ++ '{' :: part ∧ TakesName name ∧
    (∀ c ∈ part, endsName c = false) ∧ Even (backslashesAtEnd front)

/-- Whether the percent sign between two texts starts a comment if none does before it on the line:
it is not escaped, and no name is open before it and closed behind it. -/
def StartsComment (a b : Text) : Prop :=
  Even (backslashesAtEnd a) ∧ ¬ (OpensName a ∧ closesName b = true)

variable {s t u v w a b : Text}

/-- A backslash starts a lexeme unless it is in a comment or escaped. -/
theorem apart_backslash_iff :
    Apart s ('\\' :: u) ↔ ¬ EndsInComment s ∧ Even (backslashesAtEnd s) := by
  rw [apart_cons_iff (by decide) (by decide) (by decide)]
  exact and_iff_left fun h => absurd h.2 Bool.false_ne_true

/-- A command that leaves a name open is not escaped. -/
theorem LeavesNameOpen.opensName (h : LeavesNameOpen s) : OpensName s := by
  obtain ⟨front, name, part, rfl, htakes, hpart, hfront⟩ := h
  exact ⟨front, name, part, rfl, htakes, hpart, (apart_backslash_iff.1 hfront).2⟩

/-- On a line that does not end in a comment the text alone tells whether a name is left open. -/
theorem OpensName.leavesNameOpen (h : OpensName s) (hline : ∀ c ∈ s, inComment c = true)
    (hcomment : ¬ EndsInComment s) : LeavesNameOpen s := by
  obtain ⟨front, name, part, rfl, htakes, hpart, heven⟩ := h
  refine ⟨front, name, part, rfl, htakes, hpart, apart_backslash_iff.2 ⟨fun hfront => ?_, heven⟩⟩
  rw [List.append_assoc] at hline hcomment
  exact hcomment (hfront.append (fun c hc => hline c (List.mem_append_right front hc)) rfl)

/-- A name that is open stays open behind text that does not end it. -/
theorem OpensName.append (h : OpensName s) (hw : ∀ c ∈ w, endsName c = false) :
    OpensName (s ++ w) := by
  obtain ⟨front, name, part, rfl, htakes, hpart, heven⟩ := h
  refine ⟨front, name, part ++ w, by simp, htakes, ?_, heven⟩
  intro c hc
  rcases List.mem_append.1 hc with hc | hc
  · exact hpart c hc
  · exact hw c hc

/-- Text that closes a name only together with what follows it does not end the name. -/
theorem forall_endsName_of_closesName_append (hv : closesName v = false)
    (h : closesName (v ++ w) = true) :
    (∀ c ∈ v, endsName c = false) ∧ closesName w = true := by
  obtain ⟨part, rest, hsplit, hpart⟩ := closesName_iff.1 h
  rcases List.append_eq_append_iff.1 hsplit with ⟨more, rfl, hw⟩ | ⟨more, rfl, hmore⟩
  · exact ⟨fun c hc => hpart c (List.mem_append_left _ hc),
      closesName_iff.2 ⟨more, rest, hw, fun c hc => hpart c (List.mem_append_right _ hc)⟩⟩
  · cases more with
    | nil =>
        rw [List.append_nil]
        exact ⟨hpart, closesName_iff.2 ⟨[], rest, hmore.symm, by simp⟩⟩
    | cons d more =>
        -- the brace would stand in `v`
        obtain ⟨rfl, -⟩ := List.cons.inj hmore
        have hcloses := closesName_iff.2 ⟨part, more, rfl, hpart⟩
        rw [hv] at hcloses
        cases hcloses

/-! ## Where a comment starts -/

/-- Percent signs do not matter for where a name is closed. -/
theorem closesName_percent : closesName ('%' :: b) = closesName b := rfl

/-- Where a comment starts on a line, the text says so. -/
theorem startsComment_of_apart (hline : ∀ c ∈ a, inComment c = true) (h : Apart a ('%' :: b)) :
    StartsComment a b := by
  obtain ⟨⟨hcomment, heven⟩, hname⟩ :=
    (apart_cons_iff (by decide) (by decide) (by decide)).1 h
  refine ⟨heven, fun ⟨hopens, hcloses⟩ => hname ⟨hopens.leavesNameOpen hline hcomment, ?_⟩⟩
  rwa [closesName_percent]

/-- **Where the text says that a comment starts**, one starts, or one has started before. -/
theorem exists_apart_of_startsComment (h : StartsComment a b) :
    ∃ front body, a ++ '%' :: b = front ++ '%' :: body ∧ front <+: a ∧
      Apart front ('%' :: body) := by
  obtain ⟨heven, hname⟩ := h
  by_cases hcomment : EndsInComment a
  · obtain ⟨front, body, rfl, -, hapart⟩ := endsInComment_iff.1 hcomment
    refine ⟨front, body ++ '%' :: b, by simp, List.prefix_append _ _, ?_⟩
    rw [apart_cons_iff (by decide) (by decide) (by decide)] at hapart ⊢
    refine ⟨hapart.1, fun ⟨hopen, hcloses⟩ => ?_⟩
    -- a name that is closed only behind `a` is open there
    have hnone : closesName ('%' :: body) = false :=
      Bool.eq_false_iff.2 fun hcloses => hapart.2 ⟨hopen, hcloses⟩
    rw [← List.cons_append] at hcloses
    obtain ⟨hbody, hcloses⟩ := forall_endsName_of_closesName_append hnone hcloses
    rw [closesName_percent] at hcloses
    exact hname ⟨hopen.opensName.append hbody, hcloses⟩
  · refine ⟨a, b, rfl, List.prefix_refl a, ?_⟩
    refine (apart_cons_iff (by decide) (by decide) (by decide)).2 ⟨⟨hcomment, heven⟩, ?_⟩
    rw [closesName_percent]
    exact fun ⟨hopen, hcloses⟩ => hname ⟨hopen.opensName, hcloses⟩

/-! ## The comment of a line -/

/-- A comment of a line is its last token. -/
theorem Token.of_comment_of_line {k : Token} (hline : ∀ c ∈ t, inComment c = true)
    (hk : k ∈ scan t) (hkind : k.kind = .comment) :
    (scan t).getLast? = some k ∧ ∃ a b, t = a ++ '%' :: b ∧ k.position = Text.width a ∧
      Apart a ('%' :: b) := by
  obtain ⟨before, after, hsplit⟩ := List.append_of_mem hk
  obtain ⟨ht, hposition, hbegins⟩ := Token.of_scan_eq hsplit
  obtain ⟨⟨body, htext, -⟩, hstops⟩ := hbegins.of_comment hkind
  -- what follows a comment starts with the end of its line
  have hnil : after = [] := by
    cases after with
    | nil => rfl
    | cons m after =>
        obtain ⟨-, -, hm⟩ := Token.beside_of_scan_eq hsplit
        obtain ⟨d, rest, hrest⟩ := List.exists_cons_of_ne_nil hm.text_ne_nil
        have hjoin : Token.join (m :: after) = d :: (rest ++ Token.join after) := by
          simp [Token.join, hrest]
        rw [hjoin] at ht hstops
        have hd : inComment d = true := hline d (by rw [ht]; simp)
        have hstop := hstops d rfl
        rw [hd] at hstop
        cases hstop
  subst hnil
  have hparts : t = Token.join before ++ '%' :: body := by
    have hempty : Token.join [] = [] := rfl
    rw [ht, hempty, List.append_nil, htext]
  refine ⟨by rw [hsplit, List.getLast?_concat], Token.join before, body, hparts, hposition, ?_⟩
  rw [hparts] at hk
  exact Token.apart_of_mem_scan hk hposition

/-- Where a comment starts, there is a comment token. -/
theorem Token.exists_comment_of_apart (h : Apart a ('%' :: b)) :
    ∃ k ∈ scan (a ++ '%' :: b), k.kind = .comment ∧ k.position = Text.width a := by
  have hrest : lex ('%' :: b) = ⟨.comment, '%' :: b.takeWhile inComment⟩ ::
      lex (b.dropWhile inComment) := by
    rw [lex_cons]
    rfl
  exact ⟨_, Token.mem_scan_of_apart h hrest, rfl, rfl⟩

/-- **Comments of a line.** A line has a comment exactly if it has a percent sign that is not
escaped and is no part of a name in the braces of a tag. The comment is the last token then, and
starts at the first such percent sign. -/
theorem comments_of_line {t : Text} (hnewline : '\n' ∉ t) (hreturn : '\r' ∉ t) :
    ((∃ k ∈ scan t, k.kind = .comment) ↔ ∃ a b, t = a ++ '%' :: b ∧ StartsComment a b) ∧
      ∀ k ∈ scan t, k.kind = .comment → (scan t).getLast? = some k ∧
        ∃ a b, t = a ++ '%' :: b ∧ StartsComment a b ∧ k.position = Text.width a ∧
          ∀ a' b', t = a' ++ '%' :: b' → StartsComment a' b' → a <+: a' := by
  have hline : ∀ c ∈ t, inComment c = true := by
    intro c hc
    rw [inComment_iff]
    constructor <;> rintro rfl <;> contradiction
  have hfront {a b : Text} (ht : t = a ++ '%' :: b) : ∀ c ∈ a, inComment c = true :=
    fun c hc => hline c (ht ▸ List.mem_append_left _ hc)
  constructor
  · constructor
    · rintro ⟨k, hk, hkind⟩
      obtain ⟨-, a, b, ht, -, hapart⟩ := Token.of_comment_of_line hline hk hkind
      exact ⟨a, b, ht, startsComment_of_apart (hfront ht) hapart⟩
    · rintro ⟨a, b, rfl, hstarts⟩
      obtain ⟨front, body, heq, -, hapart⟩ := exists_apart_of_startsComment hstarts
      obtain ⟨k, hk, hkind, -⟩ := Token.exists_comment_of_apart hapart
      exact ⟨k, heq ▸ hk, hkind⟩
  · intro k hk hkind
    obtain ⟨hlast, a, b, ht, hposition, hapart⟩ := Token.of_comment_of_line hline hk hkind
    refine ⟨hlast, a, b, ht, startsComment_of_apart (hfront ht) hapart, hposition, ?_⟩
    intro a' b' ht' hstarts
    obtain ⟨front, body, heq, hprefix, hapart'⟩ := exists_apart_of_startsComment hstarts
    obtain ⟨m, hm, hmkind, hmposition⟩ := Token.exists_comment_of_apart hapart'
    rw [← heq, ← ht'] at hm
    -- the comment that starts there is the last token as well
    obtain rfl : m = k := by
      have hmlast := (Token.of_comment_of_line hline hm hmkind).1
      rw [hlast] at hmlast
      exact (Option.some.inj hmlast).symm
    obtain ⟨rfl, -⟩ := Text.append_inj_of_width_eq (ht.symm.trans (ht'.trans heq))
      (hposition.symm.trans hmposition)
    exact hprefix

/-- The first percent sign is part of a name, the second one is escaped, and the third one starts a
comment behind a row break. -/
theorem comments_of_line_behind_tag :
    '\n' ∉ "\\begin{a%b}\\%\\\\%c".toList ∧ '\r' ∉ "\\begin{a%b}\\%\\\\%c".toList ∧
      (∃ a b, "\\begin{a%b}\\%\\\\%c".toList = a ++ '%' :: b ∧ StartsComment a b) ∧
      ∃ k ∈ scan "\\begin{a%b}\\%\\\\%c".toList, k.kind = .comment ∧ k.position = 15 ∧
        (scan "\\begin{a%b}\\%\\\\%c".toList).getLast? = some k := by
  have hnewline : '\n' ∉ "\\begin{a%b}\\%\\\\%c".toList := by decide
  have hreturn : '\r' ∉ "\\begin{a%b}\\%\\\\%c".toList := by decide
  have hcomment : ∃ k ∈ scan "\\begin{a%b}\\%\\\\%c".toList,
      k.kind = .comment ∧ k.position = 15 := by decide +kernel
  obtain ⟨k, hk, hkind, hposition⟩ := hcomment
  obtain ⟨hiff, hfirst⟩ := comments_of_line hnewline hreturn
  exact ⟨hnewline, hreturn, hiff.1 ⟨k, hk, hkind⟩, k, hk, hkind, hposition, (hfirst k hk hkind).1⟩

/-- Not every percent sign of a line that is not escaped starts a comment, or comes behind one. -/
theorem not_forall_percent_starts_comment :
    ¬ ∀ t : Text, '\n' ∉ t → '\r' ∉ t →
      ((∃ k ∈ scan t, k.kind = .comment) ↔
        ∃ a b, t = a ++ '%' :: b ∧ Even (backslashesAtEnd a)) ∧
      ∀ k ∈ scan t, k.kind = .comment → (scan t).getLast? = some k ∧
        ∃ a b, t = a ++ '%' :: b ∧ Even (backslashesAtEnd a) ∧ k.position = Text.width a ∧
          ∀ a' b', t = a' ++ '%' :: b' → Even (backslashesAtEnd a') → a <+: a' := by
  intro h
  have hsome : ∃ k ∈ scan "\\begin{a%b}".toList, k.kind = .comment :=
    (h "\\begin{a%b}".toList (by decide) (by decide)).1.2
      ⟨"\\begin\x7ba".toList, "b\x7d".toList, rfl, by decide⟩
  exact absurd hsome (by decide +kernel)

end MathEdit
