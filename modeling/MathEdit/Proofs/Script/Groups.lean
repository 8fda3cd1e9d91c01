import MathEdit.Proofs.Script.Detected
import MathEdit.Proofs.Token.Depth

/-! # Groups around scripts

Putting a script in braces is meant to make a group of it. Whether the two braces are scanned as
such depends on what stands before each of them, whether they have the same depth on the signs
between them, and whether the rest of the line is scanned as before on where the script was cut out.

* **`Token.mem_scan_sign_iff`**: the token of a sign, if the text before is scanned apart from it.
* **`apart_opening_iff`**, **`apart_closing_iff`**: where the braces are scanned as such.
* **`Script.makesGroup_iff_of_parts`**: what makes a group of a script in the middle of a line.
* **`Script.makesGroup_iff`**: the scripts of which a group is made. -/

namespace MathEdit

open Lexeme

/-! ## Tokens of signs -/

/-- A sign is a lexeme of its own in front of any text. -/
theorem lex_sign_cons {c : Char} {kind : Token.Kind} (hsign : sign? c = some kind) (u : Text) :
    lex (c :: u) = ⟨kind, [c]⟩ :: lex u :=
  lex_text_append (Begins.sign hsign)

namespace Token

variable {s t u : Text} {c : Char} {kind : Kind} {k : Token}

/-- A lexeme of a text is a token behind the lexemes before it. -/
theorem exists_mem_scan_of_lex_eq {ls ms : List Lexeme} {l : Lexeme} (h : lex t = ls ++ l :: ms) :
    ∃ k ∈ scan t, k.toLexeme = l ∧ k.position = Text.width (Lexeme.join ls) := by
  rw [scan, h, place_append, place, Nat.zero_add]
  exact ⟨_, List.mem_append_right _ List.mem_cons_self, rfl, rfl⟩

/-- **The token of a sign**: the sign is a token if the text before it is scanned apart from it, and
its depth is that of the text before. -/
theorem mem_scan_sign_iff (hsign : sign? c = some kind) :
    k ∈ scan (s ++ c :: u) ∧ k.position = Text.width s ↔
      Apart s (c :: u) ∧ k = ⟨⟨kind, [c]⟩, Text.width s,
        if kind.isClosing then finalDepth s - 1 else finalDepth s⟩ := by
  have hrest := lex_sign_cons hsign u
  constructor
  · rintro ⟨hk, hposition⟩
    have hapart := apart_of_mem_scan hk hposition
    exact ⟨hapart, eq_of_position_eq hk (mem_scan_of_apart hapart hrest) hposition⟩
  · rintro ⟨hapart, rfl⟩
    exact ⟨mem_scan_of_apart hapart hrest, rfl⟩

end Token

variable {s t u w : Text} {c m : Char} {kind : Token.Kind}

/-- A sign is scanned apart from everything behind it. -/
theorem apart_sign (hsign : sign? c = some kind) (u : Text) : Apart [c] u := by
  have heach : BeginsEach [⟨kind, [c]⟩] u := ⟨.sign hsign, trivial⟩
  exact (lex_join_of_beginsEach heach).2

/-- A sign that is scanned as such is the last lexeme of the text up to there. -/
theorem lex_append_sign (hsign : sign? c = some kind) (h : Apart s (c :: u)) :
    lex (s ++ [c]) = lex s ++ [⟨kind, [c]⟩] := by
  rw [Apart.of_append (u := [c]) h, lex_sign_cons hsign, lex_nil]

/-- And it moves the final depth by itself. -/
theorem finalDepth_sign (hsign : sign? c = some kind) (u : Text) :
    finalDepth (c :: u) = kind.shift + finalDepth u := by
  rw [finalDepth, lex_sign_cons hsign, Lexeme.depth]
  rfl

/-! ## Braces -/

/-- An opening brace is the sign of one. -/
theorem sign?_openBrace : sign? '{' = some (.opening .brace) := rfl

/-- And so is a closing brace. -/
theorem sign?_closeBrace : sign? '}' = some (.closing .brace) := rfl

/-- An opening brace behind a script marker is a token unless it is part of a comment. -/
theorem apart_opening_iff (hm : Script.isMarker m = true) :
    Apart (s ++ [m]) ('{' :: u) ↔ ¬ EndsInComment (s ++ [m]) := by
  have hhead : ∀ d ∈ ('{' :: u).head?, d ≠ '}' := by
    rintro d ⟨⟩
    decide
  have hlast : (s ++ [m]).getLast? ≠ some '\\' := by
    rw [List.getLast?_concat]
    rcases Script.isMarker_iff.1 hm with rfl | rfl <;> decide
  -- a command that takes a name along does not end in a marker
  have hname : ∀ l ∈ (lex (s ++ [m])).getLast?, l.AwaitsName → nameGroup? ('{' :: u) = none := by
    rintro l hl ⟨name, htakes, rfl⟩
    have hend := (getLast?_text_of_getLast?_lex hl).1
    rw [List.getLast?_cons_of_ne_nil htakes.ne_nil, List.getLast?_concat] at hend
    have halpha := htakes.isAlpha m (List.mem_of_getLast? hend)
    rw [(Script.startsLexeme_of_isMarker hm).1.alpha] at halpha
    cases halpha
  rw [apart_iff hhead, begins_getLast?_iff (by decide) hname, backslashesAtEnd_eq_zero hlast]
  constructor
  · exact fun h => h.1.1
  · exact fun h => ⟨⟨h, Even.zero⟩, fun hopen => absurd hopen.2 Bool.false_ne_true⟩

/-- A closing brace behind a text without opening ones is a token unless it is part of a comment or
escaped. -/
theorem apart_closing_iff (hw : '{' ∉ w) :
    Apart w ('}' :: u) ↔ ¬ EndsInComment w ∧ Even (backslashesAtEnd w) := by
  have hnone : nameGroup? ('}' :: u) = none := nameGroup?_cons_eq_none (by decide)
  rw [← begins_getLast?_iff (by decide) fun _ _ _ => hnone]
  constructor
  · intro h l hl
    obtain ⟨a, ha⟩ := List.getLast?_eq_some_iff.1 hl
    rw [apart_iff_beginsEach, ha, beginsEach_append_iff] at h
    exact h.2.1
  · intro h
    -- no lexeme but the last sees the brace, since no name group starts at one of the content
    refine apart_of_begins h fun a l b hsplit _ hne _ => ?_
    obtain ⟨d, rest, hrest⟩ := List.exists_cons_of_ne_nil hne
    rw [hrest, List.cons_append]
    refine nameGroup?_cons_eq_none ?_
    rintro rfl
    refine hw ?_
    rw [← join_lex w, hsplit, join_append, join_cons, hrest]
    simp

/-! ## Cuts -/

/-- A place in the text of some lexemes is a boundary between them, or lies inside of one. -/
theorem exists_append_or_inside {ls : List Lexeme} (h : join ls = s ++ u) :
    (∃ a b, ls = a ++ b ∧ join a = s ∧ join b = u) ∨
      ∃ a l b x y, ls = a ++ l :: b ∧ l.text = x ++ y ∧ x ≠ [] ∧ y ≠ [] ∧
        s = join a ++ x ∧ u = y ++ join b := by
  induction ls generalizing s with
  | nil =>
      obtain ⟨rfl, rfl⟩ := List.append_eq_nil_iff.1 h.symm
      exact .inl ⟨[], [], rfl, rfl, rfl⟩
  | cons l ls ih =>
      rw [join_cons] at h
      -- the cut is behind the first lexeme or inside of it
      rcases List.append_eq_append_iff.1 h with ⟨v, rfl, hrest⟩ | ⟨v, hl, rfl⟩
      · rcases ih hrest with ⟨a, b, rfl, rfl, rfl⟩ | ⟨a, k, b, x, y, rfl, hk, hx, hy, rfl, rfl⟩
        · exact .inl ⟨l :: a, b, rfl, rfl, rfl⟩
        · exact .inr ⟨l :: a, k, b, x, y, rfl, hk, hx, hy, by simp, rfl⟩
      · by_cases hv : v = []
        · exact .inl ⟨[l], ls, rfl, by simpa [hv] using hl, by simp [hv]⟩
        · by_cases hs : s = []
          · exact .inl ⟨[], l :: ls, rfl, by simp [hs], by simp [hl, hs]⟩
          · exact .inr ⟨[], l, ls, s, v, rfl, hl, hs, hv, by simp, rfl⟩

/-- A cut through a run of plain characters leaves the final depth. -/
theorem finalDepth_append_of_plain
    (h : ∀ a l b x y, lex (s ++ u) = a ++ l :: b → l.text = x ++ y → x ≠ [] → y ≠ [] →
      s = join a ++ x → l.kind = .plain) :
    finalDepth (s ++ u) = finalDepth s + finalDepth u := by
  rcases exists_append_or_inside (join_lex (s ++ u)) with ⟨a, b, hsplit, hs, -⟩ |
    ⟨a, l, b, x, y, hsplit, htext, hx, hy, hs, hu⟩
  · exact Apart.finalDepth_append (lex_append_iff.2 ⟨a, b, hsplit, hs⟩)
  · have hkind := h a l b x y hsplit htext hx hy hs
    have heach := beginsEach_lex (s ++ u)
    rw [hsplit, beginsEach_append_iff, List.append_nil, join_cons] at heach
    obtain ⟨hfront, hbegins, hback⟩ := heach
    rw [List.append_nil] at hbegins
    -- a run of plain characters is two runs behind the cut
    rcases hbegins.of_kind_plain hkind with ⟨hplain, hstops⟩ | ⟨hslash, -⟩
    · rw [htext] at hplain hfront
      have hxs : Begins ⟨.plain, x⟩ [] :=
        .plain hx (fun c hc => hplain c (List.mem_append_left y hc)) (by simp [Stops])
      have hys : Begins ⟨.plain, y⟩ (join b) :=
        .plain hy (fun c hc => hplain c (List.mem_append_right x hc)) hstops
      have hlexs : lex s = a ++ [⟨.plain, x⟩] := by
        rw [List.append_assoc] at hfront
        have hxlex := lex_text_append hxs
        rw [List.append_nil, lex_nil] at hxlex
        rw [hs, lex_join_append_iff.2 hfront.of_append, hxlex]
      have hlexu : lex u = ⟨.plain, y⟩ :: b := by
        have hb : lex (join b) = b := by simpa using lex_join_append_iff.2 hback
        have hylex := lex_text_append hys
        rw [hb] at hylex
        rw [hu, hylex]
      rw [finalDepth, finalDepth, finalDepth, hsplit, hlexs, hlexu, Lexeme.depth_append,
        Lexeme.depth_append, Lexeme.depth, Lexeme.depth, Lexeme.depth, Lexeme.depth, hkind]
      simp [Token.Kind.shift]
    · rw [htext] at hslash
      rcases List.append_eq_singleton_iff.1 hslash with ⟨h, -⟩ | ⟨-, h⟩
      · exact absurd h hx
      · exact absurd h hy

/-! ## Scripts in braces -/

namespace Script

/-- The text of a line before the content of a script. -/
def before (s : Script) (line : Text) : Text := Text.takeBytes s.start line

/-- The text of a line behind a script. -/
def after (s : Script) (line : Text) : Text := Text.dropBytes s.stop line

/-- Whether the braces around a script make a group of it: both of them are tokens of the line then,
with the same depth, and the final depth of the line is as before. -/
structure MakesGroup (s : Script) (line : Text) : Prop where
  braces : ∃ o ∈ scan (s.edit.apply line), ∃ c ∈ scan (s.edit.apply line),
    o.position = s.start ∧ o.kind = .opening .brace ∧
      c.position = s.cursor ∧ c.kind = .closing .brace ∧ o.depth = c.depth
  finalDepth_eq : finalDepth (s.edit.apply line) = finalDepth line

/-- Whether a text is scanned so that a closing brace behind it is a token: it does not end in a
comment, nor in a backslash that escapes what follows. -/
structure Admits (w : Text) : Prop where
  comment : ¬ EndsInComment w
  backslash : Even (backslashesAtEnd w)

/-- Whether the scan of a line reads a script as it is found: its marker is a token, and no token
goes on behind it but a run of plain characters. -/
structure ReadAlone (s : Script) (line : Text) : Prop where
  marker : ∃ k ∈ scan line, k.position = s.marker ∧ ∃ m, k.kind = .script m
  stop : ∀ k ∈ scan line, k.position < s.stop → s.stop < k.stop → k.kind = .plain

variable {line : Text} {stop : Nat} {s : Script} {a w u : Text} {m : Char}

/-- A marker is the sign of a script. -/
theorem sign?_of_isMarker (hm : isMarker m = true) : sign? m = some (.script m) := by
  rcases isMarker_iff.1 hm with rfl | rfl <;> rfl

/-- The parts of a line in which a script is found. -/
theorem exists_parts_of_detect? (h : detect? line stop = some s) :
    ∃ a m, line = a ++ [m] ++ s.content ++ s.after line ∧ s.before line = a ++ [m] ∧
      isMarker m = true ∧ s.marker = Text.width a ∧ s.start = Text.width (a ++ [m]) ∧
      s.stop = Text.width (a ++ [m] ++ s.content) ∧
      ∀ c ∈ s.content, isDelimiter c = false := by
  obtain ⟨head, rest, rfl, -, a, m, rfl, hm, -, -, hcontent, hmarker⟩ := detect?_eq_some_iff.1 h
  have hstart : s.start = Text.width (a ++ [m]) := by
    simp [start, hmarker, (startsLexeme_of_isMarker hm).2.2]
  have hstop : s.stop = Text.width (a ++ [m] ++ s.content) := by
    rw [Script.stop, hstart, Text.width_append (a ++ [m])]
  have hline : a ++ m :: s.content ++ rest = a ++ [m] ++ s.content ++ rest := by simp
  rw [hline]
  refine ⟨a, m, ?_, ?_, hm, hmarker, hstart, hstop, hcontent⟩
  · rw [after, hstop, Text.dropBytes_width_append]
  · rw [before, hstart, List.append_assoc (a ++ [m]), Text.takeBytes_width_append]

/-- The inserted braces are tokens of one depth exactly if no comment is open before the script and
the script admits a brace behind it and closes what it opens. -/
theorem braces_iff_of_append (hm : isMarker m = true) (hw : '{' ∉ w) :
    (∃ o ∈ scan (a ++ [m] ++ '{' :: w ++ '}' :: u), ∃ c ∈ scan (a ++ [m] ++ '{' :: w ++ '}' :: u),
      o.position = Text.width (a ++ [m]) ∧ o.kind = .opening .brace ∧
        c.position = Text.width (a ++ [m] ++ '{' :: w) ∧ c.kind = .closing .brace ∧
        o.depth = c.depth) ↔
      ¬ EndsInComment (a ++ [m]) ∧ Admits w ∧ finalDepth w = 0 := by
  -- either brace is a token of its own just if nothing in front takes it
  have hopening (k : Token) : k ∈ scan (a ++ [m] ++ '{' :: w ++ '}' :: u) ∧
      k.position = Text.width (a ++ [m]) ↔ ¬ EndsInComment (a ++ [m]) ∧
        k = ⟨⟨.opening .brace, ['{']⟩, Text.width (a ++ [m]), finalDepth (a ++ [m])⟩ := by
    rw [List.append_assoc (a ++ [m]), List.cons_append,
      Token.mem_scan_sign_iff sign?_openBrace, apart_opening_iff hm]
    rfl
  have hclosing (hcomment : ¬ EndsInComment (a ++ [m])) (k : Token) :
      k ∈ scan (a ++ [m] ++ '{' :: w ++ '}' :: u) ∧
        k.position = Text.width (a ++ [m] ++ '{' :: w) ↔ Admits w ∧
          k = ⟨⟨.closing .brace, ['}']⟩, Text.width (a ++ [m] ++ '{' :: w),
            finalDepth (a ++ [m]) + finalDepth w⟩ := by
    have hfront : Apart (a ++ [m]) ('{' :: w ++ '}' :: u) := (apart_opening_iff hm).2 hcomment
    have hbrace : Apart ['{'] (w ++ '}' :: u) := apart_sign sign?_openBrace _
    have hapart : Apart (a ++ [m] ++ '{' :: w) ('}' :: u) ↔ Admits w := by
      rw [hfront.append_iff]
      refine hbrace.append_iff.trans ((apart_closing_iff hw).trans ?_)
      exact ⟨fun h => ⟨h.1, h.2⟩, fun h => ⟨h.1, h.2⟩⟩
    have hdepth : finalDepth (a ++ [m] ++ '{' :: w) - 1 = finalDepth (a ++ [m]) + finalDepth w := by
      rw [hfront.of_append.finalDepth_append, finalDepth_sign sign?_openBrace,
        Token.Kind.shift]
      omega
    rw [Token.mem_scan_sign_iff sign?_closeBrace, hapart, ← hdepth]
    rfl
  constructor
  -- the depths of the braces differ by that of the content
  · rintro ⟨o, ho, c, hc, hoposition, -, hcposition, -, hdepth⟩
    obtain ⟨hcomment, rfl⟩ := (hopening o).1 ⟨ho, hoposition⟩
    obtain ⟨hadmits, rfl⟩ := (hclosing hcomment c).1 ⟨hc, hcposition⟩
    refine ⟨hcomment, hadmits, ?_⟩
    dsimp only at hdepth
    omega
  · rintro ⟨hcomment, hadmits, hdepth⟩
    obtain ⟨ho, hoposition⟩ := (hopening _).2 ⟨hcomment, rfl⟩
    obtain ⟨hc, hcposition⟩ := (hclosing hcomment _).2 ⟨hadmits, rfl⟩
    refine ⟨_, ho, _, hc, hoposition, rfl, hcposition, rfl, ?_⟩
    rw [hdepth, Int.add_zero]

/-- Where both braces are tokens, the final depth is that of the three parts of the line. -/
theorem finalDepth_of_admits (hm : isMarker m = true) (hw : '{' ∉ w)
    (hcomment : ¬ EndsInComment (a ++ [m])) (hadmits : Admits w) :
    finalDepth (a ++ [m] ++ '{' :: w ++ '}' :: u) =
      finalDepth (a ++ [m]) + finalDepth w + finalDepth u := by
  have hfront : Apart (a ++ [m]) ('{' :: (w ++ '}' :: u)) := (apart_opening_iff hm).2 hcomment
  have hcontent : Apart w ('}' :: u) :=
    (apart_closing_iff hw).2 ⟨hadmits.comment, hadmits.backslash⟩
  have hopening : finalDepth ('{' :: (w ++ '}' :: u)) = 1 + finalDepth (w ++ '}' :: u) :=
    finalDepth_sign sign?_openBrace _
  have hclosing : finalDepth ('}' :: u) = -1 + finalDepth u :=
    finalDepth_sign sign?_closeBrace u
  calc finalDepth (a ++ [m] ++ '{' :: w ++ '}' :: u)
      = finalDepth (a ++ [m] ++ '{' :: (w ++ '}' :: u)) := by simp
    _ = finalDepth (a ++ [m]) + (1 + (finalDepth w + (-1 + finalDepth u))) := by
        rw [hfront.finalDepth_append, hopening, hcontent.finalDepth_append, hclosing]
    _ = finalDepth (a ++ [m]) + finalDepth w + finalDepth u := by omega

/-- The marker of a script that the scan reads alone is scanned apart from what is before it. -/
theorem ReadAlone.apart_marker (h : s.ReadAlone line) (hline : line = a ++ [m] ++ s.content ++ u)
    (hmarker : s.marker = Text.width a) : Apart a (m :: (s.content ++ u)) := by
  obtain ⟨k, hk, hposition, -⟩ := h.marker
  rw [hline, List.append_assoc, List.append_assoc] at hk
  exact Token.apart_of_mem_scan hk (hposition.trans hmarker)

/-- No comment is open before a script that the scan reads alone. -/
theorem ReadAlone.not_endsInComment (h : s.ReadAlone line)
    (hline : line = a ++ [m] ++ s.content ++ u) (hmarker : s.marker = Text.width a)
    (hm : isMarker m = true) : ¬ EndsInComment (a ++ [m]) := by
  -- the last token before the script is its marker
  rintro ⟨l, hl, hkind⟩
  rw [lex_append_sign (sign?_of_isMarker hm) (h.apart_marker hline hmarker),
    List.getLast?_concat] at hl
  obtain rfl := Option.some.inj hl
  cases hkind

/-- A script that the scan reads alone cuts its line without a change of depth. -/
theorem ReadAlone.finalDepth_eq (h : s.ReadAlone line)
    (hline : line = a ++ [m] ++ s.content ++ u) (hmarker : s.marker = Text.width a)
    (hstop : s.stop = Text.width (a ++ [m] ++ s.content)) (hm : isMarker m = true) :
    finalDepth line = finalDepth (a ++ [m]) + finalDepth s.content + finalDepth u := by
  have hfront : Apart (a ++ [m]) (s.content ++ u) :=
    (h.apart_marker hline hmarker).append_iff.2 (apart_sign (sign?_of_isMarker hm) _)
  have hcut : finalDepth (s.content ++ u) = finalDepth s.content + finalDepth u := by
    apply finalDepth_append_of_plain
    intro x l y v v' hsplit htext hv hv' hcontent
    -- the token goes on behind the script, so it is a run of plain characters
    have hlex : lex line = (lex (a ++ [m]) ++ x) ++ l :: y := by
      rw [hline, List.append_assoc, hfront, hsplit, List.append_assoc]
    obtain ⟨k, hk, hkl, hposition⟩ := Token.exists_mem_scan_of_lex_eq hlex
    rw [join_append, join_lex] at hposition
    have hbehind : s.stop = k.position + Text.width v := by
      rw [hstop, hposition, hcontent, ← List.append_assoc, Text.width_append]
    have hlen : k.stop = k.position + Text.width v + Text.width v' := by
      rw [Token.stop, Token.len, hkl, htext, Text.width_append, Nat.add_assoc]
    have hvpos := Text.width_pos hv
    have hvpos' := Text.width_pos hv'
    have hplain := h.stop k hk (by omega) (by omega)
    rwa [hkl] at hplain
  rw [hline, List.append_assoc, hfront.finalDepth_append, hcut, Int.add_assoc]

/-- What makes a group of a script in the middle of a line. -/
theorem makesGroup_iff_of_parts (hbefore : s.before line = a ++ [m])
    (hafter : s.after line = u) (hstart : s.start = Text.width (a ++ [m]))
    (hm : isMarker m = true) (hw : '{' ∉ s.content) :
    s.MakesGroup line ↔ ¬ EndsInComment (a ++ [m]) ∧ Admits s.content ∧
      finalDepth s.content = 0 ∧
      finalDepth line = finalDepth (a ++ [m]) + finalDepth u := by
  have hcursor : s.cursor = Text.width (a ++ [m] ++ '{' :: s.content) := by
    have hbrace : Text.width ('{' :: s.content) = 1 + Text.width s.content := rfl
    rw [cursor, hstart, Text.width_append (a ++ [m]), hbrace, Nat.add_assoc]
  have hedit : s.edit.apply line = a ++ [m] ++ '{' :: s.content ++ '}' :: u := by
    have happly : s.edit.apply line = s.before line ++ s.braced ++ s.after line := rfl
    rw [happly, hbefore, hafter, braced]
    simp
  -- the edited line has the shape of the lemma on the braces
  have hbraces := braces_iff_of_append (a := a) (u := u) hm hw
  rw [← hedit, ← hstart, ← hcursor] at hbraces
  constructor
  · rintro ⟨h, hdepth⟩
    obtain ⟨hcomment, hadmits, hcontent⟩ := hbraces.1 h
    have hsum := finalDepth_of_admits (u := u) hm hw hcomment hadmits
    rw [hcontent, Int.add_zero, ← hedit, hdepth] at hsum
    exact ⟨hcomment, hadmits, hcontent, hsum⟩
  · rintro ⟨hcomment, hadmits, hcontent, hdepth⟩
    have hsum := finalDepth_of_admits (u := u) hm hw hcomment hadmits
    rw [hcontent, Int.add_zero, ← hedit, ← hdepth] at hsum
    exact ⟨hbraces.2 ⟨hcomment, hadmits, hcontent⟩, hsum⟩

/-- **Groups around scripts.** The braces around a script that is found make a group of it exactly
if no comment is open before the script, the script admits a brace behind it and closes what it
opens, and the two cuts around it change no depth. If the scan reads the script alone, only the
script itself matters. -/
theorem makesGroup_iff (h : detect? line stop = some s) :
    (s.MakesGroup line ↔ ¬ EndsInComment (s.before line) ∧ Admits s.content ∧
      finalDepth s.content = 0 ∧
      finalDepth line = finalDepth (s.before line) + finalDepth (s.after line)) ∧
    (s.ReadAlone line →
      (s.MakesGroup line ↔ Admits s.content ∧ finalDepth s.content = 0)) := by
  obtain ⟨a, m, hline, hbefore, hm, hmarker, hstart, hstop, hcontent⟩ := exists_parts_of_detect? h
  have hw : '{' ∉ s.content := fun hmem => absurd (hcontent _ hmem) (by decide)
  have hiff := makesGroup_iff_of_parts hbefore rfl hstart hm hw
  rw [hbefore]
  refine ⟨hiff, fun halone => ?_⟩
  -- alone on its line, the script has no comment in front of it and the depths add up
  have hcomment := halone.not_endsInComment hline hmarker hm
  rw [hiff, halone.finalDepth_eq hline hmarker hstop hm]
  constructor
  · rintro ⟨-, hadmits, hzero, -⟩
    exact ⟨hadmits, hzero⟩
  · rintro ⟨hadmits, hzero⟩
    exact ⟨hcomment, hadmits, hzero, by rw [hzero, Int.add_zero]⟩

/-- A script with a command and brackets in it, typed in the middle of a word. -/
theorem makesGroup_of_command :
    detect? "a_\\vec[i]jk".toList 10 = some ⟨1, "\\vec[i]j".toList⟩ ∧
      MakesGroup ⟨1, "\\vec[i]j".toList⟩ "a_\\vec[i]jk".toList := by
  have h : detect? "a_\\vec[i]jk".toList 10 = some ⟨1, "\\vec[i]j".toList⟩ := by decide +kernel
  have halone : ReadAlone ⟨1, "\\vec[i]j".toList⟩ "a_\\vec[i]jk".toList := by
    refine ⟨⟨⟨⟨.script '_', ['_']⟩, 1, 0⟩, ?_, rfl, '_', rfl⟩, ?_⟩ <;> decide +kernel
  have hadmits : Admits "\\vec[i]j".toList := by
    refine ⟨?_, by decide +kernel⟩
    rw [EndsInComment]
    decide +kernel
  have hdepth : finalDepth "\\vec[i]j".toList = 0 := by decide +kernel
  exact ⟨h, ((makesGroup_iff h).2 halone).2 ⟨hadmits, hdepth⟩⟩

/-- Not every script that is found makes a group: it may leave a parenthesis open. -/
theorem not_forall_makesGroup :
    ¬ ∀ (line : Text) (stop : Nat) (s : Script), detect? line stop = some s →
      s.MakesGroup line := by
  intro h
  have hfound : detect? "x^f(".toList 4 = some ⟨1, "f(".toList⟩ := by decide +kernel
  obtain ⟨o, ho, c, hc, hbraces⟩ := (h _ _ _ hfound).braces
  have hsome : ∃ o ∈ scan "x^\x7bf(\x7d".toList, ∃ c ∈ scan "x^\x7bf(\x7d".toList,
      o.position = 2 ∧ o.kind = .opening .brace ∧ c.position = 5 ∧ c.kind = .closing .brace ∧
        o.depth = c.depth := ⟨o, ho, c, hc, hbraces⟩
  exact absurd hsome (by decide +kernel)

end Script

end MathEdit
