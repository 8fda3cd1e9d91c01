import MathEdit.Proofs.Region.Tokens
import MathEdit.Proofs.Token.Partition

/-! # The stops of a region among its tokens

Most of the stops that a token makes are ends of tokens. A script is passed as a whole whatever
token its character belongs to, so the stop behind it can lie inside a run of plain characters, and
behind a `%` it lies inside the comment that begins there. No other stop of a region lies inside a
command, an escaped character, a tag, a delimiter that grows, a run of blanks or a comment.

* **`Token.Rests`**: the places where the stops of tokens lie; `rests_of_mem_allStops` says that
  there are no others.
* **`Region.mem_stops_inside_iff`**: which stops of a region lie inside one of its tokens. -/

namespace MathEdit

/-- Whether the cursor should not come to rest inside of a token of a kind: the characters of the
token mean something together only, or nothing at all. -/
def Token.Kind.isAtomic : Token.Kind → Bool
  | command _ | escaped _ | blank | comment => true
  | opening (.environment _) | closing (.environment _) => true
  | opening .delimiter | closing .delimiter => true
  | _ => false

/-! ## What a lexeme has in front -/

namespace Lexeme

variable {l : Lexeme} {u : Text}

/-- A lexeme is a run of blanks, or it does not begin with a blank. -/
theorem Begins.blank_or_front (h : Begins l u) :
    l.kind = .blank ∨ ∀ c ∈ l.text.head?, Text.isBlank c = false := by
  cases h with
  | sign h => exact .inr (by rintro _ ⟨⟩; exact isBlank_of_sign? h)
  | blank => exact .inl rfl
  | plain _ hs =>
      refine .inr fun c hc => ?_
      have hplain := hs c (List.mem_of_head? hc)
      simp only [isSpecial, Bool.or_eq_false_iff] at hplain
      exact hplain.2
  | openingTag =>
      rw [Environment.openingTag_eq]
      exact .inr (by rintro _ ⟨⟩; decide)
  | closingTag =>
      rw [Environment.closingTag_eq]
      exact .inr (by rintro _ ⟨⟩; decide)
  | _ => exact .inr (by rintro _ ⟨⟩; decide)

/-- The blanks in front of a lexeme are all of it or none. -/
theorem Begins.takeWhile_isBlank (h : Begins l u) :
    l.text.takeWhile Text.isBlank = [] ∨ l.text.takeWhile Text.isBlank = l.text := by
  rcases h.blank_or_front with hkind | hfront
  · exact .inr (List.takeWhile_eq_self_iff.2 (h.of_kind_blank hkind).1)
  · exact .inl (Text.takeWhile_eq_nil hfront)

/-- The blanks in front of a lexeme do not go on behind it. -/
theorem Begins.takeWhile_isBlank_append (h : Begins l u) :
    (l.text ++ u).takeWhile Text.isBlank = l.text.takeWhile Text.isBlank := by
  rcases h.blank_or_front with hkind | hfront
  · obtain ⟨hall, hstops⟩ := h.of_kind_blank hkind
    rw [Text.takeWhile_append_of_all hall hstops, List.takeWhile_eq_self_iff.2 hall]
  · have hboth : ∀ c ∈ (l.text ++ u).head?, Text.isBlank c = false := by
      rwa [List.head?_append_of_ne_nil _ h.text_ne_nil]
    rw [Text.takeWhile_eq_nil hboth, Text.takeWhile_eq_nil hfront]

/-- A lexeme that begins with neither a blank nor a backslash is that character alone, a comment, or
a run of plain characters. -/
theorem Begins.of_text_eq_cons (h : Begins l u) {c : Char} {s : Text} (ht : l.text = c :: s)
    (hblank : Text.isBlank c = false) (hc : c ≠ '\\') :
    s = [] ∨ l.kind = .plain ∨ l.kind = .comment ∧ c = '%' := by
  cases h with
  | sign => exact .inl (List.cons.inj ht).2.symm
  | comment => exact .inr (.inr ⟨rfl, (List.cons.inj ht).1.symm⟩)
  | blank _ hs =>
      obtain rfl : _ = c :: s := ht
      simp [hs c List.mem_cons_self] at hblank
  | plain => exact .inr (.inl rfl)
  | openingTag =>
      rw [Environment.openingTag_eq] at ht
      exact absurd (List.cons.inj ht).1.symm hc
  | closingTag =>
      rw [Environment.closingTag_eq] at ht
      exact absurd (List.cons.inj ht).1.symm hc
  | _ => exact absurd (List.cons.inj ht).1.symm hc

end Lexeme

/-! ## The stops of tokens -/

namespace Token

open Lexeme

variable {t next : Text} {k s : Token} {ts before after : List Token} {p : Nat}

/-- The source text of the first of a run of tokens. -/
def frontText : List Token → Text
  | [] => []
  | next :: _ => next.text

/-- The first token adds its stops to those of the others. -/
theorem allStops_cons (k : Token) (ts : List Token) :
    allStops (k :: ts) = k.stops (frontText ts) ++ allStops ts := by
  cases ts <;> rfl

/-- Each stop of a run of tokens is one of a token before the text of the next. -/
theorem mem_allStops_iff :
    p ∈ allStops ts ↔
      ∃ before k after, ts = before ++ k :: after ∧ p ∈ k.stops (frontText after) := by
  constructor
  · intro h
    induction ts with
    | nil => simp [allStops] at h
    | cons k ts ih =>
        rw [allStops_cons, List.mem_append] at h
        rcases h with h | h
        · exact ⟨[], k, ts, rfl, h⟩
        · obtain ⟨before, m, after, rfl, hm⟩ := ih h
          exact ⟨k :: before, m, after, rfl, hm⟩
  · rintro ⟨before, k, after, rfl, h⟩
    induction before with
    | nil =>
        rw [List.nil_append, allStops_cons]
        exact List.mem_append_left _ h
    | cons m before ih =>
        rw [List.cons_append, allStops_cons]
        exact List.mem_append_right _ ih

/-- The stops of a token are its two ends, the end of the blanks behind it, and the end of the one
character behind it that is its script. -/
theorem cases_of_mem_stops (h : p ∈ k.stops next) :
    p = k.position ∨ p = k.stop ∨ p = k.stop + Text.width (next.takeWhile Text.isBlank) ∨
      ∃ marker c rest, k.kind = .script marker ∧ next = c :: rest ∧ Text.isBlank c = false ∧
        c ≠ '\\' ∧ p = k.stop + c.utf8Size := by
  have operator (h : p ∈ k.operatorStops next) :
      p = k.position ∨ p = k.stop + Text.width (next.takeWhile Text.isBlank) := by
    simpa [operatorStops] using h
  have script (h : p ∈ k.scriptStops next) : p = k.stop ∨
      ∃ c rest, next = c :: rest ∧ Text.isBlank c = false ∧ c ≠ '\\' ∧
        p = k.stop + c.utf8Size := by
    cases next with
    | nil => exact .inl (by simpa [scriptStops] using h)
    | cons c rest =>
        simp only [scriptStops] at h
        split at h
        · simp at h
        · split at h
          · exact .inl (by simpa using h)
          · next hc =>
              simp only [Bool.or_eq_true, decide_eq_true_eq, not_or, Bool.not_eq_true] at hc
              rcases List.mem_cons.1 h with h | h
              · exact .inl h
              · exact .inr ⟨c, rest, rfl, hc.1, hc.2, by simpa using h⟩
  -- by the kind of the token
  rw [stops] at h
  cases hkind : k.kind with
  | opening group => cases group <;> simp [hkind] at h <;> exact .inr (.inl h)
  | script marker =>
      rw [hkind] at h
      obtain h | ⟨c, rest, h⟩ := script h
      · exact .inr (.inl h)
      · exact .inr (.inr (.inr ⟨marker, c, rest, rfl, h⟩))
  | operator sign =>
      rw [hkind] at h
      exact (operator h).imp_right fun h => .inr (.inl h)
  | escaped c =>
      rw [hkind] at h
      dsimp only at h
      split at h
      · exact (operator h).imp_right fun h => .inr (.inl h)
      · split at h
        · exact .inr (.inl (by simpa using h))
        · simp at h
  | command name =>
      rw [hkind] at h
      dsimp only at h
      split at h
      · simp at h
      · exact .inl (by simpa using h)
  | _ => simp [hkind] at h

/-- The places in a run of tokens where the cursor comes to rest. -/
inductive Rests (ts : List Token) : Nat → Prop where
  | front {k : Token} (h : k ∈ ts) : Rests ts k.position
  | back {k : Token} (h : k ∈ ts) : Rests ts k.stop
  /-- Inside a run of plain characters. -/
  | plain {k : Token} {p : Nat} (h : k ∈ ts) (hkind : k.kind = .plain) (hstart : k.position < p)
      (hstop : p < k.stop) : Rests ts p
  /-- Behind the `%` of a comment that is taken for a script. -/
  | comment {before after : List Token} {s k : Token} {marker : Char}
      (h : ts = before ++ s :: k :: after) (hs : s.kind = .script marker)
      (hk : k.kind = .comment) : Rests ts (k.position + 1)

/-- The blanks behind a token are the next token, or there are none. -/
theorem rests_behind_blanks (h : scan t = before ++ k :: after) :
    Rests (scan t) (k.stop + Text.width ((frontText after).takeWhile Text.isBlank)) := by
  cases after with
  | nil => exact .back (by simp [h])
  | cons m after =>
      obtain ⟨hstop, -, hbegins⟩ := beside_of_scan_eq h
      rcases hbegins.takeWhile_isBlank with hnil | hall
      · rw [frontText, hnil]
        exact .back (by simp [h])
      · rw [frontText, hall, hstop]
        exact .back (by simp [h])

/-- The one character of a script is a token, the front of a plain run, or the `%` of a comment. -/
theorem rests_behind_script {marker c : Char} {rest : Text} (h : scan t = before ++ k :: after)
    (hkind : k.kind = .script marker) (hnext : frontText after = c :: rest)
    (hblank : Text.isBlank c = false) (hc : c ≠ '\\') :
    Rests (scan t) (k.stop + c.utf8Size) := by
  cases after with
  | nil => cases hnext
  | cons m after =>
      obtain ⟨hstop, -, hbegins⟩ := beside_of_scan_eq h
      have hm : m ∈ scan t := by simp [h]
      have hwidth : m.stop = k.stop + c.utf8Size + Text.width rest := by
        rw [stop, len, show m.text = c :: rest from hnext, Text.width, Text.measure_cons, hstop,
          Nat.add_assoc]
      -- the character is the token, the first of plain text or the sign of a comment
      obtain rfl | hplain | ⟨hcomment, rfl⟩ := hbegins.of_text_eq_cons hnext hblank hc
      · exact hwidth ▸ .back hm
      · by_cases hrest : rest = []
        · subst hrest
          exact hwidth ▸ .back hm
        · have hpos := Text.width_pos hrest
          have hsize := c.utf8Size_pos
          exact .plain hm hplain (by omega) (by omega)
      · rw [hstop]
        exact .comment h hkind hcomment

/-- The tokens of a text have their stops at these places only. -/
theorem rests_of_mem_allStops (h : p ∈ allStops (scan t)) : Rests (scan t) p := by
  obtain ⟨before, k, after, hsplit, h⟩ := mem_allStops_iff.1 h
  have hk : k ∈ scan t := by simp [hsplit]
  obtain rfl | rfl | rfl | ⟨marker, c, rest, hkind, hnext, hblank, hc, rfl⟩ :=
    cases_of_mem_stops h
  · exact .front hk
  · exact .back hk
  · exact rests_behind_blanks hsplit
  · exact rests_behind_script hsplit hkind hnext hblank hc

/-- A script takes the `%` of a comment behind it for its character. -/
theorem mem_allStops_of_script {marker : Char} (h : scan t = before ++ s :: k :: after)
    (hs : s.kind = .script marker) (hk : k.kind = .comment) :
    k.position + 1 ∈ allStops (scan t) := by
  obtain ⟨hstop, -, hbegins⟩ := beside_of_scan_eq h
  obtain ⟨⟨body, hbody, -⟩, -⟩ := hbegins.of_comment hk
  refine mem_allStops_iff.2 ⟨before, s, k :: after, h, ?_⟩
  have hscript : s.stops k.text = s.scriptStops ('%' :: body) := by
    rw [stops, hs, congrArg Lexeme.text hbody]
  rw [frontText, hscript, ← hstop]
  simp [scriptStops, show Text.isBlank '%' = false from rfl, show Char.utf8Size '%' = 1 from rfl]

/-- No end of a token lies inside another one, and inside a comment only the place behind its `%` is
one where the cursor comes to rest. -/
theorem of_rests_inside (h : Rests (scan t) p) (hk : k ∈ scan t) (hatomic : k.kind.isAtomic = true)
    (hstart : k.position < p) (hstop : p < k.stop) :
    k.kind = .comment ∧ p = k.position + 1 ∧ ∃ before s after marker,
      scan t = before ++ s :: k :: after ∧ s.kind = .script marker := by
  cases h with
  | @front m hm =>
      exfalso
      have hlt := position_lt_stop_of_mem hm
      rcases eq_or_stop_le_of_mem hk hm with rfl | hapart | hapart <;> omega
  | @back m hm =>
      exfalso
      have hlt := position_lt_stop_of_mem hm
      rcases eq_or_stop_le_of_mem hk hm with rfl | hapart | hapart <;> omega
  | @plain m _ hm hplain hmstart hmstop =>
      rcases eq_or_stop_le_of_mem hk hm with heq | hapart | hapart
      · -- plain characters are no atomic token
        rw [heq, hplain] at hatomic
        cases hatomic
      · omega
      · omega
  | @comment before after s m marker hsplit hs hcomment =>
      have hm : m ∈ scan t := by simp [hsplit]
      have hlt := position_lt_stop_of_mem hm
      rcases eq_or_stop_le_of_mem hk hm with rfl | hapart | hapart
      · exact ⟨hcomment, rfl, before, s, after, marker, hsplit, hs⟩
      · omega
      · omega

end Token

namespace Region

/-- The stops of a region are its ends, those of its content and those of its tokens. -/
theorem SelfDelimited.mem_stops_iff {region : Region} (h : region.SelfDelimited) {p : Nat} :
    p ∈ stops region.text ↔
      p = 0 ∨ p = Text.width region.text ∨ p = Text.width region.delimiters.opening ∨
        p = Text.width (region.delimiters.opening ++ region.content) ∨
        p ∈ Token.allStops (scan region.text) := by
  rw [MathEdit.mem_stops_iff, h.delimiterStops_eq, width_text_sub_closing, List.mem_cons,
    List.mem_singleton, or_assoc]

/-- **Stops inside of tokens.** A stop of a region that is located lies inside a command, an escaped
character, a tag, a delimiter that grows, a run of blanks or a comment exactly if that is a comment
right behind a script marker and the stop comes behind its `%`. -/
theorem mem_stops_inside_iff {r : Recognition} {t : Text} {offset : Nat} {region : Region}
    (h : locate? r t offset = some region) {k : Token} (hk : k ∈ scan region.text)
    (hatomic : k.kind.isAtomic = true) (p : Nat) :
    p ∈ stops region.text ∧ k.position < p ∧ p < k.stop ↔
      k.kind = .comment ∧ p = k.position + 1 ∧ 1 < k.len ∧ ∃ before s after marker,
        scan region.text = before ++ s :: k :: after ∧ s.kind = .script marker := by
  have hself := selfDelimited_of_locate? h
  rw [hself.mem_stops_iff]
  constructor
  · rintro ⟨hp, hstart, hstop⟩
    obtain ⟨hopening, hclosing⟩ := hself.token_beside k hk
    have hend : k.stop ≤ Text.width region.text := by
      simpa using Token.stop_le_of_mem_place hk
    -- the ends of the text and of the content are beside tokens, so the stop is one of a token
    obtain rfl | rfl | rfl | rfl | hp := hp
    · omega
    · omega
    · omega
    · omega
    · obtain ⟨hkind, rfl, hbehind⟩ :=
        Token.of_rests_inside (Token.rests_of_mem_allStops hp) hk hatomic hstart hstop
      exact ⟨hkind, rfl, by rw [Token.stop] at hstop; omega, hbehind⟩
  · rintro ⟨hkind, rfl, hlen, before, s, after, marker, hsplit, hs⟩
    refine ⟨?_, by omega, by rw [Token.stop]; omega⟩
    exact .inr (.inr (.inr (.inr (Token.mem_allStops_of_script hsplit hs hkind))))

/-- A comment behind a script marker has one stop inside it. -/
theorem mem_stops_inside_comment :
    locate? ⟨[], false, 0⟩ "$x^%a\n2$".toList 1 = some ⟨0, .inlineDollar, "x^%a\n2".toList⟩ ∧
      ∃ k ∈ scan "$x^%a\n2$".toList, k.kind = .comment ∧ k.kind.isAtomic = true ∧
        ∀ p, p ∈ stops "$x^%a\n2$".toList ∧ k.position < p ∧ p < k.stop ↔ p = 4 := by
  have h : locate? ⟨[], false, 0⟩ "$x^%a\n2$".toList 1 =
      some ⟨0, .inlineDollar, "x^%a\n2".toList⟩ := by decide +kernel
  have hscan : scan "$x^%a\n2$".toList =
      [⟨⟨.dollar, ['$']⟩, 0, 0⟩, ⟨⟨.plain, ['x']⟩, 1, 0⟩] ++
        ⟨⟨.script '^', ['^']⟩, 2, 0⟩ :: ⟨⟨.comment, "%a".toList⟩, 3, 0⟩ ::
        [⟨⟨.blank, ['\n']⟩, 5, 0⟩, ⟨⟨.plain, ['2']⟩, 6, 0⟩, ⟨⟨.dollar, ['$']⟩, 7, 0⟩] := by
    decide +kernel
  have hk : (⟨⟨.comment, "%a".toList⟩, 3, 0⟩ : Token) ∈ scan "$x^%a\n2$".toList := by
    rw [hscan]
    simp
  refine ⟨h, _, hk, rfl, rfl, fun p => ?_⟩
  refine (mem_stops_inside_iff h hk rfl p).trans ⟨fun hp => hp.2.1, ?_⟩
  rintro rfl
  exact ⟨rfl, rfl, by decide, _, _, _, _, hscan, rfl⟩

/-- Not every stop of a region lies outside of its comments, or at their ends. -/
theorem not_forall_stops_outside_comments :
    ¬ ∀ (r : Recognition) (t : Text) (offset : Nat) (region : Region),
      locate? r t offset = some region → ∀ k ∈ scan region.text, k.kind.isAtomic = true →
        ∀ p ∈ stops region.text, ¬ (k.position < p ∧ p < k.stop) := by
  intro h
  refine h ⟨[], false, 0⟩ "$x^%a\n2$".toList 1 ⟨0, .inlineDollar, "x^%a\n2".toList⟩
    (by decide +kernel) ⟨⟨.comment, "%a".toList⟩, 3, 0⟩ ?_ rfl 4 ?_ (by decide)
  · decide +kernel
  · decide +kernel

end Region

end MathEdit
