import Mathlib.Data.List.Chain
import MathEdit.Proofs.Token.Blanks
import MathEdit.Proofs.Token.Cuts

/-! # Tokens as maximal pieces

The tokens of a text cut it into pieces, one after the other and none of them empty. A run of blanks
or of plain characters goes on as far as its class does, and a comment up to the end of its line,
so that two runs of one kind never stand side by side. Only the backslash that ends a text is a
plain token that is no run.

* **`Lexeme.Begins.of_kind_plain`**: with `of_kind_blank` and `of_comment`, where the runs end.
* **`Token.of_scan_eq`**: a token of a scan among the others, its place and what it begins.
* **`Token.eq_or_stop_le_of_mem`**: two tokens of a scan do not overlap.
* **`Token.apart_of_mem_scan`**, **`Token.mem_scan_of_apart`**: tokens start where a text is scanned
  apart.
* **`partition_scan`**: the scan of every text is a `Token.Partition`. -/

namespace MathEdit

/-! ## Where runs end -/

namespace Lexeme

variable {l m : Lexeme} {u v : Text}

/-- A backslash and letters are no plain text. -/
theorem wordKind_ne_plain (name : Text) : wordKind name ≠ .plain := by
  unfold wordKind
  split
  · simp
  · split <;> simp

/-- A plain lexeme is a run that is as long as it can be, or the backslash that ends the text. -/
theorem Begins.of_kind_plain (h : Begins l u) (hkind : l.kind = .plain) :
    ((∀ c ∈ l.text, isSpecial c = false) ∧ Stops (!isSpecial ·) u) ∨
      (l.text = ['\\'] ∧ u = []) := by
  cases h with
  | sign h =>
      obtain rfl : _ = Token.Kind.plain := hkind
      cases isSign_of_sign? h
  | plain _ hs hu => exact .inl ⟨hs, hu⟩
  | backslash => exact .inr ⟨rfl, rfl⟩
  | @word name => exact absurd hkind (wordKind_ne_plain name)
  | _ => simp at hkind

/-- No two runs of blanks stand side by side. -/
theorem Begins.not_blank_beside (hl : Begins l (m.text ++ v)) (hm : Begins m v)
    (hkind : l.kind = .blank) : m.kind ≠ .blank := by
  intro hblank
  obtain ⟨c, s, hs⟩ := List.exists_cons_of_ne_nil hm.text_ne_nil
  have hstops : Text.isBlank c = false := (hl.of_kind_blank hkind).2 c (by rw [hs]; rfl)
  have hc : Text.isBlank c = true := (hm.of_kind_blank hblank).1 c (by simp [hs])
  simp [hc] at hstops

/-- Behind a plain lexeme only the backslash that ends the text is plain. -/
theorem Begins.plain_beside (hl : Begins l (m.text ++ v)) (hm : Begins m v)
    (hkind : l.kind = .plain) (hplain : m.kind = .plain) : m.text = ['\\'] ∧ v = [] := by
  obtain ⟨-, hstops⟩ | ⟨-, hnil⟩ := hl.of_kind_plain hkind
  · obtain ⟨hall, -⟩ | hlast := hm.of_kind_plain hplain
    · -- two runs would be one
      obtain ⟨c, s, hs⟩ := List.exists_cons_of_ne_nil hm.text_ne_nil
      have hspecial : (!isSpecial c) = false := hstops c (by rw [hs]; rfl)
      simp [hall c (by simp [hs])] at hspecial
    · exact hlast
  · exact absurd (List.append_eq_nil_iff.1 hnil).1 hm.text_ne_nil

end Lexeme

/-! ## Tokens in a scan -/

namespace Token

open Lexeme

variable {t : Text} {before after : List Token} {k a b : Token}

/-- The text of tokens is that of their lexemes. -/
theorem join_eq (ts : List Token) : join ts = Lexeme.join (ts.map toLexeme) := by
  simp [join, Lexeme.join, List.flatMap_map]

/-- The lexemes around a token are those of the tokens around it. -/
theorem lex_eq_of_scan_eq (h : scan t = before ++ k :: after) :
    lex t = before.map toLexeme ++ k.toLexeme :: after.map toLexeme := by
  rw [← map_toLexeme_place 0 0 (lex t), ← scan, h, List.map_append, List.map_cons]

/-- A token of a scan comes behind the text of the tokens before it, and begins that of the tokens
after it. -/
theorem of_scan_eq (h : scan t = before ++ k :: after) :
    t = join before ++ k.text ++ join after ∧ k.position = Text.width (join before) ∧
      Begins k.toLexeme (join after) := by
  have hlex := lex_eq_of_scan_eq h
  refine ⟨?_, ?_, ?_⟩
  · rw [← join_lex t, hlex, Lexeme.join_append, Lexeme.join_cons, join_eq, join_eq,
      List.append_assoc]
  · -- the lexemes before the token are placed first, and there are as many of them as tokens
    have hlength : before.length = (place 0 0 (before.map toLexeme)).length := by
      have hmap := congrArg List.length (map_toLexeme_place 0 0 (before.map toLexeme))
      rw [List.length_map, List.length_map] at hmap
      exact hmap.symm
    rw [scan, hlex, place_append, place] at h
    obtain ⟨-, hrest⟩ := List.append_inj h.symm hlength
    rw [(List.cons.inj hrest).1, join_eq, Nat.zero_add]
  · have heach := beginsEach_lex t
    rw [hlex, beginsEach_append_iff, List.append_nil] at heach
    rw [join_eq]
    simpa using heach.2.1

/-- A token stops behind the text up to it. -/
theorem stop_of_scan_eq (h : scan t = before ++ k :: after) :
    k.stop = Text.width (join before ++ k.text) := by
  rw [stop, len, (of_scan_eq h).2.1, ← Text.width_append]

/-- Of two tokens side by side the second starts where the first ends, and the first begins the text
of the second. -/
theorem beside_of_scan_eq (h : scan t = before ++ a :: b :: after) :
    a.stop = b.position ∧ Begins a.toLexeme (b.text ++ join after) ∧
      Begins b.toLexeme (join after) := by
  obtain ⟨-, -, hleft⟩ := of_scan_eq h
  have hstop := stop_of_scan_eq h
  rw [List.append_cons] at h
  obtain ⟨-, hb, hright⟩ := of_scan_eq h
  refine ⟨?_, hleft, hright⟩
  rw [hstop, hb]
  simp [join]

/-- A token of a scan stands in the text and begins what is behind it. -/
theorem of_mem_scan (h : k ∈ scan t) :
    ∃ front back, t = front ++ k.text ++ back ∧ k.position = Text.width front ∧
      k.stop = Text.width (front ++ k.text) ∧ Begins k.toLexeme back := by
  obtain ⟨before, after, hsplit⟩ := List.append_of_mem h
  obtain ⟨ht, hposition, hbegins⟩ := of_scan_eq hsplit
  exact ⟨_, _, ht, hposition, stop_of_scan_eq hsplit, hbegins⟩

/-- And behind its own start. -/
theorem position_lt_stop_of_mem (h : k ∈ scan t) : k.position < k.stop := by
  obtain ⟨_, _, -, -, -, hbegins⟩ := of_mem_scan h
  exact Nat.lt_add_of_pos_right (Text.width_pos hbegins.text_ne_nil)

/-- The tokens of a run come one after the other. -/
theorem pairwise_place (position : Nat) (depth : Int) (ls : List Lexeme) :
    (place position depth ls).Pairwise (·.stop ≤ ·.position) := by
  induction ls generalizing position depth with
  | nil => exact .nil
  | cons l ls ih =>
      refine List.pairwise_cons.2 ⟨fun m hm => ?_, ih _ _⟩
      obtain ⟨_, _, -, hposition⟩ := exists_append_of_mem_place hm
      exact hposition ▸ Nat.le_add_right _ _

/-- Two tokens of a scan are the same, or one ends before the other starts. -/
theorem eq_or_stop_le_of_mem (ha : a ∈ scan t) (hb : b ∈ scan t) :
    a = b ∨ a.stop ≤ b.position ∨ b.stop ≤ a.position := by
  have hsymm : Std.Symm fun a b : Token => a.stop ≤ b.position ∨ b.stop ≤ a.position :=
    ⟨fun _ _ => Or.symm⟩
  have hpair : (scan t).Pairwise fun a b => a.stop ≤ b.position ∨ b.stop ≤ a.position :=
    (pairwise_place 0 0 (lex t)).imp Or.inl
  by_cases h : a = b
  · exact .inl h
  · exact .inr (hpair.forall ha hb h)

/-- There is one token at each place. -/
theorem eq_of_position_eq (ha : a ∈ scan t) (hb : b ∈ scan t) (h : a.position = b.position) :
    a = b := by
  have hastop := position_lt_stop_of_mem ha
  have hbstop := position_lt_stop_of_mem hb
  rcases eq_or_stop_le_of_mem ha hb with heq | hle | hle
  · exact heq
  · omega
  · omega

/-! ## Tokens behind a boundary -/

variable {s u : Text} {l : Lexeme} {ls : List Lexeme}

/-- Where a token starts the text is scanned apart. -/
theorem apart_of_mem_scan (hk : k ∈ scan (s ++ u)) (hposition : k.position = Text.width s) :
    Apart s u := by
  obtain ⟨before, after, hsplit⟩ := List.append_of_mem hk
  obtain ⟨htext, hbefore, -⟩ := of_scan_eq hsplit
  rw [List.append_assoc] at htext
  obtain ⟨hs, -⟩ := Text.append_inj_of_width_eq htext (hposition.symm.trans hbefore)
  exact lex_append_iff.2 ⟨_, _, lex_eq_of_scan_eq hsplit, by rw [hs, join_eq]⟩

/-- The first lexeme behind a boundary is a token there. -/
theorem mem_scan_of_apart (h : Apart s u) (hu : lex u = l :: ls) :
    ⟨l, Text.width s, if l.kind.isClosing then finalDepth s - 1 else finalDepth s⟩ ∈
      scan (s ++ u) := by
  rw [scan, h, hu, place_append, join_lex, Nat.zero_add, Int.zero_add]
  exact List.mem_append_right _ List.mem_cons_self

/-! ## The tokens of a text -/

/-- Tokens that cut a text into pieces that are as long as they can be. -/
structure Partition (t : Text) (ts : List Token) : Prop where
  join_eq : join ts = t
  text_ne_nil : ∀ k ∈ ts, k.text ≠ []
  /-- A token is what the text holds between its two offsets, which are boundaries. -/
  slice : ∀ k ∈ ts, Text.slice? k.position k.stop t = some k.text
  starts : ∀ k ∈ ts.head?, k.position = 0
  contiguous : ts.IsChain fun a b => a.stop = b.position
  ends : ∀ k ∈ ts.getLast?, k.stop = Text.width t
  blank : ts.IsChain fun a b => ¬ (a.kind = .blank ∧ b.kind = .blank)
  /-- Only the backslash that ends the text is plain behind a plain token. -/
  plain : ts.IsChain fun a b =>
    a.kind = .plain → b.kind = .plain → b.text = ['\\'] ∧ b.stop = Text.width t
  /-- A comment goes up to the end of its line. -/
  comment : ∀ k ∈ ts, k.kind = .comment → (∀ c ∈ k.text, c ≠ '\n' ∧ c ≠ '\r') ∧
    ∀ c ∈ (Text.dropBytes k.stop t).head?, c = '\n' ∨ c = '\r'

end Token

open Token

/-- A comment goes on up to a line end. -/
theorem inComment_iff {c : Char} : inComment c = true ↔ c ≠ '\n' ∧ c ≠ '\r' := by
  simp [inComment]

/-- **Maximal pieces.** The tokens of every text cut it into pieces that are as long as they can
be. -/
theorem partition_scan (t : Text) : Token.Partition t (scan t) where
  join_eq := join_scan t
  text_ne_nil k hk := by
    obtain ⟨_, _, -, -, -, hbegins⟩ := of_mem_scan hk
    exact hbegins.text_ne_nil
  slice k hk := by
    obtain ⟨front, back, ht, hposition, hstop, -⟩ := of_mem_scan hk
    rw [hposition, hstop, Text.width_append, ht]
    exact Text.slice?_width_append _ _ _
  starts k hk := by
    obtain ⟨after, hsplit⟩ := List.head?_eq_some_iff.1 hk
    have hfront : scan t = [] ++ k :: after := hsplit
    exact (of_scan_eq hfront).2.1
  contiguous := by
    rw [List.isChain_iff_forall_rel_of_append_cons_cons]
    intro a b before after hsplit
    exact (beside_of_scan_eq hsplit).1
  ends k hk := by
    obtain ⟨before, hsplit⟩ := List.getLast?_eq_some_iff.1 hk
    have ht := (of_scan_eq hsplit).1
    rw [stop_of_scan_eq hsplit, ht]
    simp [Token.join]
  blank := by
    rw [List.isChain_iff_forall_rel_of_append_cons_cons]
    rintro a b before after hsplit ⟨ha, hb⟩
    obtain ⟨-, hleft, hright⟩ := beside_of_scan_eq hsplit
    exact hleft.not_blank_beside hright ha hb
  plain := by
    rw [List.isChain_iff_forall_rel_of_append_cons_cons]
    intro a b before after hsplit ha hb
    obtain ⟨-, hleft, hright⟩ := beside_of_scan_eq hsplit
    obtain ⟨htext, hnil⟩ := hleft.plain_beside hright ha hb
    -- nothing stands behind the second token
    rw [List.append_cons] at hsplit
    have ht := (of_scan_eq hsplit).1
    rw [hnil, List.append_nil] at ht
    refine ⟨htext, ?_⟩
    rw [stop_of_scan_eq hsplit, ← ht]
  comment k hk hkind := by
    obtain ⟨front, back, ht, -, hstop, hbegins⟩ := of_mem_scan hk
    obtain ⟨⟨body, hbody, hall⟩, hstops⟩ := hbegins.of_comment hkind
    have hrest : Text.dropBytes k.stop t = back := by
      rw [hstop, ht, Text.dropBytes_width_append]
    constructor
    · rw [hbody]
      exact List.forall_mem_cons.2 ⟨by decide, fun c hc => inComment_iff.1 (hall c hc)⟩
    · intro c hc
      rw [hrest] at hc
      simpa [inComment, imp_iff_not_or] using hstops c hc

end MathEdit
