import MathEdit.Proofs.Region.Delimited
import MathEdit.Proofs.Token.Cuts
import MathEdit.Proofs.Token.Live
import MathEdit.Stops

/-! # The tokens of a region

The text of a region that is located shows by itself where the delimiters end and the content
begins: the scan has a boundary at either end of the content, and both ends are stops.

* **`SelfDelimited`**: what the text of a region needs for that; `selfDelimited_of_locate?` says
  that whatever is located has it.
* **`SelfDelimited.lex_text`**: the lexemes of the delimiters and of the content, side by side.
* **`content_ends_of_locate?`**: the ends of the content in the tokens and among the stops. -/

namespace MathEdit

open Lexeme

/-! ## The delimiters -/

namespace Delimiters

/-- Whether the name of an environment can be read back from its tags. -/
def Proper (d : Delimiters) : Prop :=
  ∀ name, d = .environment name → name ≠ [] ∧ ∀ c ∈ name, endsName c = false

/-- The lexemes of an opening delimiter begin whatever follows them. -/
theorem Proper.apart_opening {d : Delimiters} (h : d.Proper) (u : Text) : Apart d.opening u := by
  -- an opening delimiter is whole tokens, whatever is behind it
  have hjoin (ls : List Lexeme) (heach : BeginsEach ls u) (hls : join ls = d.opening) :
      Apart d.opening u := hls ▸ (lex_join_of_beginsEach heach).2
  cases d with
  | displayDollar =>
      exact hjoin [⟨.dollar, ['$']⟩, ⟨.dollar, ['$']⟩] ⟨.sign rfl, .sign rfl, trivial⟩ rfl
  | inlineDollar => exact hjoin [⟨.dollar, ['$']⟩] ⟨.sign rfl, trivial⟩ rfl
  | displayBracket => exact hjoin [⟨.escaped '[', ['\\', '[']⟩] ⟨.escaped rfl, trivial⟩ rfl
  | inlineParen => exact hjoin [⟨.escaped '(', ['\\', '(']⟩] ⟨.escaped rfl, trivial⟩ rfl
  | environment name =>
      obtain ⟨hne, hname⟩ := h name rfl
      refine hjoin [⟨.opening (.environment name), Environment.openingTag name⟩]
        ⟨.openingTag hne hname, trivial⟩ ?_
      rw [join_cons, join_nil, List.append_nil, opening]

/-- No command takes a closing delimiter along. -/
theorem blocks_closing (d : Delimiters) : Blocks d.closing := by
  cases d with
  | displayDollar => exact .inr ⟨['$'], rfl, by decide⟩
  | inlineDollar => exact .inr ⟨[], rfl, by decide⟩
  | displayBracket => exact .inl ⟨[']'], rfl⟩
  | inlineParen => exact .inl ⟨[')'], rfl⟩
  | environment name =>
      rw [closing, Environment.closingTag_eq]
      exact .inl ⟨_, rfl⟩

end Delimiters

namespace Region

/-! ## What a region shows by itself -/

/-- Whether the text of a region shows where its delimiters end: the closing one stands at a live
place, and no dollar makes an opening dollar look like two. -/
structure SelfDelimited (region : Region) : Prop where
  proper : region.delimiters.Proper
  content_ne_nil : region.content ≠ []
  live : Live (region.delimiters.opening ++ region.content)
  head : region.delimiters = .inlineDollar → region.content.head? ≠ some '$'

/-- Without its closing delimiter a region is its opening one and the content. -/
theorem width_text_sub_closing (region : Region) :
    Text.width region.text - Text.width region.delimiters.closing =
      Text.width (region.delimiters.opening ++ region.content) := by
  rw [text, Text.width_append, Nat.add_sub_cancel]

/-- No character of a name ends it. -/
theorem endsName_of_isNameCharacter {c : Char} (h : isNameCharacter c = true) :
    endsName c = false := by
  rw [Bool.eq_false_iff]
  intro hends
  simp only [endsName, Bool.or_eq_true, decide_eq_true_eq] at hends
  rcases hends with (((rfl | rfl) | rfl) | rfl) | rfl <;> exact absurd h (by decide)

/-- What is located shows its delimiters by itself. -/
theorem selfDelimited_of_locate? {r : Recognition} {t : Text} {offset : Nat} {region : Region}
    (h : locate? r t offset = some region) : region.SelfDelimited := by
  obtain ⟨front, m, back, ht, hm, rfl⟩ := exists_match_of_locate? h
  refine ⟨?_, hm.content_ne_nil ht, ?_, ?_⟩
  · intro name hname
    obtain ⟨hcharacters, haccepts⟩ := hm.named name hname
    exact ⟨ne_nil_of_accepts haccepts,
      fun c hc => endsName_of_isNameCharacter (hcharacters c hc)⟩
  · have hclosing := hm.live_closing ht
    rw [List.append_assoc] at hclosing
    exact (hm.live_opening ht).append_iff.1 hclosing
  · -- a dollar at the front of the content would be an atom of it
    intro hd hhead
    obtain ⟨rest, hrest⟩ := List.head?_eq_some_iff.1 hhead
    have hbody : atoms ('$' :: rest) = m.body := hrest ▸ hm.atoms_content ht
    rw [atoms_plain (by decide) (by decide)] at hbody
    exact hm.dollar hd (by simp [← hbody])

namespace SelfDelimited

variable {region : Region} (h : region.SelfDelimited)
include h

/-- The end of the content is a boundary. -/
theorem apart_closing :
    Apart (region.delimiters.opening ++ region.content) region.delimiters.closing :=
  apart_of_endsLive (.inl h.live) region.delimiters.blocks_closing

/-- The lexemes of a region are those of its delimiters and those of its content. -/
theorem lex_text :
    lex region.text =
      lex region.delimiters.opening ++ lex region.content ++ lex region.delimiters.closing := by
  rw [text, h.apart_closing, h.proper.apart_opening]

/-- No token of a region stands across an end of its content. -/
theorem token_beside :
    ∀ t ∈ scan region.text,
      (t.stop ≤ Text.width region.delimiters.opening ∨
        Text.width region.delimiters.opening ≤ t.position) ∧
      (t.stop ≤ Text.width (region.delimiters.opening ++ region.content) ∨
        Text.width (region.delimiters.opening ++ region.content) ≤ t.position) := by
  intro t ht
  refine ⟨?_, Token.stop_le_or_le_position h.apart_closing t ht⟩
  rw [text, List.append_assoc] at ht
  exact Token.stop_le_or_le_position (h.proper.apart_opening _) t ht

/-! ## Stops at the ends of the content -/

/-- The tokens of an environment are its tags and what stands between them. -/
theorem environmentStops_eq {name : Text} (hd : region.delimiters = .environment name) :
    environmentStops (scan region.text) =
      [Text.width region.delimiters.opening,
        Text.width region.text - Text.width region.delimiters.closing] := by
  obtain ⟨hne, hname⟩ := h.proper name hd
  have hopening := lex_text_append (Begins.openingTag (u := []) hne hname)
  have hclosing := lex_text_append (Begins.closingTag (u := []) hne hname)
  rw [List.append_nil, lex_nil] at hopening hclosing
  rw [width_text_sub_closing, Text.width_append, scan, h.lex_text, hd, Delimiters.opening,
    Delimiters.closing, hopening, hclosing, Token.place_append, List.singleton_append, Token.place,
    join_cons, join_lex, Text.width_append]
  simp [environmentStops, Token.place, Token.isBlank, Token.stop, Token.len]

/-- The fixed signs in front of a region are those of its own delimiters. -/
theorem find?_signs :
    (Delimiters.signs.find? fun d => d.opening.isPrefixOf region.text) =
      if region.delimiters ∈ Delimiters.signs then some region.delimiters else none := by
  obtain ⟨start, d, content⟩ := region
  obtain ⟨c, rest, rfl⟩ := List.exists_cons_of_ne_nil h.content_ne_nil
  cases d with
  | inlineDollar =>
      have hc : c ≠ '$' := fun heq => h.head rfl (by rw [heq]; rfl)
      simp [Delimiters.signs, text, Delimiters.opening, List.isPrefixOf, hc.symm]
  | environment name =>
      simp [Delimiters.signs, text, Delimiters.opening, Environment.openingTag_eq, List.isPrefixOf]
  | _ => simp [Delimiters.signs, text, Delimiters.opening, List.isPrefixOf]

/-- The stops that the delimiters make are the ends of the content. -/
theorem delimiterStops_eq :
    delimiterStops region.text =
      [Text.width region.delimiters.opening,
        Text.width region.text - Text.width region.delimiters.closing] := by
  -- the four fixed pairs have a table, and the environments read their name
  by_cases hsign : region.delimiters ∈ Delimiters.signs
  · have hwidth : Text.width region.delimiters.opening + Text.width region.delimiters.closing ≤
        Text.width region.text := by
      rw [text, Text.width_append, Text.width_append]
      omega
    have hsuffix : region.delimiters.closing.isSuffixOf region.text = true :=
      List.isSuffixOf_iff_suffix.2 (List.suffix_append _ _)
    rw [delimiterStops, h.find?_signs, if_pos hsign]
    simp [hwidth, hsuffix]
  · have henvironment : ∃ name, region.delimiters = .environment name := by
      cases hd : region.delimiters with
      | environment name => exact ⟨name, rfl⟩
      | _ => simp [hd, Delimiters.signs] at hsign
    obtain ⟨name, hname⟩ := henvironment
    rw [delimiterStops, h.find?_signs, if_neg hsign]
    exact h.environmentStops_eq hname

end SelfDelimited

/-! ## What is located -/

/-- **The ends of the content**: whatever is located, no token of the region stands across the end
of the opening delimiter or the start of the closing one, both are stops of the region, and in the
document they are the two ends of the range of the content. -/
theorem content_ends_of_locate? {r : Recognition} {t : Text} {offset : Nat} {region : Region}
    (h : locate? r t offset = some region) :
    (∀ token ∈ scan region.text,
      ¬ (token.position < region.delimiters.lengths.1 ∧
        region.delimiters.lengths.1 < token.stop) ∧
      ¬ (token.position < Text.width region.text - region.delimiters.lengths.2 ∧
        Text.width region.text - region.delimiters.lengths.2 < token.stop)) ∧
    region.delimiters.lengths.1 ∈ stops region.text ∧
    Text.width region.text - region.delimiters.lengths.2 ∈ stops region.text ∧
    (region.stop < 2 ^ 32 → ∃ first last, region.contentRange? = some (first, last) ∧
      first.toNat = region.toAbsolute region.delimiters.lengths.1 ∧
      last.toNat =
        region.toAbsolute (Text.width region.text - region.delimiters.lengths.2)) := by
  have hself := selfDelimited_of_locate? h
  have hwidth : Text.width region.text - Text.width region.delimiters.closing =
      Text.width (region.delimiters.opening ++ region.content) := by
    rw [text, Text.width_append, Nat.add_sub_cancel]
  have hstop {p : Nat} (hp : p ∈ delimiterStops region.text) : p ∈ stops region.text := by
    simp [stops, hp]
  rw [Delimiters.lengths_eq]
  refine ⟨?_, ?_, ?_, ?_⟩
  · intro token htoken
    obtain ⟨hopening, hclosing⟩ := hself.token_beside token htoken
    -- every token ends before the delimiter or starts behind it
    rw [hwidth]
    constructor <;> omega
  · exact hstop (by simp [hself.delimiterStops_eq])
  · exact hstop (by simp [hself.delimiterStops_eq])
  · intro hsize
    obtain ⟨first, last, hrange, hfirst, hlast⟩ := contentRange?_eq hsize
    refine ⟨first, last, hrange, hfirst, hlast.trans ?_⟩
    rw [hwidth, Text.width_append, toAbsolute, contentStop, contentStart, Nat.add_assoc]

/-- A carriage return ends the comment for the scan alone, so a dollar that hides from the search is
a token, and the closing dollar is still found by both. -/
theorem content_ends_behind_carriage_return :
    locate? ⟨[], false, 0⟩ "x $a%\r$\n\\%b$".toList 3 =
        some ⟨2, .inlineDollar, "a%\r$\n\\%b".toList⟩ ∧
      1 ∈ stops "$a%\r$\n\\%b$".toList ∧ 9 ∈ stops "$a%\r$\n\\%b$".toList := by
  have h : locate? ⟨[], false, 0⟩ "x $a%\r$\n\\%b$".toList 3 =
      some ⟨2, .inlineDollar, "a%\r$\n\\%b".toList⟩ := by decide +kernel
  obtain ⟨-, hopening, hclosing, -⟩ := content_ends_of_locate? h
  exact ⟨h, hopening, hclosing⟩

end Region

end MathEdit
