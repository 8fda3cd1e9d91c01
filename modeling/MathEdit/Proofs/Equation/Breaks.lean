import Mathlib
import MathEdit.Equation
import MathEdit.Proofs.Token.Boundaries
import MathEdit.Proofs.Token.Depth
import MathEdit.Proofs.Token.Nesting
import MathEdit.Proofs.Token.Partition

/-! # Where an equation is split

The tokens of a text stand one after the other, so the tokens before a break are those before its
offset, and the depth at the break is what they add up to, as long as the counter can hold it. With
`Nesting` this says how deep inside of groups an equation can be split at all.

* **`mem_breaksOf`**: a break is a token with the tokens before and after it.
* **`length_around_le_of_mem_breaks`**: at most as many groups lie around a break as there are stray
  closers before it. -/

namespace MathEdit

/-! ## Places -/

namespace Token

/-- The depth of a token in the middle of others is what those before it add up to. -/
theorem depth_of_place_eq {position : Nat} {depth : Int} {ls : List Lexeme} {a b : List Token}
    {t : Token} (h : place position depth ls = a ++ t :: b) (ht : t.kind.isClosing = false) :
    t.depth = depth + Lexeme.depth (a.map Token.toLexeme) := by
  rw [(of_place_eq h).1, ht, depth_map_toLexeme]
  rfl

end Token

/-- The tokens of a text stand one after the other. -/
theorem pairwise_scan (t : Text) : (scan t).Pairwise (·.position < ·.position) :=
  (Token.pairwise_place 0 0 (lex t)).imp_of_mem fun ha _ hle =>
    Nat.lt_of_lt_of_le (Token.position_lt_stop_of_mem ha) hle

namespace Equation

/-- An equation is split at equality signs outside of every group that is counted. -/
theorem kind_and_counter_of_isBreak {t : Token} {ts : List Token} (h : isBreak t ts = true) :
    t.kind = .operator '=' ∧ t.counter ≤ 0 := by
  simp only [isBreak, Bool.and_eq_true, decide_eq_true_eq] at h
  exact h.1

/-- Such a sign is a break if any token behind it is not blank. -/
theorem isBreak_of_mem {t u : Token} {ts : List Token} (hkind : t.kind = .operator '=')
    (hcounter : t.counter ≤ 0) (hu : u ∈ ts) (hblank : u.kind ≠ .blank) : isBreak t ts = true := by
  have hany : ts.any (!·.isBlank) = true :=
    List.any_eq_true.2 ⟨u, hu, by simp [Token.isBlank, hblank]⟩
  simp [isBreak, hkind, hcounter, hany]

/-- A break is the offset of a token with the tokens before and after it. -/
theorem mem_breaksOf {ts : List Token} {p : Nat} :
    p ∈ breaksOf ts ↔ ∃ a t b, ts = a ++ t :: b ∧ isBreak t b = true ∧ t.position = p := by
  induction ts with
  | nil => simp [breaksOf]
  | cons u ts ih =>
      have hcons : (∃ a t b, u :: ts = a ++ t :: b ∧ isBreak t b = true ∧ t.position = p) ↔
          (isBreak u ts = true ∧ u.position = p) ∨ p ∈ breaksOf ts := by
        rw [ih]
        constructor
        · rintro ⟨a, t, b, hsplit, ht⟩
          cases a with
          | nil =>
              -- the break is at the first token
              obtain ⟨rfl, rfl⟩ := List.cons.inj hsplit
              exact .inl ht
          | cons v a =>
              obtain ⟨rfl, rfl⟩ := List.cons.inj hsplit
              exact .inr ⟨a, t, b, rfl, ht⟩
        · rintro (hu | ⟨a, t, b, rfl, ht⟩)
          · exact ⟨[], u, ts, rfl, hu⟩
          · exact ⟨u :: a, t, b, rfl, ht⟩
      rw [hcons, breaksOf]
      by_cases hu : isBreak u ts = true
      · simp [hu, eq_comm]
      · simp [hu]

/-- There is one segment after each break. -/
theorem length_segmentsOf (ts : List Token) : (segmentsOf ts).2.length = (breaksOf ts).length := by
  induction ts with
  | nil => rfl
  | cons t ts ih =>
      rw [segmentsOf, breaksOf]
      by_cases h : isBreak t ts = true <;> simp [h, ih]

/-- An equation with a break has a segment on either side of it. -/
theorem exists_segmentsOf {ts : List Token} (h : breaksOf ts ≠ []) :
    ∃ left right further, segmentsOf ts = (left, right :: further) := by
  have hlength := length_segmentsOf ts
  generalize segmentsOf ts = segments at hlength
  obtain ⟨left, rights⟩ := segments
  have hpos := List.length_pos_iff.2 h
  obtain ⟨right, further, rfl⟩ := List.exists_cons_of_length_pos (hlength ▸ hpos)
  exact ⟨left, right, further, rfl⟩

/-- **Nesting is respected up to stray closers**: a break lies inside at most as many groups, each
construct matched against itself only, as there are closers before it that close nothing. The text
has fewer than 2³¹ tokens, so that the counter does not go around. -/
theorem length_around_le_of_mem_breaks {t : Text} {p : Nat} (hcount : (scan t).length < 2 ^ 31)
    (h : p ∈ breaks t) :
    ((nesting (scan t)).around p).length ≤ ((nesting (scan t)).strayBefore p).length := by
  obtain ⟨a, e, b, hsplit, hbreak, rfl⟩ := mem_breaksOf.1 h
  have hpairwise := pairwise_scan t
  obtain ⟨hkind, hdepth⟩ := kind_and_counter_of_isBreak hbreak
  rw [counter_eq_depth hcount (by simp [hsplit])] at hdepth
  have hclosing : e.kind.isClosing = false := by rw [hkind]; rfl
  have hsum := Token.depth_of_place_eq hsplit hclosing
  -- the tokens before the break are those before its offset
  rw [hsplit, List.pairwise_append, List.pairwise_cons] at hpairwise
  obtain ⟨-, ⟨hafter, -⟩, hbefore⟩ := hpairwise
  have hle : ∀ u ∈ e :: b, e.position ≤ u.position := by
    intro u hu
    rcases List.mem_cons.1 hu with rfl | hu
    · exact Nat.le_refl _
    · exact Nat.le_of_lt (hafter u hu)
  have hlength := Nesting.length_around_le (fun u hu => hbefore u hu e List.mem_cons_self) hle
  rw [hsplit]
  omega

/-- A stray parenthesis makes up for the bracket around the break. -/
theorem length_around_le_in_bracket :
    (scan "[3) = x]".toList).length < 2 ^ 31 ∧ 4 ∈ breaks "[3) = x]".toList ∧
      ((nesting (scan "[3) = x]".toList)).around 4).length
        ≤ ((nesting (scan "[3) = x]".toList)).strayBefore 4).length := by
  have hcount : (scan "[3) = x]".toList).length < 2 ^ 31 := by decide +kernel
  have h : breaks "[3) = x]".toList = [4] := by cbv
  have hmem : 4 ∈ breaks "[3) = x]".toList := by
    rw [h]
    exact List.mem_singleton.2 rfl
  exact ⟨hcount, hmem, length_around_le_of_mem_breaks hcount hmem⟩

/-- The brackets of a half-open interval close nothing, and a break lies inside of the braces around
it. -/
theorem mem_breaks_inside_braces :
    7 ∈ breaks "{]0,1] = I}".toList ∧
      ∃ o c, (o, c) ∈ (nesting (scan "{]0,1] = I}".toList)).around 7 ∧
        o.kind = .opening .brace ∧ c.kind = .closing .brace := by
  have h : breaks "{]0,1] = I}".toList = [7] := by cbv
  have hgroup : (nesting (scan "{]0,1] = I}".toList)).around 7
      = [(⟨⟨.opening .brace, ['{']⟩, 0, 0⟩, ⟨⟨.closing .brace, ['}']⟩, 10, -2⟩)] := by cbv
  rw [h, hgroup]
  exact ⟨List.mem_singleton.2 rfl, _, _, List.mem_singleton.2 rfl, rfl, rfl⟩

end Equation

end MathEdit
