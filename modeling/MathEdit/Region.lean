import MathEdit.Environment

/-! # Math regions

A `Region` is a place where a document holds math: the offset where it starts, the `Delimiters`
around it and the content between them. Its text, its end and the conversions between document
offsets and offsets in the region follow from these.
-/

namespace MathEdit

/-- The pairs of delimiters around math. -/
inductive Delimiters where
  /-- Two dollars on either side. -/
  | displayDollar
  /-- One dollar on either side. -/
  | inlineDollar
  /-- Brackets after backslashes, `\[ … \]`. -/
  | displayBracket
  /-- Parentheses after backslashes, `\( … \)`. -/
  | inlineParen
  /-- The tags of an environment, `\begin{name} … \end{name}`. -/
  | environment (name : Text)
  deriving DecidableEq, Repr

namespace Delimiters

/-- The text before the content. -/
def opening : Delimiters → Text
  | displayDollar => ['$', '$']
  | inlineDollar => ['$']
  | displayBracket => ['\\', '[']
  | inlineParen => ['\\', '(']
  | environment name => Environment.openingTag name

/-- The text after the content. -/
def closing : Delimiters → Text
  | displayDollar => ['$', '$']
  | inlineDollar => ['$']
  | displayBracket => ['\\', ']']
  | inlineParen => ['\\', ')']
  | environment name => Environment.closingTag name

/-- Every opening delimiter has some text. -/
theorem opening_ne_nil (d : Delimiters) : d.opening ≠ [] := by
  cases d with
  | environment name => exact List.cons_ne_nil _ _
  | _ => exact List.cons_ne_nil _ _

/-- The lengths in bytes of the text before the content and of the text after it. The tags of an
environment are as long as those without a name and the name. -/
def lengths : Delimiters → Nat × Nat
  | displayDollar | displayBracket | inlineParen => (2, 2)
  | inlineDollar => (1, 1)
  | environment name =>
      (Text.width (Environment.openingTag []) + Text.width name,
        Text.width (Environment.closingTag []) + Text.width name)

/-- The lengths are those of the delimiters. -/
theorem lengths_eq (d : Delimiters) : d.lengths = (Text.width d.opening, Text.width d.closing) := by
  cases d with
  | environment name =>
      simp only [lengths, opening, closing, Environment.openingTag, Environment.closingTag,
        Text.width, Text.measure_append, Text.measure_nil, Prod.mk.injEq]
      constructor <;> omega
  | _ => rfl

/-- Whether the math stands on lines of its own. -/
def isDisplay : Delimiters → Bool
  | inlineDollar | inlineParen => false
  | _ => true

end Delimiters

/-- Math between delimiters, at its place in a document. -/
structure Region where
  start : Nat
  delimiters : Delimiters
  content : Text
  deriving DecidableEq, Repr

namespace Region

/-- The region with its delimiters. -/
def text (r : Region) : Text := r.delimiters.opening ++ r.content ++ r.delimiters.closing

/-- The offset just past the region. -/
def stop (r : Region) : Nat := r.start + Text.width r.text

/-- The offset just past the opening delimiter. -/
def contentStart (r : Region) : Nat := r.start + Text.width r.delimiters.opening

/-- The offset of the closing delimiter. -/
def contentStop (r : Region) : Nat := r.contentStart + Text.width r.content

/-- The span of the content in offsets of 32 bits, as far as its ends are in order. -/
def contentRange? (r : Region) : Option (UInt32 × UInt32) :=
  let first := UInt32.ofNat (r.start + r.delimiters.lengths.1)
  let last := UInt32.ofNat (r.stop - r.delimiters.lengths.2)
  if first ≤ last then some (first, last) else none

/-- Whether an offset is in the region, both ends included. -/
def contains (r : Region) (offset : Nat) : Bool := r.start ≤ offset && offset ≤ r.stop

/-- An offset of the document as an offset in the region. -/
def toLocal? (r : Region) (offset : Nat) : Option Nat :=
  if r.contains offset then some (offset - r.start) else none

/-- An offset in the region as an offset of the document. -/
def toAbsolute (r : Region) (offset : Nat) : Nat := r.start + offset

/-- Whether a region is what a text holds at its place, where the text starts at `position`. -/
def StandsIn (r : Region) (position : Nat) (t : Text) : Prop :=
  ∃ before after, t = before ++ r.text ++ after ∧ r.start = position + Text.width before

/-- A text may be looked at with more in front of it. -/
theorem StandsIn.prepend {r : Region} {position : Nat} {front t : Text}
    (h : r.StandsIn (position + Text.width front) t) : r.StandsIn position (front ++ t) := by
  obtain ⟨before, after, rfl, hs⟩ := h
  refine ⟨front ++ before, after, by simp, ?_⟩
  simp only [Text.width, Text.measure_append] at *
  omega

/-- A text may be looked at with more behind it. -/
theorem StandsIn.append {r : Region} {position : Nat} {t back : Text}
    (h : r.StandsIn position t) : r.StandsIn position (t ++ back) := by
  obtain ⟨before, after, rfl, hs⟩ := h
  exact ⟨before, after ++ back, by simp, hs⟩

/-- A region does not reach past the end of the text that it stands in. -/
theorem StandsIn.stop_le {r : Region} {position : Nat} {t : Text} (h : r.StandsIn position t) :
    r.stop ≤ position + Text.width t := by
  obtain ⟨before, after, rfl, hs⟩ := h
  simp only [stop, Text.width, Text.measure_append] at *
  omega

end Region

end MathEdit
