import MathEdit.Text.Blank
import MathEdit.Region.Search

/-! # The math around a place

`Region.locate?` answers which math region of a document contains an offset. In a long document it
first searches a window around the offset, from the start of a paragraph on, and only if that has no
answer the whole document.
-/

namespace MathEdit.Region

/-- The offset just past the last blank line of a text, or zero. A blank line has a line before it.
The scan is at `position`; `blank` says that the current line is blank so far and not the first, and
`best` is the offset past the last blank line before it. -/
def lastParagraph (position : Nat) (blank : Bool) (best : Nat) : Text → Nat
  | [] => best
  | c :: t =>
      let next := position + c.utf8Size
      if c = '\n' then lastParagraph next true (if blank then next else best) t
      else lastParagraph next (blank && Text.isBlank c) best t

/-- The offset where the last paragraph of a text starts. -/
def paragraphStart (t : Text) : Nat := lastParagraph 0 false 0 t

/-- A piece of a document: the offset where it starts, its text, and whether the document goes on
after it. -/
structure Window where
  start : Nat
  piece : Text
  more : Bool
  deriving DecidableEq, Repr

/-- The whole document as a window. -/
def Window.whole (t : Text) : Window := ⟨0, t, false⟩

/-- The window of `size` bytes on either side of an offset, moved back to the start of a paragraph.
There is none in a document that is not longer than two sizes. -/
def Window.around? (size offset : Nat) (t : Text) : Option Window :=
  if size = 0 || Text.width t ≤ 2 * size then none
  else
    let start := paragraphStart (Text.takeBytes (offset - size) t)
    let upTo := Text.takeBytesUp (offset + size) t
    some ⟨start, Text.dropBytes start upTo, Text.width upTo < Text.width t⟩

/-- The region of a window that contains an offset. -/
def Window.search (w : Window) (r : Recognition) (offset : Nat) : Search Region :=
  findContaining r.accepts w.more offset w.start (atoms w.piece)

/-- The region of a document that contains an offset. -/
def locate? (r : Recognition) (t : Text) (offset : Nat) : Option Region :=
  if Text.width t < offset then none
  else
    ((Window.around? r.window offset t).bind fun w => (w.search r offset).toOption).or
      ((Window.whole t).search r offset).toOption

/-! ## What is located stands in the document -/

/-- The last paragraph starts at a boundary of the text, unless it has started before. -/
theorem boundary_of_lastParagraph (position : Nat) (blank : Bool) (best : Nat) (t : Text) :
    lastParagraph position blank best t = best ∨
      ∃ a b, t = a ++ b ∧ lastParagraph position blank best t = position + Text.width a := by
  induction t generalizing position blank best with
  | nil => exact .inl rfl
  | cons c t ih =>
      have later {position' best' : Nat} {blank' : Bool}
          (hp : position' = position + c.utf8Size)
          (hb : best' = best ∨ best' = position + c.utf8Size) :
          lastParagraph position' blank' best' t = best ∨
            ∃ a b, c :: t = a ++ b ∧
              lastParagraph position' blank' best' t = position + Text.width a := by
        rcases ih position' blank' best' with he | ⟨a, b, ht, he⟩
        · rcases hb with hb | hb
          · exact .inl (he.trans hb)
          · exact .inr ⟨[c], t, rfl, he.trans (by simp [hb])⟩
        · exact .inr ⟨c :: a, b, by simp [ht], he.trans (by simp [hp, Nat.add_assoc])⟩
      simp only [lastParagraph]
      split
      · refine later rfl ?_
        split
        · exact .inr rfl
        · exact .inl rfl
      · exact later rfl (.inl rfl)

/-- A paragraph starts at a boundary. -/
theorem boundary_paragraphStart (t : Text) :
    ∃ a b, t = a ++ b ∧ paragraphStart t = Text.width a := by
  rcases boundary_of_lastParagraph 0 false 0 t with h | ⟨a, b, ht, h⟩
  · exact ⟨[], t, rfl, h⟩
  · exact ⟨a, b, ht, by simpa [paragraphStart] using h⟩

/-- A window is a part of the document at its place. -/
theorem append_of_around? {size offset : Nat} {t : Text} {w : Window}
    (h : Window.around? size offset t = some w) :
    ∃ before after, t = before ++ w.piece ++ after ∧ w.start = Text.width before := by
  unfold Window.around? at h
  split at h
  · simp at h
  · obtain rfl := Option.some.inj h
    obtain ⟨a, b, hab, hs⟩ := boundary_paragraphStart (Text.takeBytes (offset - size) t)
    obtain ⟨c, hc⟩ := Text.takeBytes_prefix_takeBytesUp
      (Nat.le_trans (Nat.sub_le offset size) (Nat.le_add_right offset size)) t
    obtain ⟨d, hd⟩ := Text.takeBytesUp_prefix (offset + size) t
    rw [hab, List.append_assoc] at hc
    refine ⟨a, d, ?_, hs⟩
    dsimp only
    rw [hs, ← hc, Text.dropBytes_width_append, hc, hd]

/-- The region that is located stands in the document and contains the offset. -/
theorem sound_of_locate? {r : Recognition} {t : Text} {offset : Nat} {region : Region}
    (h : locate? r t offset = some region) :
    region.StandsIn 0 t ∧ region.start ≤ offset ∧ offset ≤ region.stop := by
  unfold locate? at h
  split at h
  · simp at h
  · rcases Option.or_eq_some_iff.1 h with h | ⟨-, h⟩
    · obtain ⟨w, hw, hf⟩ := Option.bind_eq_some_iff.1 h
      obtain ⟨before, after, ht, hs⟩ := append_of_around? hw
      have ⟨hr, ho⟩ := sound_of_findContaining (Search.toOption_eq_some_iff.1 hf)
      rw [hs, join_atoms] at hr
      rw [ht]
      exact ⟨(StandsIn.prepend (by simpa using hr)).append, ho⟩
    · simpa [Window.whole] using sound_of_findContaining (Search.toOption_eq_some_iff.1 h)

end MathEdit.Region
