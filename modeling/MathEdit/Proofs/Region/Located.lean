import MathEdit.Proofs.Region.Partition
import MathEdit.Region.Locate

/-! # Which region an offset is located in

Without a window every offset of a document is answered by one and the same list of regions, in
order and without overlaps.

* **`located_iff_mem_regions`**: the regions that are located at some offset are those of the walk
  along the document.
* **`located_partition`**: so they partition the document. -/

namespace MathEdit.Region

/-- A region is located in a document if some offset is answered with it. -/
def Located (r : Recognition) (t : Text) (region : Region) : Prop :=
  ∃ offset, locate? r t offset = some region

/-! ## Documents without a window -/

/-- No region reaches past the end of the document. -/
theorem stop_le_of_mem_regions {accepts : Text → Bool} {position : Nat} {as : List Atom}
    {region : Region} (h : region ∈ regions accepts position as) :
    region.stop ≤ position + Text.width (Atom.join as) := by
  have hfind := find?_stop_of_mem (pairwise_regions position as) h
  rw [← toOption_findContaining, Search.toOption_eq_some_iff] at hfind
  exact (sound_of_findContaining hfind).1.stop_le

/-- There is no window in a document that is not longer than two of them. -/
theorem around?_of_unwindowed {size : Nat} {t : Text} (h : size = 0 ∨ Text.width t ≤ 2 * size)
    (offset : Nat) : Window.around? size offset t = none := by
  rw [Window.around?, if_pos]
  simpa using h

/-- Without a window every offset is answered with the first region that contains it. -/
theorem locate?_of_unwindowed {r : Recognition} {t : Text}
    (h : r.window = 0 ∨ Text.width t ≤ 2 * r.window) (offset : Nat) :
    locate? r t offset = (regions r.accepts 0 (atoms t)).find? (·.contains offset) := by
  rw [locate?, around?_of_unwindowed h]
  split
  · next hlt =>
      -- no region reaches an offset past the end
      symm
      rw [List.find?_eq_none]
      intro region hmem hc
      have hstop := stop_le_of_mem_regions hmem
      rw [join_atoms] at hstop
      have := contains_iff.1 hc
      omega
  · exact toOption_findContaining offset 0 (atoms t)

/-- Without a window the located regions are those of the walk along the document. -/
theorem located_iff_mem_regions {r : Recognition} {t : Text}
    (h : r.window = 0 ∨ Text.width t ≤ 2 * r.window) {region : Region} :
    Located r t region ↔ region ∈ regions r.accepts 0 (atoms t) := by
  constructor
  · rintro ⟨offset, hl⟩
    rw [locate?_of_unwindowed h] at hl
    exact List.mem_of_find?_eq_some hl
  · intro hmem
    refine ⟨region.stop, ?_⟩
    rw [locate?_of_unwindowed h]
    exact find?_stop_of_mem (pairwise_regions 0 (atoms t)) hmem

/-- Without a window a located region is located at every offset behind its start. -/
theorem locate?_of_mem_regions {r : Recognition} {t : Text}
    (h : r.window = 0 ∨ Text.width t ≤ 2 * r.window) {region : Region}
    (hmem : region ∈ regions r.accepts 0 (atoms t)) {offset : Nat} (hstart : region.start < offset)
    (hstop : offset ≤ region.stop) : locate? r t offset = some region := by
  rw [locate?_of_unwindowed h]
  exact find?_of_mem_of_lt (pairwise_regions 0 (atoms t)) hmem hstart hstop

/-- **Located regions partition a document.** Without a window two located regions are the same or
do not overlap, a region is located at all its offsets but for its start where another region ends,
and nothing is located exactly at the offsets outside of all of them. -/
theorem located_partition {r : Recognition} {t : Text}
    (h : r.window = 0 ∨ Text.width t ≤ 2 * r.window) :
    (∀ a b, Located r t a → Located r t b → a = b ∨ a.stop ≤ b.start ∨ b.stop ≤ a.start) ∧
      (∀ region, Located r t region →
        (∀ offset, region.start < offset → offset ≤ region.stop →
          locate? r t offset = some region) ∧
        (∀ e, Located r t e → e.stop = region.start → locate? r t region.start = some e) ∧
        ((∀ e, Located r t e → e.stop ≠ region.start) →
          locate? r t region.start = some region)) ∧
      ∀ offset, locate? r t offset = none ↔
        ∀ region, Located r t region → region.contains offset = false := by
  have hrs : (regions r.accepts 0 (atoms t)).Pairwise fun r s => r.stop ≤ s.start :=
    pairwise_regions 0 (atoms t)
  simp only [located_iff_mem_regions h, locate?_of_unwindowed h]
  refine ⟨fun a b ha hb => eq_or_stop_le_of_mem hrs ha hb, ?_, by simp⟩
  intro region hregion
  have hlt := region.start_lt_stop
  refine ⟨?_, fun e he hend => hend ▸ find?_stop_of_mem hrs he, ?_⟩
  · intro offset hstart hstop
    rw [find?_contains_eq_some_iff hrs, contains_iff]
    refine ⟨hregion, ⟨by omega, hstop⟩, ?_⟩
    intro e he hend
    -- a region that ends inside of this one overlaps with it
    have hlt' := e.start_lt_stop
    rcases eq_or_stop_le_of_mem hrs he hregion with heq | hle | hle
    · exact heq
    · omega
    · omega
  · intro hfree
    rw [find?_contains_eq_some_iff hrs, contains_iff]
    exact ⟨hregion, ⟨Nat.le_refl _, by omega⟩, fun e he hend => absurd hend (hfree e he)⟩

/-- Of two regions that meet, the one that ends at an offset is located there. -/
theorem located_partition_of_meeting :
    Text.width "$a$$b$".toList ≤ 2 * Recognition.standard.window ∧
      locate? .standard "$a$$b$".toList 3 = some ⟨0, .inlineDollar, ['a']⟩ := by
  have hwhole : Text.width "$a$$b$".toList ≤ 2 * Recognition.standard.window := by decide +kernel
  have hfirst : Located .standard "$a$$b$".toList ⟨0, .inlineDollar, ['a']⟩ :=
    ⟨1, by decide +kernel⟩
  have hsecond : Located .standard "$a$$b$".toList ⟨3, .inlineDollar, ['b']⟩ :=
    ⟨5, by decide +kernel⟩
  exact ⟨hwhole, ((located_partition (.inr hwhole)).2.1 _ hsecond).2.1 _ hfirst (by decide +kernel)⟩

end MathEdit.Region
