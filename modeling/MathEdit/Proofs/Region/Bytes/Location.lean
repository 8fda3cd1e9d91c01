import MathEdit.Proofs.Region.Bytes.Matches
import MathEdit.Proofs.Region.Bytes.Windows

/-! # Location in bytes

In a document of less than 2³² bytes, location runs to its end without a failing access, whatever
the offset, the window and the recognized environments: no byte is read at or behind a limit, every
slice is in order and between boundaries, and no offset leaves the words. It answers with the ends,
the text and the delimiters of the region that location among the atoms finds.

* **`ByteSearch.findContaining?_window`**: a search in a part of a document.
* **`Extent.locate?_eq`**: location, in a window first and then in the whole document.
* **`Extent.locate?_in_bounds`**: with it, the content of what is located, the range of the content
  and the offset in it can be read off. -/

namespace MathEdit

open Region

/-! ## Searches -/

/-- What has been found may be changed before or after it is taken out. -/
theorem Search.toOption_map {α β : Type} (f : α → β) (found : Search α) :
    (found.map f).toOption = found.toOption.map f := by
  cases found <;> rfl

/-- **A search in a part of a document** finds in bytes what it finds among its atoms. -/
theorem ByteSearch.findContaining?_window {t : Text} (ht : Text.width t < 2 ^ 32) {w : Window}
    (hpiece : ∃ before after, t = before ++ w.piece ++ after ∧ w.start = Text.width before)
    (hmore : w.more = decide (w.start + Text.width w.piece < Text.width t)) (r : Recognition)
    (offset : Nat) :
    (ByteSearch.mk t (w.start + Text.width w.piece) r.accepts).findContaining? offset w.start =
      some ((w.search r offset).map Region.extent) := by
  obtain ⟨before, after, happend, hstart⟩ := hpiece
  have hstands : Stands ⟨t, w.start + Text.width w.piece, r.accepts⟩ w.start (atoms w.piece) := by
    constructor
    · exact ⟨before, after, by rw [join_atoms, happend], hstart.symm⟩
    · rw [join_atoms]
    · rw [join_atoms]
  rw [findContaining?_eq ht offset hstands, Window.search, hmore]
  rfl

/-- **Location in bytes** is location. -/
theorem Extent.locate?_eq (r : Recognition) {t : Text} (ht : Text.width t < 2 ^ 32)
    (offset : Nat) :
    Extent.locate? r t offset = some ((Region.locate? r t offset).map Region.extent) := by
  have hwhole : (ByteSearch.mk t (Text.width t) r.accepts).findContaining? offset 0 =
      some (((Window.whole t).search r offset).map Region.extent) := by
    have hpiece : ∃ before after, t = before ++ (Window.whole t).piece ++ after ∧
        (Window.whole t).start = Text.width before := ⟨[], [], (List.append_nil t).symm, rfl⟩
    have h := ByteSearch.findContaining?_window ht hpiece (by simp [Window.whole]) r offset
    rwa [Window.whole, Nat.zero_add] at h
  rw [Extent.locate?, Region.locate?, Text.searchWindow?_eq ht, hwhole]
  split_ifs with hbehind
  · rfl
  -- without a window the whole document is searched, and with one what it leaves open
  · cases hwindow : Window.around? r.window offset t with
    | none => simp [Search.toOption_map]
    | some w =>
        have hpart := ByteSearch.findContaining?_window ht (append_of_around? hwindow)
          (Text.ends_of_around? hwindow).2.2 r offset
        simp only [Option.bind_eq_bind, Option.bind_some, Option.map_some, hpart,
          Search.toOption_map]
        cases w.search r offset <;> rfl

/-! ## What is located -/

/-- The content of a region is a slice of its text. -/
theorem Region.content?_extent (region : Region) :
    region.extent.content? = some region.content := by
  have hle : region.delimiters.lengths.2 ≤ Text.width region.text := by
    rw [Delimiters.lengths_eq, Region.text, Text.width_append]
    exact Nat.le_add_left _ _
  rw [Extent.content?, Region.extent, Word.sub?_eq hle]
  exact slice?_lengths region

/-- The range of the content of a region that ends within the offsets of 32 bits. -/
theorem Region.contentRange?_extent {region : Region} (h : region.stop < 2 ^ 32) :
    region.extent.contentRange? = region.contentRange? := by
  have hstop := region.stop_eq_contentStop_add
  have hfirst := region.add_lengths_eq
  have hlast : region.delimiters.lengths.2 = Text.width region.delimiters.closing := by
    rw [Delimiters.lengths_eq]
  have hcontent : region.contentStop = region.contentStart + Text.width region.content := rfl
  simp only [Extent.contentRange?, Region.extent, Option.bind_eq_bind]
  rw [Word.add?_eq (by omega), Word.sub?_eq (by omega)]
  rfl

/-- An offset in a region is a difference of offsets. -/
theorem Region.toLocal?_extent {region : Region} {offset : Nat} (hstart : region.start ≤ offset)
    (hstop : offset ≤ region.stop) :
    region.extent.toLocal? offset = some (some (offset - region.start)) := by
  rw [Extent.toLocal?, Region.extent, if_pos ⟨hstart, hstop⟩, Word.sub?_eq hstart]
  rfl

/-- **Location in bytes has no failing access** in a document of less than 2³² bytes: it answers
with the region that is located, if there is one, and the content of that region, the range of the
content and the offset in the region are read off without a failing access, too. -/
theorem Extent.locate?_in_bounds (r : Recognition) {t : Text} (ht : Text.width t < 2 ^ 32)
    (offset : Nat) :
    Extent.locate? r t offset = some ((Region.locate? r t offset).map Region.extent) ∧
      ∀ region, Region.locate? r t offset = some region →
        region.extent.content? = some region.content ∧
          (∃ first last, region.extent.contentRange? = some (first, last) ∧
            first.toNat = region.contentStart ∧ last.toNat = region.contentStop) ∧
          region.extent.toLocal? offset = some (some (offset - region.start)) := by
  refine ⟨Extent.locate?_eq r ht offset, fun region hlocate => ?_⟩
  obtain ⟨hstands, hstart, hstop⟩ := sound_of_locate? hlocate
  have hle := hstands.stop_le
  rw [Nat.zero_add] at hle
  -- a region ends in the document, so its offsets fit
  have hlt : region.stop < 2 ^ 32 := Nat.lt_of_le_of_lt hle ht
  refine ⟨region.content?_extent, ?_, Region.toLocal?_extent hstart hstop⟩
  rw [Region.contentRange?_extent hlt]
  exact contentRange?_eq hlt

/-- The offset and the cuts around it are inside of characters here, and so is where the search
comes to behind the escapes. -/
theorem Extent.locate?_in_bounds_inside_characters :
    Text.width "é\n \n\\é $é\\é$éé".toList < 2 ^ 32 ∧
      Extent.locate? ⟨[], false, 3⟩ "é\n \n\\é $é\\é$éé".toList 14 =
        some (some ⟨9, 16, "$é\\é$".toList, .inlineDollar⟩) ∧
      (Extent.mk 9 16 "$é\\é$".toList .inlineDollar).content? = some "é\\é".toList ∧
      (Extent.mk 9 16 "$é\\é$".toList .inlineDollar).toLocal? 14 = some (some 5) := by
  have hsize : Text.width "é\n \n\\é $é\\é$éé".toList < 2 ^ 32 := by decide +kernel
  have hlocate : Region.locate? ⟨[], false, 3⟩ "é\n \n\\é $é\\é$éé".toList 14 =
      some ⟨9, .inlineDollar, "é\\é".toList⟩ := by decide +kernel
  obtain ⟨hanswer, hparts⟩ := Extent.locate?_in_bounds ⟨[], false, 3⟩ hsize 14
  obtain ⟨hcontent, -, hlocal⟩ := hparts _ hlocate
  have hextent : (Region.mk 9 .inlineDollar "é\\é".toList).extent =
      ⟨9, 16, "$é\\é$".toList, .inlineDollar⟩ := by decide +kernel
  rw [hlocate, Option.map_some, hextent] at hanswer
  rw [hextent] at hcontent hlocal
  exact ⟨hsize, hanswer, hcontent, hlocal⟩

end MathEdit
