import MathEdit.Text
import Mathlib.Data.List.Basic

/-! # The order of bytes

Texts are ordered by their characters. In UTF-8 the first byte of a character tells how many bytes
it has, a greater one for more of them, and the bytes hold the digits of the number of the
character, the greatest one first. So characters have the order of their bytes, whatever follows
them, and so have texts.

* **`utf8`**: the bytes of a text.
* **`utf8_lt_utf8_iff`**: a text comes before another one exactly if its bytes do. -/

namespace MathEdit.Text

/-- The bytes of a text in UTF-8. -/
def utf8 (t : Text) : List UInt8 := t.flatMap String.utf8EncodeChar

/-- The width of a text is the number of its bytes. -/
theorem length_utf8 (t : Text) : (utf8 t).length = width t := by
  induction t with
  | nil => rfl
  | cons c t ih =>
      rw [utf8, List.flatMap_cons, List.length_append, String.length_utf8EncodeChar, ← utf8, ih]
      rfl

/-- The bytes of a character come before those of a greater one, whatever follows. -/
theorem utf8EncodeChar_append_lt {c d : Char} (h : c < d) (xs ys : List UInt8) :
    String.utf8EncodeChar c ++ xs < String.utf8EncodeChar d ++ ys := by
  have hlt : c.val.toNat < d.val.toNat := h
  have hd : d.val.toNat < 0xd800 ∨ 0xdfff < d.val.toNat ∧ d.val.toNat < 0x110000 := d.valid
  have hdigits (n : Nat) : n / 4096 = n / 64 / 64 ∧ n / 262144 = n / 64 / 64 / 64 := by omega
  simp only [String.utf8EncodeChar, (hdigits _).1, (hdigits _).2]
  generalize c.val.toNat = m at hlt
  generalize d.val.toNat = n at hlt hd
  -- with as many bytes the first digits that differ decide, and else the first bytes do
  split_ifs <;>
    simp only [List.cons_append, List.nil_append, List.cons_lt_cons_iff, UInt8.lt_iff_toNat_lt,
      ← UInt8.toNat_inj, UInt8.toNat_ofNat'] <;>
    omega

/-- The bytes of texts are in the order of the texts. -/
theorem utf8_lt_utf8 {s t : Text} (h : s < t) : utf8 s < utf8 t := by
  induction t generalizing s with
  | nil => exact absurd h (List.not_lt_nil s)
  | cons d t ih =>
      cases s with
      | nil =>
          obtain ⟨b, bs, hbytes⟩ :=
            List.exists_cons_of_ne_nil (String.utf8EncodeChar_ne_nil (c := d))
          rw [utf8, utf8, List.flatMap_nil, List.flatMap_cons, hbytes]
          exact List.nil_lt_cons b _
      | cons c s =>
          rcases List.cons_lt_cons_iff.1 h with hcd | ⟨rfl, hst⟩
          · exact utf8EncodeChar_append_lt hcd _ _
          · exact List.append_left_lt (ih hst)

/-- **The order of texts** is the order of their bytes. -/
theorem utf8_lt_utf8_iff {s t : Text} : utf8 s < utf8 t ↔ s < t := by
  refine ⟨fun h => ?_, utf8_lt_utf8⟩
  refine Decidable.byContradiction fun hst => ?_
  have hts : ¬ t < s := fun hts => List.lt_asymm h (utf8_lt_utf8 hts)
  obtain rfl : s = t := Std.Trichotomous.trichotomous s t hst hts
  exact List.lt_irrefl _ h

end MathEdit.Text
