import MathEdit.Proofs.Text.ByteOrder
import MathEdit.Proofs.Text.Cuts

/-! # Bytes and characters

A character below 128 is one byte in UTF-8, and that byte is part of no other character. So a search
for such characters may look at bytes: it finds them where they stand in the text, and inside of
other characters it finds nothing.

* **`ascii_mem_utf8_iff`**: where the byte of such a character occurs.
* **`utf8_prefix_iff`**: a text begins another one exactly if its bytes do.
* **`offsetOf?`**: the offset of the first character of a kind. -/

namespace MathEdit.Text

/-! ## The bytes of characters -/

/-- An empty text has no bytes. -/
@[simp] theorem utf8_nil : utf8 [] = [] := rfl

/-- The bytes of a text start with those of its first character. -/
theorem utf8_cons (c : Char) (t : Text) : utf8 (c :: t) = String.utf8EncodeChar c ++ utf8 t :=
  List.flatMap_cons ..

/-- The bytes of two texts follow on each other. -/
@[simp] theorem utf8_append (s t : Text) : utf8 (s ++ t) = utf8 s ++ utf8 t := List.flatMap_append

/-- A character below 128 is one byte. -/
theorem utf8EncodeChar_of_ascii {c : Char} (hc : c.toNat < 128) :
    String.utf8EncodeChar c = [c.toUInt8] := by
  have hle : c.val.toNat ≤ 127 := Nat.le_of_lt_succ hc
  simp only [String.utf8EncodeChar, if_pos hle]
  rfl

/-- A character below 128 has one byte. -/
theorem utf8Size_of_ascii {c : Char} (hc : c.toNat < 128) : c.utf8Size = 1 := by
  rw [← String.length_utf8EncodeChar, utf8EncodeChar_of_ascii hc, List.length_singleton]

/-- That byte is below 128 too. -/
theorem toUInt8_lt_of_ascii {c : Char} (hc : c.toNat < 128) : c.toUInt8 < 128 := by
  rw [UInt8.lt_iff_toNat_lt]
  exact Nat.lt_of_le_of_lt (Nat.mod_le c.toNat 256) hc

/-- And it tells the character. -/
theorem toUInt8_inj_of_ascii {c d : Char} (hc : c.toNat < 128) (hd : d.toNat < 128) :
    c.toUInt8 = d.toUInt8 ↔ c = d := by
  refine ⟨fun h => ?_, fun h => h ▸ rfl⟩
  have hmod : c.toNat % 256 = d.toNat % 256 := congrArg UInt8.toNat h
  rw [Nat.mod_eq_of_lt (by omega), Nat.mod_eq_of_lt (by omega)] at hmod
  exact Char.toNat_inj.1 hmod

/-- All bytes of a character from 128 on are at least 128. -/
theorem le_of_mem_utf8EncodeChar {c : Char} (hc : 128 ≤ c.toNat) :
    ∀ b ∈ String.utf8EncodeChar c, 128 ≤ b := by
  have hgt : ¬ c.val.toNat ≤ 127 := Nat.not_le.2 hc
  have hbyte (n : Nat) (h : n < 128) : (128 : UInt8) ≤ UInt8.ofNat (n + 128) := by
    have hlt : n + 128 < UInt8.size := Nat.add_lt_add_right h 128
    rw [UInt8.le_iff_toNat_le, UInt8.toNat_ofNat_of_lt' hlt]
    exact Nat.le_add_left _ _
  -- the first byte has its mark above that of the others
  have hlead (n mark : Nat) (h : n + mark < 128) :
      (128 : UInt8) ≤ UInt8.ofNat (n + (mark + 128)) := by
    rw [← Nat.add_assoc]
    exact hbyte _ h
  simp only [String.utf8EncodeChar, if_neg hgt]
  split_ifs <;> simp only [List.forall_mem_cons, List.not_mem_nil, false_implies, implies_true,
    and_true]
  · exact ⟨hlead _ 64 (by omega), hbyte _ (by omega)⟩
  · exact ⟨hlead _ 96 (by omega), hbyte _ (by omega), hbyte _ (by omega)⟩
  · exact ⟨hlead _ 112 (by omega), hbyte _ (by omega), hbyte _ (by omega), hbyte _ (by omega)⟩

/-- The byte of a character below 128 occurs in that character only. -/
theorem ascii_mem_utf8EncodeChar_iff {c d : Char} (hd : d.toNat < 128) :
    d.toUInt8 ∈ String.utf8EncodeChar c ↔ c = d := by
  by_cases hc : c.toNat < 128
  · rw [utf8EncodeChar_of_ascii hc, List.mem_singleton, toUInt8_inj_of_ascii hd hc, eq_comm]
  · have hle := le_of_mem_utf8EncodeChar (Nat.le_of_not_lt hc)
    constructor
    · intro hmem
      exact absurd (hle _ hmem) (UInt8.not_le.2 (toUInt8_lt_of_ascii hd))
    · rintro rfl
      exact absurd hd hc

/-- **Where the byte of a character occurs** that is below 128: in the texts with that character. -/
theorem ascii_mem_utf8_iff {d : Char} (hd : d.toNat < 128) {t : Text} :
    d.toUInt8 ∈ utf8 t ↔ d ∈ t := by
  simp [utf8, List.mem_flatMap, ascii_mem_utf8EncodeChar_iff hd]

/-- The first byte of a text says whether it starts with a character below 128, and which one. -/
theorem exists_utf8_cons (c : Char) (t : Text) :
    ∃ b bs, utf8 (c :: t) = b :: bs ∧ ∀ d : Char, d.toNat < 128 → (b = d.toUInt8 ↔ c = d) := by
  obtain ⟨b, bs, hbytes⟩ := List.exists_cons_of_ne_nil (String.utf8EncodeChar_ne_nil (c := c))
  refine ⟨b, bs ++ utf8 t, by rw [utf8_cons, hbytes, List.cons_append], fun d hd => ?_⟩
  rw [← ascii_mem_utf8EncodeChar_iff hd, hbytes]
  refine ⟨fun h => h ▸ List.mem_cons_self, fun hmem => ?_⟩
  -- the character is `d`, which has one byte only
  rw [← hbytes, ascii_mem_utf8EncodeChar_iff hd] at hmem
  rw [hmem, utf8EncodeChar_of_ascii hd] at hbytes
  exact (List.cons.inj hbytes).1.symm

/-! ## Texts that begin with others -/

/-- Bytes that begin with a character do not begin with another one. -/
theorem utf8EncodeChar_append_inj {c d : Char} {xs ys : List UInt8}
    (h : String.utf8EncodeChar c ++ xs = String.utf8EncodeChar d ++ ys) : c = d ∧ xs = ys := by
  obtain rfl : c = d := by
    by_contra hne
    rcases Nat.lt_or_gt_of_ne (mt Char.toNat_inj.1 hne) with hlt | hlt
    · exact List.lt_irrefl _ (h ▸ utf8EncodeChar_append_lt hlt xs ys)
    · exact List.lt_irrefl _ (h ▸ utf8EncodeChar_append_lt hlt ys xs)
  exact ⟨rfl, List.append_cancel_left h⟩

/-- **Texts begin as their bytes do.** -/
theorem utf8_prefix_iff {s t : Text} : utf8 s <+: utf8 t ↔ s <+: t := by
  constructor
  · intro h
    induction s generalizing t with
    | nil => exact List.nil_prefix
    | cons c s ih =>
        obtain ⟨rest, hrest⟩ := h
        cases t with
        | nil =>
            rw [utf8_cons, List.append_assoc] at hrest
            exact absurd (List.append_eq_nil_iff.1 hrest).1 String.utf8EncodeChar_ne_nil
        | cons d t =>
            rw [utf8_cons, utf8_cons, List.append_assoc] at hrest
            obtain ⟨rfl, htail⟩ := utf8EncodeChar_append_inj hrest
            exact (List.prefix_cons_inj c).2 (ih ⟨rest, htail⟩)
  · rintro ⟨rest, rfl⟩
    exact ⟨utf8 rest, (utf8_append s rest).symm⟩

/-! ## Looking for a character -/

/-- The offset of the first character of a kind. -/
def offsetOf? (p : Char → Bool) : Text → Option Nat
  | [] => none
  | c :: t => if p c then some 0 else (offsetOf? p t).map (c.utf8Size + ·)

/-- There is no offset where no character is of the kind. -/
theorem offsetOf?_eq_none {p : Char → Bool} {t : Text} (h : ∀ c ∈ t, p c = false) :
    offsetOf? p t = none := by
  induction t with
  | nil => rfl
  | cons c t ih =>
      obtain ⟨hc, ht⟩ := List.forall_mem_cons.1 h
      rw [offsetOf?, hc, ih ht]
      rfl

/-- Otherwise it is the width of the text before the first one. -/
theorem offsetOf?_append_cons {p : Char → Bool} {s : Text} (h : ∀ c ∈ s, p c = false) {c : Char}
    (hc : p c = true) (t : Text) : offsetOf? p (s ++ c :: t) = some (width s) := by
  induction s with
  | nil => simp [offsetOf?, hc]
  | cons d s ih =>
      obtain ⟨hd, hs⟩ := List.forall_mem_cons.1 h
      rw [List.cons_append, offsetOf?, hd, ih hs]
      rfl

end MathEdit.Text
