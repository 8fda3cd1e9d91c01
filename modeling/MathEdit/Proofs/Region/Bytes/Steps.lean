import MathEdit.Proofs.Region.Bytes.Search
import MathEdit.Proofs.Region.Single

/-! # Steps of the search in bytes

A search that stands in front of an atom reads its first byte and goes on behind an escape, a
comment or that byte. So it comes to places between atoms, to places inside of characters from 128
on, where it finds nothing, and behind a backslash at the limit to the index past the limit, where
it ends.

* **`ByteSearch.Stands`**: the search stands at an index in front of some atoms, the last ones up to
  its limit.
* **`Stands.step?_eq`**: the step over an atom, by its `Atom.stride`.
* **`Walks.eq_add_width`**: a walk that finds nothing inside of characters comes to the same behind
  the stride of an atom and behind the atom. -/

namespace MathEdit

open Region

/-! ## Delimiters among characters -/

/-- The first character of a delimiter is a dollar or a backslash. -/
theorem Region.Delimiting.exists_cons {t : Text} (h : Delimiting (atoms t)) :
    ∃ c u, t = c :: u ∧ c.toNat < 128 := by
  obtain ⟨a, u, hatoms, ha, -⟩ := h
  have ht := join_atoms t
  rw [hatoms, Atom.join_cons] at ht
  rcases ha with rfl | ⟨c, rfl⟩
  · exact ⟨'$', _, ht.symm, by decide⟩
  · exact ⟨'\\', _, ht.symm, by decide⟩

/-- A delimiter has at least a byte. -/
theorem Region.Delimiting.width_pos {t : Text} (h : Delimiting (atoms t)) : 0 < Text.width t := by
  obtain ⟨c, u, rfl, -⟩ := h.exists_cons
  exact Text.width_pos (List.cons_ne_nil c u)

/-- A text begins with a delimiter exactly if its atoms do. -/
theorem Region.Delimiting.prefix_join_iff {t : Text} (h : Delimiting (atoms t)) {as : List Atom}
    (has : atoms (Atom.join as) = as) : t <+: Atom.join as ↔ atoms t <+: as := by
  constructor
  · rintro ⟨rest, hrest⟩
    rw [← has, ← hrest, atoms_append_of_forall fun a ha => (h.forall_mem a ha).1]
    exact List.prefix_append _ _
  · rintro ⟨rest, rfl⟩
    rw [Atom.join_append, join_atoms]
    exact List.prefix_append _ _

/-- The bytes of a text tell whether it begins with a delimiter. -/
theorem Region.Delimiting.isPrefixOf_utf8 {t : Text} (h : Delimiting (atoms t)) {as : List Atom}
    (has : atoms (Atom.join as) = as) :
    (Text.utf8 t).isPrefixOf (Text.utf8 (Atom.join as)) = (atoms t).isPrefixOf as := by
  rw [Bool.eq_iff_iff, List.isPrefixOf_iff_prefix, List.isPrefixOf_iff_prefix,
    Text.utf8_prefix_iff, h.prefix_join_iff has]

namespace ByteSearch

variable {s : ByteSearch} {i : Nat}

/-! ## Reading -/

/-- The bytes up to the limit are as many as there are to it. -/
theorem rest?_bounds {bs : List UInt8} (h : s.rest? i = some bs) :
    i + bs.length = s.limit ∧ s.limit ≤ Text.width s.text := by
  rw [rest?, Option.ite_none_right_eq_some] at h
  obtain ⟨⟨hi, hlimit⟩, hbs⟩ := h
  rw [← Option.some.inj hbs, List.length_drop, List.length_take, Text.length_utf8,
    Nat.min_eq_left hlimit]
  exact ⟨Nat.add_sub_of_le hi, hlimit⟩

/-- What is left behind some of the bytes. -/
theorem rest?_add {bs : List UInt8} (h : s.rest? i = some bs) {k : Nat} (hk : k ≤ bs.length) :
    s.rest? (i + k) = some (bs.drop k) := by
  obtain ⟨hlength, hlimit⟩ := rest?_bounds h
  rw [rest?, Option.ite_none_right_eq_some] at h
  rw [rest?, if_pos ⟨by omega, hlimit⟩, ← Option.some.inj h.2, List.drop_drop]

/-- The first of the bytes that are left is read. -/
theorem byte?_of_rest? {b : UInt8} {bs : List UInt8} (h : s.rest? i = some (b :: bs)) :
    s.byte? i = some b := by
  have hlt : i < s.limit := by
    have := (rest?_bounds h).1
    rw [List.length_cons] at this
    omega
  rw [rest?, Option.ite_none_right_eq_some] at h
  have hhead := congrArg List.head? (Option.some.inj h.2)
  rw [List.head?_drop, List.getElem?_take, if_pos hlt] at hhead
  rw [byte?, if_pos hlt, hhead]
  rfl

/-! ## Inside of characters -/

/-- Whether the byte at an index belongs to a character from 128 on. -/
def Inside (s : ByteSearch) (i : Nat) : Prop := ∃ b bs, s.rest? i = some (b :: bs) ∧ 128 ≤ b

/-- All bytes of a character from 128 on are inside of it. -/
theorem inside_of_rest? {c : Char} (hc : 128 ≤ c.toNat) {t : Text}
    (h : s.rest? i = some (Text.utf8 (c :: t))) {k : Nat} (hk : k < c.utf8Size) :
    s.Inside (i + k) := by
  rw [← String.length_utf8EncodeChar] at hk
  rw [Text.utf8_cons] at h
  have hrest := rest?_add h (k := k) (by rw [List.length_append]; omega)
  rw [List.drop_append_of_le_length (Nat.le_of_lt hk), List.drop_eq_getElem_cons hk,
    List.cons_append] at hrest
  exact ⟨_, _, hrest, Text.le_of_mem_utf8EncodeChar hc _ (List.getElem_mem hk)⟩

/-- Inside of a character the limit is still to come. -/
theorem Inside.lt (h : s.Inside i) : i < s.limit ∧ s.limit ≤ Text.width s.text := by
  obtain ⟨b, bs, hrest, -⟩ := h
  obtain ⟨hlength, hlimit⟩ := rest?_bounds hrest
  rw [List.length_cons] at hlength
  exact ⟨by omega, hlimit⟩

/-- Inside of a character no byte is that of a character below 128. -/
theorem Inside.exists_byte? (h : s.Inside i) :
    ∃ b, s.byte? i = some b ∧ ∀ d : Char, d.toNat < 128 → b ≠ d.toUInt8 := by
  obtain ⟨b, bs, hrest, hb⟩ := h
  refine ⟨b, byte?_of_rest? hrest, ?_⟩
  rintro d hd rfl
  exact absurd hb (UInt8.not_le.2 (Text.toUInt8_lt_of_ascii hd))

/-- No delimiter stands inside of a character. -/
theorem Inside.startsWith? (h : s.Inside i) {t : Text} (ht : Delimiting (atoms t)) :
    s.startsWith? t i = some false := by
  obtain ⟨b, bs, hrest, hb⟩ := h
  obtain ⟨c, u, rfl, hc⟩ := ht.exists_cons
  have hne : c.toUInt8 ≠ b := by
    rintro rfl
    exact absurd hb (UInt8.not_le.2 (Text.toUInt8_lt_of_ascii hc))
  rw [ByteSearch.startsWith?, hrest, Text.utf8_cons, Text.utf8EncodeChar_of_ascii hc]
  simp [List.isPrefixOf_cons_cons, hne]

/-- Inside of a character the search goes on byte by byte. -/
theorem Inside.ahead?_step? (hs : Text.width s.text < 2 ^ 32) (h : s.Inside i) :
    Word.ahead? i (s.step? i) = some ⟨i + 1, Nat.lt_succ_self i⟩ := by
  obtain ⟨b, hbyte, hb⟩ := h.exists_byte?
  have hlt := h.lt
  rw [ByteSearch.step?, hbyte]
  simp only [Option.bind_eq_bind, Option.bind_some, if_neg (hb '\\' (by decide)),
    if_neg (hb '%' (by decide))]
  rw [Word.add?_eq (by omega)]
  exact Word.ahead?_eq _

/-! ## In front of atoms -/

/-- Whether the search stands at an index in front of some atoms, which are the last ones up to its
limit. -/
structure Stands (s : ByteSearch) (i : Nat) (as : List Atom) : Prop where
  split : ∃ front back, s.text = front ++ Atom.join as ++ back ∧ Text.width front = i
  limit_eq : s.limit = i + Text.width (Atom.join as)
  atoms_join : atoms (Atom.join as) = as

namespace Stands

variable {a : Atom} {as bs : List Atom}

/-- The limit is no further than the end of the document. -/
theorem limit_le (h : s.Stands i as) : s.limit ≤ Text.width s.text := by
  obtain ⟨front, back, htext, rfl⟩ := h.split
  rw [h.limit_eq, htext, Text.width_append, Text.width_append]
  exact Nat.le_add_right _ _

/-- In front of an atom the limit is still to come. -/
theorem lt (h : s.Stands i (a :: as)) : i < s.limit := by
  have := a.width_pos
  rw [h.limit_eq, Atom.join_cons, Text.width_append, ← Atom.width]
  omega

/-- The text in front of which the search stands. -/
theorem slice? (h : s.Stands i as) : Text.slice? i s.limit s.text = some (Atom.join as) := by
  obtain ⟨front, back, htext, rfl⟩ := h.split
  rw [h.limit_eq, htext]
  exact Text.slice?_width_append front (Atom.join as) back

/-- The text of the first atoms in front of which the search stands. -/
theorem slice?_append (h : s.Stands i (as ++ bs)) :
    Text.slice? i (i + Text.width (Atom.join as)) s.text = some (Atom.join as) := by
  obtain ⟨front, back, htext, rfl⟩ := h.split
  rw [htext, Atom.join_append, List.append_assoc, List.append_assoc, ← List.append_assoc]
  exact Text.slice?_width_append front (Atom.join as) (Atom.join bs ++ back)

/-- The bytes in front of which the search stands. -/
theorem rest? (h : s.Stands i as) : s.rest? i = some (Text.utf8 (Atom.join as)) := by
  obtain ⟨front, back, htext, rfl⟩ := h.split
  have hlimit : (Text.utf8 (front ++ Atom.join as)).length = s.limit := by
    rw [Text.length_utf8, Text.width_append, h.limit_eq]
  rw [ByteSearch.rest?, if_pos ⟨by rw [h.limit_eq]; exact Nat.le_add_right _ _, h.limit_le⟩, htext,
    Text.utf8_append, List.take_left' hlimit, Text.utf8_append,
    List.drop_left' (Text.length_utf8 front)]

/-- Behind the first atoms the search stands in front of the others. -/
theorem append (h : s.Stands i (as ++ bs)) : s.Stands (i + Text.width (Atom.join as)) bs := by
  obtain ⟨front, back, htext, rfl⟩ := h.split
  refine ⟨⟨front ++ Atom.join as, back, ?_, Text.width_append _ _⟩, ?_,
    (atoms_join_of_append h.atoms_join).2⟩
  · rw [htext, Atom.join_append]
    simp only [List.append_assoc]
  · rw [h.limit_eq, Atom.join_append, Text.width_append, Nat.add_assoc]

/-- Behind the first atom the search stands in front of the others. -/
theorem tail (h : s.Stands i (a :: as)) : s.Stands (i + a.width) as := by
  have hcons : s.Stands i ([a] ++ as) := h
  have hnext := hcons.append
  rwa [Atom.join_cons, Atom.join_nil, List.append_nil] at hnext

/-- The first byte of an atom tells its first character, if that is below 128. -/
theorem exists_byte? (h : s.Stands i (a :: as)) :
    ∃ b, s.byte? i = some b ∧
      ∀ d : Char, d.toNat < 128 → (b = d.toUInt8 ↔ a.text.head? = some d) := by
  obtain ⟨c, u, ha⟩ := List.exists_cons_of_ne_nil a.text_ne_nil
  obtain ⟨b, bs, hbytes, hb⟩ := Text.exists_utf8_cons c (u ++ Atom.join as)
  have hrest := h.rest?
  rw [Atom.join_cons, ha, List.cons_append, hbytes] at hrest
  refine ⟨b, byte?_of_rest? hrest, fun d hd => ?_⟩
  rw [hb d hd, ha, List.head?_cons, Option.some_inj]

/-- Whether a delimiter stands in front of the search. -/
theorem startsWith? (h : s.Stands i as) {t : Text} (ht : Delimiting (atoms t)) :
    s.startsWith? t i = some ((atoms t).isPrefixOf as) := by
  rw [ByteSearch.startsWith?, h.rest?, ← ht.isPrefixOf_utf8 h.atoms_join]
  rfl

end Stands

end ByteSearch

/-! ## Strides -/

/-- The number of bytes that a step over an atom takes. It is less than the width of the atom if
that holds a character from 128 on, and more if the atom is a backslash at the end. -/
def Atom.stride : Atom → Nat
  | plain _ => 1
  | escape _ | backslash => 2
  | comment body => (comment body).width

/-- Every step goes ahead. -/
theorem Atom.stride_pos : ∀ a : Atom, 0 < a.stride
  | plain _ => Nat.one_pos
  | escape _ | backslash => Nat.two_pos
  | comment body => (comment body).width_pos

namespace ByteSearch

variable {s : ByteSearch} {i : Nat} {a : Atom} {as : List Atom}

/-- A comment is passed over up to the newline that ends it, or to the limit. -/
theorem Stands.skipComment? (hs : Text.width s.text < 2 ^ 32) {body : Text}
    (h : s.Stands i (.comment body :: as)) :
    s.skipComment? i = some (i + (Atom.comment body).width) := by
  obtain ⟨hbegins, -⟩ := begins_of_atoms h.atoms_join
  have hbody : '\n'.toUInt8 ∉ Text.utf8 ('%' :: body) := by
    rw [Text.ascii_mem_utf8_iff (by decide)]
    cases hbegins with
    | comment hbody => simpa using fun hmem => hbody '\n' hmem rfl
  have hnone : (Text.utf8 ('%' :: body)).findIdx? (· = '\n'.toUInt8) = none := by
    rw [List.findIdx?_eq_none_iff]
    intro b hb
    simpa using fun (heq : b = '\n'.toUInt8) => hbody (heq ▸ hb)
  have hle := h.limit_le
  have hwidth := h.limit_eq
  rw [Atom.join_cons, Text.width_append, ← Atom.width] at hwidth
  rw [ByteSearch.skipComment?, h.rest?, Atom.join_cons, Atom.text, Text.utf8_append]
  simp only [Option.bind_eq_bind, Option.bind_some]
  rw [List.findIdx?_append, hnone, Option.none_or, Text.length_utf8, ← Atom.text, ← Atom.width]
  cases hjoin : Atom.join as with
  | nil =>
      -- the comment runs up to the limit
      rw [hjoin] at hwidth
      simpa using hwidth
  | cons c u =>
      obtain rfl : c = '\n' := by
        cases hbegins with
        | comment _ hnewline => exact hnewline c (by rw [hjoin]; rfl)
      rw [Text.utf8_cons, Text.utf8EncodeChar_of_ascii (by decide), List.singleton_append,
        List.findIdx?_cons, if_pos (by decide)]
      simp only [Option.map_some, Nat.zero_add]
      exact Word.add?_eq (by omega)

/-- **The step over an atom.** -/
theorem Stands.step?_eq (hs : Text.width s.text < 2 ^ 32) (h : s.Stands i (a :: as)) :
    s.step? i = some (i + a.stride) := by
  obtain ⟨b, hbyte, hb⟩ := h.exists_byte?
  have hlt := h.lt
  have hle := h.limit_le
  rw [ByteSearch.step?, hbyte]
  simp only [Option.bind_eq_bind, Option.bind_some, hb '\\' (by decide), hb '%' (by decide)]
  cases a with
  -- a plain character is passed by its first byte
  | plain c =>
      obtain ⟨hbegins, -⟩ := begins_of_atoms h.atoms_join
      cases hbegins with
      | plain hbackslash hpercent =>
          simpa [Atom.text, hbackslash, hpercent, Atom.stride] using
            Word.add?_eq (m := i) (n := 1) (by omega)
  | escape c => simpa [Atom.text, Atom.stride] using Word.add?_eq (m := i) (n := 2) (by omega)
  | comment body => simpa [Atom.text, Atom.stride] using h.skipComment? hs
  | backslash => simpa [Atom.text, Atom.stride] using Word.add?_eq (m := i) (n := 2) (by omega)

/-- So the loop goes on behind it. -/
theorem Stands.ahead?_step? (hs : Text.width s.text < 2 ^ 32) (h : s.Stands i (a :: as)) :
    Word.ahead? i (s.step? i) = some ⟨i + a.stride, Nat.lt_add_of_pos_right a.stride_pos⟩ := by
  rw [h.step?_eq hs]
  exact Word.ahead?_eq _

/-! ## Walks -/

/-- A walk along the bytes, by what it comes to from each index: inside of characters it goes on
byte by byte, and it ends at the limit or behind it. -/
structure Walks {β : Type} (s : ByteSearch) (walk : Nat → β) : Prop where
  inside : ∀ i, s.Inside i → walk i = walk (i + 1)
  past : ∀ i, s.limit ≤ i → walk i = walk s.limit

namespace Walks

variable {β : Type} {walk : Nat → β}

/-- A walk comes to the end of the character that it is inside of. -/
theorem add_utf8Size (hw : Walks s walk) {c : Char} (hc : 128 ≤ c.toNat) {t : Text}
    (h : s.rest? i = some (Text.utf8 (c :: t))) {k : Nat} (hk : k ≤ c.utf8Size) :
    walk (i + k) = walk (i + c.utf8Size) := by
  obtain ⟨n, hn⟩ := Nat.exists_eq_add_of_le hk
  induction n generalizing k with
  | zero => rw [hn, Nat.add_zero]
  | succ n ih =>
      rw [hw.inside _ (inside_of_rest? hc h (by omega)), Nat.add_assoc]
      exact ih (by omega) (by omega)

/-- **A walk comes to the same** behind the stride of an atom and behind the atom. -/
theorem eq_add_width (hw : Walks s walk) (h : s.Stands i (a :: as)) :
    walk (i + a.stride) = walk (i + a.width) := by
  have hrest := h.rest?
  rw [Atom.join_cons] at hrest
  cases a with
  | plain c =>
      have hwidth : (Atom.plain c).width = c.utf8Size := rfl
      rw [hwidth, Atom.stride]
      by_cases hc : c.toNat < 128
      · rw [Text.utf8Size_of_ascii hc]
      · exact hw.add_utf8Size (Nat.le_of_not_lt hc) hrest c.utf8Size_pos
  | escape c =>
      have hwidth : (Atom.escape c).width = 1 + c.utf8Size := rfl
      rw [hwidth, Atom.stride]
      by_cases hc : c.toNat < 128
      · rw [Text.utf8Size_of_ascii hc]
      · -- the search stands on the second byte of the character, or behind it
        have htail : s.rest? (i + 1) = some (Text.utf8 (c :: Atom.join as)) := by
          rw [Atom.text, List.cons_append, Text.utf8_cons,
            Text.utf8EncodeChar_of_ascii (by decide)] at hrest
          exact rest?_add hrest (by simp)
        rw [← Nat.add_assoc]
        exact hw.add_utf8Size (Nat.le_of_not_lt hc) htail c.utf8Size_pos
  | comment body => rfl
  | backslash =>
      -- nothing stands behind a backslash at the end
      obtain ⟨hbegins, -⟩ := begins_of_atoms h.atoms_join
      have hlimit := h.limit_eq
      generalize hjoin : Atom.join as = u at hbegins
      cases hbegins
      rw [Atom.join_cons, hjoin, List.append_nil, ← Atom.width] at hlimit
      rw [← hlimit]
      refine hw.past _ ?_
      rw [hlimit]
      exact Nat.add_le_add_left (by decide) i

end Walks

end ByteSearch

end MathEdit
