import MathEdit.Proofs.Text.Runs

/-! # Cuts of a text

A text in two parts is cut into them at the length of the first, so the offsets of two or three
parts of a text give the parts back. -/

namespace MathEdit.Text

/-- In any unit a text in two parts is cut into them at the length of the first. -/
theorem splitAt?_measure_append {size : Char → Nat} (hsize : ∀ c, 0 < size c) (s t : Text) :
    splitAt? size (measure size s) (s ++ t) = some (s, t) := by
  induction s with
  | nil => cases t <;> rfl
  | cons c s ih =>
      have hpos := hsize c
      obtain ⟨n, hn⟩ : ∃ n, size c + measure size s = n + 1 :=
        ⟨size c + measure size s - 1, by omega⟩
      have hrest : n + 1 - size c = measure size s := by omega
      rw [measure_cons, hn, List.cons_append, splitAt?, if_pos (by omega), hrest, ih]
      rfl

/-- A text in two parts is cut into them at the length of the first. -/
theorem splitAt?_width_append (s t : Text) :
    splitAt? Char.utf8Size (width s) (s ++ t) = some (s, t) :=
  splitAt?_measure_append Char.utf8Size_pos s t

/-- A text is cut where it has two parts, of which the first has the length asked for. -/
theorem splitAt?_eq_some_iff {n : Nat} {t before after : Text} :
    splitAt? Char.utf8Size n t = some (before, after) ↔ before ++ after = t ∧ width before = n := by
  constructor
  · intro h
    exact ⟨append_of_splitAt? h, measure_of_splitAt? h⟩
  · rintro ⟨rfl, rfl⟩
    exact splitAt?_width_append before after

/-- A boundary of a text cuts it into two parts. -/
theorem isSome_boundary?_iff {n : Nat} {t : Text} :
    (boundary? Char.utf8Size n t).isSome = true ↔
      ∃ before after, t = before ++ after ∧ n = width before := by
  rw [boundary?, Option.isSome_map, Option.isSome_iff_exists]
  constructor
  · rintro ⟨⟨before, after⟩, h⟩
    obtain ⟨ht, hn⟩ := splitAt?_eq_some_iff.1 h
    exact ⟨before, after, ht.symm, hn.symm⟩
  · rintro ⟨before, after, rfl, rfl⟩
    exact ⟨_, splitAt?_width_append before after⟩

/-- The middle one of three parts is what stands between their offsets. -/
theorem slice?_width_append (s t u : Text) :
    slice? (width s) (width s + width t) (s ++ t ++ u) = some t := by
  rw [← width_append, slice?, splitAt?_width_append]
  show (splitAt? Char.utf8Size (width s) (s ++ t)).bind _ = _
  rw [splitAt?_width_append]
  rfl

/-- At a boundary, what is taken is what stands before it. -/
theorem takeBytes_width_append (s t : Text) : takeBytes (width s) (s ++ t) = s := by
  have h := takeBytes_append_dropBytes (width s) (s ++ t)
  rwa [dropBytes_width_append, List.append_cancel_right_eq] at h

/-- Rounded up, a cut at a boundary stays there. -/
theorem takeBytesUp_width_append (s t : Text) : takeBytesUp (width s) (s ++ t) = s := by
  induction s with
  | nil => cases t <;> rfl
  | cons c s ih =>
      have hpos := c.utf8Size_pos
      obtain ⟨n, hn⟩ : ∃ n, c.utf8Size + width s = n + 1 := ⟨c.utf8Size + width s - 1, by omega⟩
      have hrest : n + 1 - c.utf8Size = width s := by omega
      rw [List.cons_append, width, measure_cons, ← width, hn, takeBytesUp, hrest, ih]

/-- A cut that is rounded up inside of the first of two texts does not see the second one. -/
theorem takeBytesUp_append {n : Nat} {s : Text} (h : takeBytesUp n s ≠ s) (t : Text) :
    takeBytesUp n (s ++ t) = takeBytesUp n s := by
  induction s generalizing n with
  | nil => exact absurd rfl h
  | cons c s ih =>
      cases n with
      | zero => rfl
      | succ n =>
          rw [takeBytesUp] at h
          rw [List.cons_append, takeBytesUp, takeBytesUp, ih fun heq => h (by rw [heq])]

/-- There is only one way to cut a text at an offset. -/
theorem append_inj_of_width_eq {s t u v : Text} (h : s ++ t = u ++ v) (hw : width s = width u) :
    s = u ∧ t = v := by
  have hs := splitAt?_width_append s t
  rw [h, hw, splitAt?_width_append u v] at hs
  obtain ⟨hu, hv⟩ := Prod.mk.inj (Option.some.inj hs)
  exact ⟨hu.symm, hv.symm⟩

/-- Of two cuts of a text, the later one cuts what the earlier one leaves. -/
theorem exists_append_of_width_le {s t u v : Text} (h : s ++ t = u ++ v)
    (hw : width s ≤ width u) : ∃ m, u = s ++ m ∧ t = m ++ v := by
  obtain ⟨m, hu, ht⟩ | ⟨m, hs, hv⟩ := List.append_eq_append_iff.1 h
  · exact ⟨m, hu, ht⟩
  · rw [hs, width_append] at hw
    have hm : m = [] := Decidable.byContradiction fun hne => by
      have := width_pos hne
      omega
    exact ⟨[], by simp [hs, hm], by simp [hv, hm]⟩

end MathEdit.Text
