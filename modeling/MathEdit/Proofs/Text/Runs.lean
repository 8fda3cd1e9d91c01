import MathEdit.Text

/-! # Runs at the front of a text

A run is the longest part at the front of a text whose characters lie in a class. What a run does
when more text is appended depends only on whether it stops before the end. -/

namespace MathEdit.Text

variable {α : Type} {p : α → Bool}

/-- The room of two texts is that of both together. -/
theorem width_append (s t : Text) : width (s ++ t) = width s + width t :=
  measure_append Char.utf8Size s t

/-- A text is as wide backwards. -/
theorem width_reverse (t : Text) : width t.reverse = width t := by
  induction t with
  | nil => rfl
  | cons c t ih => simp [ih, Nat.add_comm]

/-- Every text with a character in it takes up room. -/
theorem width_pos {t : Text} (h : t ≠ []) : 0 < width t := by
  obtain ⟨c, t, rfl⟩ := List.exists_cons_of_ne_nil h
  have := c.utf8Size_pos
  rw [width, measure_cons]
  omega

/-- A run that stops before the end is not changed by what is appended. -/
theorem takeWhile_append_of_stops {xs : List α} (h : xs.dropWhile p ≠ []) (ys : List α) :
    (xs ++ ys).takeWhile p = xs.takeWhile p := by
  rw [List.takeWhile_append, if_neg]
  intro hl
  have htd := congrArg List.length (List.takeWhile_append_dropWhile (p := p) (l := xs))
  rw [List.length_append] at htd
  exact h (List.length_eq_zero_iff.1 (by omega))

/-- What follows a run that stops before the end is followed by what is appended. -/
theorem dropWhile_append_of_stops {xs : List α} (h : xs.dropWhile p ≠ []) (ys : List α) :
    (xs ++ ys).dropWhile p = xs.dropWhile p ++ ys := by
  rw [List.dropWhile_append, if_neg]
  rwa [List.isEmpty_iff]

/-- There is no run in front of what starts outside of the class. -/
theorem takeWhile_eq_nil {xs : List α} (h : ∀ x ∈ xs.head?, p x = false) :
    xs.takeWhile p = [] := by
  cases xs with
  | nil => rfl
  | cons x xs => simp [h x rfl]

/-- A run of members of the class takes all of them, and then goes on. -/
theorem takeWhile_append_of_all {xs : List α} (h : ∀ x ∈ xs, p x = true) {ys : List α}
    (hy : ∀ y ∈ ys.head?, p y = false) : (xs ++ ys).takeWhile p = xs := by
  rw [List.takeWhile_append_of_pos h, takeWhile_eq_nil hy, List.append_nil]

/-- What follows a run of members of the class starts outside of it. -/
theorem dropWhile_append_of_all {xs : List α} (h : ∀ x ∈ xs, p x = true) {ys : List α}
    (hy : ∀ y ∈ ys.head?, p y = false) : (xs ++ ys).dropWhile p = ys := by
  rw [List.dropWhile_append_of_pos h]
  cases ys with
  | nil => rfl
  | cons y ys => simp [hy y rfl]

/-- Where a run stops, the next element lies outside of the class. -/
theorem head?_dropWhile (xs : List α) : ∀ x ∈ (xs.dropWhile p).head?, p x = false := by
  induction xs with
  | nil => simp
  | cons x xs ih =>
      rw [List.dropWhile_cons]
      split
      · exact ih
      · next hx => simpa using hx

end MathEdit.Text
