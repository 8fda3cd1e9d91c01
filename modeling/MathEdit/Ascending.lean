/-! # Sets kept as ascending lists

A finite set of ordered values is kept as the list of its members in strictly ascending order, so
equal sets are equal lists. `Ascending.insert` adds one member and `Ascending.ofList` collects the
members of any list.
-/

namespace MathEdit.Ascending

variable {α : Type} [DecidableEq α] [LT α] [DecidableLT α]

/-- Adds `x` to an ascending list, at its place and only if it is missing. -/
def insert (x : α) : List α → List α
  | [] => [x]
  | y :: ys => if x < y then x :: y :: ys else if x = y then y :: ys else y :: insert x ys

/-- The members of a list in ascending order, each once. -/
def ofList (xs : List α) : List α := xs.foldr insert []

/-- What is added joins the members of the list. -/
@[simp] theorem mem_insert {x y : α} {ys : List α} : y ∈ insert x ys ↔ y = x ∨ y ∈ ys := by
  induction ys with
  | nil => simp [insert]
  | cons z zs ih =>
      simp only [insert]
      split
      · simp
      · split
        · next h => subst h; simp
        · simp only [List.mem_cons, ih]
          exact or_left_comm

/-- Putting a list in order keeps its members. -/
@[simp] theorem mem_ofList {x : α} {xs : List α} : x ∈ ofList xs ↔ x ∈ xs := by
  induction xs with
  | nil => simp [ofList]
  | cons y ys ih => simpa [ofList] using or_congr_right ih

variable {x : α} {xs : List α}

section

variable [Trans (· < · : α → α → Prop) (· < ·) (· < ·)]
  [Std.Trichotomous (· < · : α → α → Prop)]

/-- A member that is added to an ascending list comes to its place. -/
theorem pairwise_insert (h : xs.Pairwise (· < ·)) : (insert x xs).Pairwise (· < ·) := by
  induction xs with
  | nil => exact List.pairwise_singleton _ _
  | cons y ys ih =>
      obtain ⟨hy, hys⟩ := List.pairwise_cons.1 h
      rw [insert]
      split
      · next hlt =>
          refine List.pairwise_cons.2 ⟨List.forall_mem_cons.2 ⟨hlt, ?_⟩, h⟩
          exact fun z hz => Trans.trans hlt (hy z hz)
      · next hnlt =>
          split
          · exact h
          · next hne =>
              refine List.pairwise_cons.2 ⟨?_, ih hys⟩
              intro z hz
              rcases mem_insert.1 hz with rfl | hz
              · exact Decidable.byContradiction fun hngt =>
                  hne (Std.Trichotomous.trichotomous _ _ hnlt hngt)
              · exact hy z hz

/-- The members of a list are put in ascending order, each once. -/
theorem pairwise_ofList (xs : List α) : (ofList xs).Pairwise (· < ·) := by
  induction xs with
  | nil => exact List.Pairwise.nil
  | cons x xs ih => exact pairwise_insert ih

end

/-- An ascending list is a set as it is. -/
theorem ofList_eq_self (h : xs.Pairwise (· < ·)) : ofList xs = xs := by
  induction xs with
  | nil => rfl
  | cons x xs ih =>
      obtain ⟨hx, hxs⟩ := List.pairwise_cons.1 h
      rw [ofList, List.foldr_cons, ← ofList, ih hxs]
      cases xs with
      | nil => rfl
      | cons y ys => exact if_pos (hx y List.mem_cons_self)

end MathEdit.Ascending
