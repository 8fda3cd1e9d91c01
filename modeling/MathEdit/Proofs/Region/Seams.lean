import Mathlib.Data.List.Basic
import MathEdit.Proofs.Text.Runs
import MathEdit.Region.Atom

/-! # Documents in two pieces

A document `s ++ t` may be looked at one piece at a time. Only the last atom of `s` can depend on
`t`: a backslash that ends `s` takes the first character of `t` along, and a comment that runs to
the end of `s` runs on.

* **`Atom.isOpen`**: the atoms that text behind them could change.
* **`atoms_append`**: at a seam where no open atom stands, the atoms are those of the two pieces.
* **`Atom.Shows as bs`**: `as` is what is left of the atoms `bs` when a document is cut off
  somewhere; `shows_atoms` says that this is what a cut does. -/

namespace MathEdit

namespace Atom

/-- Whether text behind an atom could become part of it. -/
def isOpen : Atom → Bool
  | .backslash | .comment _ => true
  | _ => false

/-- Every atom has some text. -/
theorem text_ne_nil (a : Atom) : a.text ≠ [] := by
  cases a <;> exact List.cons_ne_nil _ _

/-- Every atom takes up room. -/
theorem width_pos (a : Atom) : 0 < a.width := Text.width_pos a.text_ne_nil

end Atom

/-! ## The atoms at the front -/

/-- There are no atoms in an empty text. -/
@[simp] theorem atoms_nil : atoms [] = [] := by rw [atoms]

/-- A backslash that ends the text stands alone. -/
theorem atoms_backslash : atoms ['\\'] = [.backslash] := by rw [atoms.eq_def]; rfl

/-- A backslash with a character behind it is an escape. -/
theorem atoms_escape (c : Char) (t : Text) : atoms ('\\' :: c :: t) = .escape c :: atoms t := by
  rw [atoms.eq_def]; rfl

/-- A percent sign starts a comment, which leaves the newline that ends it. -/
theorem atoms_comment (t : Text) :
    atoms ('%' :: t) = .comment (t.takeWhile (· ≠ '\n')) :: atoms (t.dropWhile (· ≠ '\n')) := by
  rw [atoms.eq_def]; rfl

/-- Any other character is an atom by itself. -/
theorem atoms_plain {c : Char} (hb : c ≠ '\\') (hp : c ≠ '%') (t : Text) :
    atoms (c :: t) = .plain c :: atoms t := by
  rw [atoms.eq_def]
  simp only [if_neg hb, if_neg hp]

/-! ## Seams -/

/-- Where the last atom of the first piece is not open, the atoms of a document are those of its
two pieces. -/
theorem atoms_append {s : Text} (h : ∀ a ∈ (atoms s).getLast?, a.isOpen = false) (t : Text) :
    atoms (s ++ t) = atoms s ++ atoms t := by
  fun_induction atoms s with
  | case1 => rfl
  | case2 => simp [Atom.isOpen] at h
  | case3 c rest ih =>
      rw [List.cons_append, List.cons_append, atoms_escape, List.cons_append,
        ih fun a ha => h a (List.mem_getLast?_cons ha)]
  | case4 rest _ ih =>
      -- a comment that runs to the end would be the last atom
      have hstop : rest.dropWhile (· ≠ '\n') ≠ [] := by
        intro hd
        rw [hd] at h
        simp [Atom.isOpen] at h
      rw [List.cons_append, atoms_comment, Text.takeWhile_append_of_stops hstop,
        Text.dropWhile_append_of_stops hstop, ih fun a ha => h a (List.mem_getLast?_cons ha)]
      rfl
  | case5 c rest hb hp ih =>
      rw [List.cons_append, atoms_plain hb hp, List.cons_append,
        ih fun a ha => h a (List.mem_getLast?_cons ha)]

/-- A newline is an atom by itself unless a backslash stands before it. -/
theorem getLast?_atoms_newline {s : Text} (h : s.getLast? ≠ some '\\') :
    (atoms (s ++ ['\n'])).getLast? = some (.plain '\n') := by
  have hnl : atoms ['\n'] = [.plain '\n'] := by
    rw [atoms_plain (by decide) (by decide), atoms_nil]
  fun_induction atoms s with
  | case1 => rw [List.nil_append, hnl]; rfl
  | case2 => simp at h
  | case3 c rest ih =>
      rw [List.cons_append, List.cons_append, atoms_escape]
      exact List.mem_getLast?_cons (ih fun hr =>
        h (List.mem_getLast?_cons (List.mem_getLast?_cons hr)))
  | case4 rest _ ih =>
      have hdrop : (rest ++ ['\n']).dropWhile (· ≠ '\n') =
          rest.dropWhile (· ≠ '\n') ++ ['\n'] := by
        rw [List.dropWhile_append]
        split
        · next hd => rw [List.isEmpty_iff.1 hd]; rfl
        · rfl
      rw [List.cons_append, atoms_comment, hdrop]
      refine List.mem_getLast?_cons (ih fun hr => h (List.mem_getLast?_cons ?_))
      rw [← List.takeWhile_append_dropWhile (p := (· ≠ '\n')) (l := rest)]
      exact List.mem_getLast?_append_of_mem_getLast? hr
  | case5 c rest hb hp ih =>
      rw [List.cons_append, atoms_plain hb hp]
      exact List.mem_getLast?_cons (ih fun hr => h (List.mem_getLast?_cons hr))

/-! ## Documents that are cut off -/

/-- What is left of a list of atoms when the document is cut off: the atoms before the cut, where
an escape keeps at least its backslash and a comment its percent sign. -/
inductive Atom.Shows : List Atom → List Atom → Prop where
  | nil (bs : List Atom) : Shows [] bs
  | backslash (c : Char) (bs : List Atom) : Shows [.backslash] (.escape c :: bs)
  | comment (body body' : Text) (bs : List Atom) : Shows [.comment body] (.comment body' :: bs)
  | cons (a : Atom) {as bs : List Atom} (h : Shows as bs) : Shows (a :: as) (a :: bs)

/-- The atoms of a piece at the front are what a cut behind it leaves of the document. -/
theorem shows_atoms (s t : Text) : Atom.Shows (atoms s) (atoms (s ++ t)) := by
  fun_induction atoms s with
  | case1 => exact .nil _
  | case2 =>
      cases t with
      | nil =>
          rw [List.append_nil, atoms_backslash]
          exact .cons _ (.nil _)
      | cons c t =>
          -- the backslash takes the first character of `t` along
          rw [List.singleton_append, atoms_escape]
          exact .backslash c _
  | case3 c rest ih =>
      rw [List.cons_append, List.cons_append, atoms_escape]
      exact .cons _ ih
  | case4 rest _ ih =>
      rw [List.cons_append, atoms_comment]
      by_cases hd : rest.dropWhile (· ≠ '\n') = []
      · -- the comment runs on in `t`
        rw [hd, atoms_nil]
        exact .comment _ _ _
      · rw [Text.takeWhile_append_of_stops hd, Text.dropWhile_append_of_stops hd]
        exact .cons _ ih
  | case5 c rest hb hp ih =>
      rw [List.cons_append, atoms_plain hb hp]
      exact .cons _ ih

end MathEdit
