import MathEdit.Proofs.Region.Balance
import MathEdit.Proofs.Region.Bytes.Steps

/-! # Closing delimiters in bytes

Each loop that looks for a closing delimiter is a walk along the bytes, and it comes to what the
search among the atoms in front of it finds, without a failing access: `closeAt` says where that is.
The search for the end of an environment passes over the tags inside as a whole, and so counts them
as the search among the atoms does, which finds nothing inside of a tag.

* **`findCloser?_start`**, **`findDollar?_eq`**, **`findEnd?_eq`**: what each of the loops comes
  to. -/

namespace MathEdit

open Region

namespace ByteSearch

/-- The index of the closing delimiter that a search among atoms from index `i` on has found, if
there is anything between `start` and that index. -/
def closeAt (more : Bool) (start i : Nat) : Option (List Atom × List Atom) → Search Nat
  | none => .atEnd more
  | some (body, _) =>
      if start < i + Text.width (Atom.join body) then .found (i + Text.width (Atom.join body))
      else .absent

/-- What is found right away is found if there is content before it. -/
theorem closeAt_nil (more : Bool) (start i : Nat) (rest : List Atom) :
    closeAt more start i (some ([], rest)) = if start < i then .found i else .absent := rfl

/-- With some atoms put in front of what was found, the search starts before them. -/
theorem closeAt_map_append (more : Bool) (start i : Nat) (as : List Atom)
    (found : Option (List Atom × List Atom)) :
    closeAt more start i (found.map fun (body, rest) => (as ++ body, rest)) =
      closeAt more start (i + Text.width (Atom.join as)) found := by
  cases found with
  | none => rfl
  | some m =>
      rw [Option.map_some, closeAt, closeAt, Atom.join_append, Text.width_append, Nat.add_assoc]

/-- What is found behind one more atom is as much further on. -/
theorem closeAt_map_cons (more : Bool) (start i : Nat) (a : Atom)
    (found : Option (List Atom × List Atom)) :
    closeAt more start i (found.map fun (body, rest) => (a :: body, rest)) =
      closeAt more start (i + a.width) found := by
  have h := closeAt_map_append more start i [a] found
  rwa [Atom.join_cons, Atom.join_nil, List.append_nil] at h

variable {s : ByteSearch} {i start : Nat} {as : List Atom}

/-- What a loop comes to in front of nothing. -/
theorem Stands.not_lt_limit (h : s.Stands i []) : ¬ i < s.limit := by
  rw [h.limit_eq]
  exact Nat.lt_irrefl i

/-! ## Closing delimiters behind content -/

/-- The search for a closing delimiter walks along the bytes. -/
theorem walks_findCloser? (hs : Text.width s.text < 2 ^ 32) {closing : Text}
    (hclosing : Delimiting (atoms closing)) (start : Nat) :
    Walks s (s.findCloser? closing start) := by
  constructor
  · intro i hi
    have hno : (if start < i then s.startsWith? closing i else some false) = some false := by
      rw [hi.startsWith? hclosing, ite_self]
    rw [findCloser?, if_pos hi.lt.1, hno, hi.ahead?_step? hs]
    rfl
  · intro i hi
    rw [findCloser?, if_neg (Nat.not_lt.2 hi), findCloser?, if_neg (Nat.lt_irrefl _)]

/-- Behind the start of the content the first closing delimiter is found. -/
theorem findCloser?_eq (hs : Text.width s.text < 2 ^ 32) {closing : Text}
    (hclosing : Delimiting (atoms closing)) (h : s.Stands i as) (hlt : start < i) :
    s.findCloser? closing start i =
      some (closeAt s.more start i (splitAround? (atoms closing) as)) := by
  -- on the atoms up to the limit: the search goes over one of them in one step or byte by byte
  induction as generalizing i with
  | nil =>
      rw [findCloser?, if_neg h.not_lt_limit]
      rfl
  | cons a as ih =>
      rw [findCloser?, if_pos h.lt, if_pos hlt, h.startsWith? hclosing, h.ahead?_step? hs]
      simp only [Option.bind_eq_bind, Option.bind_some]
      by_cases hfront : (atoms closing).isPrefixOf (a :: as) = true
      · rw [if_pos hfront, splitAround?, if_pos hfront, closeAt_nil, if_pos hlt]
        rfl
      · rw [if_neg hfront, splitAround?, if_neg hfront, closeAt_map_cons,
          (walks_findCloser? hs hclosing start).eq_add_width h]
        exact ih h.tail (Nat.lt_of_lt_of_le hlt (Nat.le_add_right _ _))

/-- **From the start of the content** the first closing delimiter behind an atom is found. -/
theorem findCloser?_start (hs : Text.width s.text < 2 ^ 32) {closing : Text}
    (hclosing : Delimiting (atoms closing)) (h : s.Stands i as) :
    s.findCloser? closing i i = some (closeAt s.more i i (closedBy? (atoms closing) as)) := by
  cases as with
  | nil =>
      rw [findCloser?, if_neg h.not_lt_limit]
      rfl
  | cons a as =>
      rw [findCloser?, if_pos h.lt, if_neg (Nat.lt_irrefl i)]
      simp only [Option.bind_eq_bind, Option.bind_some, Bool.false_eq_true, if_false,
        h.ahead?_step? hs]
      rw [closedBy?, closeAt_map_cons, (walks_findCloser? hs hclosing i).eq_add_width h]
      exact findCloser?_eq hs hclosing h.tail (Nat.lt_add_of_pos_right a.width_pos)

/-! ## Dollars -/

/-- So does the search for a dollar. -/
theorem walks_findDollar? (hs : Text.width s.text < 2 ^ 32) (start : Nat) :
    Walks s (s.findDollar? start) := by
  constructor
  · intro i hi
    obtain ⟨b, hbyte, hb⟩ := hi.exists_byte?
    rw [findDollar?, if_pos hi.lt.1, hbyte, hi.ahead?_step? hs]
    simp only [Option.bind_eq_bind, Option.bind_some, if_neg (hb '$' (by decide))]
  · intro i hi
    rw [findDollar?, if_neg (Nat.not_lt.2 hi), findDollar?, if_neg (Nat.lt_irrefl _)]

/-- Of all atoms only the plain dollar starts with a dollar. -/
theorem head?_text_eq_dollar_iff {a : Atom} : a.text.head? = some '$' ↔ .plain '$' = a := by
  cases a <;> simp [Atom.text, eq_comm]

/-- **The first dollar** is found, if it is not at the start of the content. -/
theorem findDollar?_eq (hs : Text.width s.text < 2 ^ 32) (h : s.Stands i as) :
    s.findDollar? start i = some (closeAt s.more start i (splitAround? [.plain '$'] as)) := by
  induction as generalizing i with
  | nil =>
      rw [findDollar?, if_neg h.not_lt_limit]
      rfl
  | cons a as ih =>
      obtain ⟨b, hbyte, hb⟩ := h.exists_byte?
      rw [findDollar?, if_pos h.lt, hbyte, splitAround?]
      simp only [Option.bind_eq_bind, Option.bind_some, hb '$' (by decide),
        head?_text_eq_dollar_iff, List.isPrefixOf_iff_prefix, List.cons_prefix_cons,
        List.nil_prefix, and_true]
      -- the byte is a dollar just if the atom is one
      by_cases ha : .plain '$' = a
      · rw [if_pos ha, if_pos ha]
        rfl
      · rw [if_neg ha, if_neg ha, h.ahead?_step? hs, Option.bind_some, closeAt_map_cons,
          (walks_findDollar? hs start).eq_add_width h]
        exact ih h.tail

/-! ## Tags -/

/-- An atom in front that starts neither tag changes nothing. -/
theorem balancedBy?_cons_of_not {opening closing : List Atom} {a : Atom}
    (hopening : ¬ opening <+: a :: as) (hclosing : ¬ closing <+: a :: as) (depth : Nat) :
    balancedBy? opening closing depth (a :: as) =
      (balancedBy? opening closing depth as).map fun (body, rest) => (a :: body, rest) := by
  rw [← List.isPrefixOf_iff_prefix] at hopening hclosing
  simp only [balancedBy?, if_neg hopening, if_neg hclosing]

section

variable {opening closing : List Atom} {c d : Char} {u v : Text}
  (hopening : opening = .escape c :: u.map .plain) (hclosing : closing = .escape d :: v.map .plain)
include hopening hclosing

/-- Plain characters in front change nothing, since tags start with an escape. -/
theorem balancedBy?_append_plain (w : Text) (depth : Nat) (as : List Atom) :
    balancedBy? opening closing depth (w.map .plain ++ as) =
      (balancedBy? opening closing depth as).map
        fun (body, rest) => (w.map .plain ++ body, rest) := by
  subst hopening hclosing
  induction w with
  | nil => exact Option.map_id'.symm
  | cons e w ih =>
      rw [List.map_cons, List.cons_append, balancedBy?_cons_of_not (by simp) (by simp), ih,
        Option.map_map]
      rfl

/-- A closing tag in front closes a level. -/
theorem balancedBy?_closing_append (depth : Nat) :
    balancedBy? opening closing (depth + 1) (closing ++ as) =
      (balancedBy? opening closing depth as).map fun (body, rest) => (closing ++ body, rest) := by
  have hfront := List.isPrefixOf_iff_prefix.2 (List.prefix_append closing as)
  have hplain := balancedBy?_append_plain hopening hclosing v depth as
  subst hopening hclosing
  rw [List.cons_append] at hfront ⊢
  simp only [balancedBy?, if_pos hfront]
  rw [hplain, Option.map_map]
  rfl

/-- An opening tag in front opens another level. -/
theorem balancedBy?_opening_append (hcd : c ≠ d) (depth : Nat) :
    balancedBy? opening closing depth (opening ++ as) =
      (balancedBy? opening closing (depth + 1) as).map
        fun (body, rest) => (opening ++ body, rest) := by
  have hfront := List.isPrefixOf_iff_prefix.2 (List.prefix_append opening as)
  have hplain := balancedBy?_append_plain hopening hclosing u (depth + 1) as
  have hno : ¬ closing.isPrefixOf (opening ++ as) = true := by
    simp [hopening, hclosing, hcd.symm]
  subst hopening hclosing
  rw [List.cons_append] at hfront hno ⊢
  simp only [balancedBy?, if_neg hno, if_pos hfront]
  rw [hplain, Option.map_map]
  rfl

end

section

variable {name : Text} (hname : ∀ c ∈ name, isNameCharacter c = true)
include hname

/-- And the search for the end of an environment. -/
theorem walks_findEnd? (hs : Text.width s.text < 2 ^ 32) (start depth : Nat) :
    Walks s (s.findEnd? name start depth) := by
  obtain ⟨hopening, hclosing⟩ := delimiting_tags hname
  constructor
  · intro i hi
    rw [findEnd?, if_pos hi.lt.1, hi.startsWith? hclosing, hi.startsWith? hopening,
      hi.ahead?_step? hs]
    rfl
  · intro i hi
    rw [findEnd?, if_neg (Nat.not_lt.2 hi), findEnd?, if_neg (Nat.lt_irrefl _)]

/-- **The end of an environment** is behind the closing tag that balances. -/
theorem findEnd?_eq (hs : Text.width s.text < 2 ^ 32) {depth : Nat} (h : s.Stands i as)
    (hdepth : depth ≤ i) :
    s.findEnd? name start depth i =
      some ((closeAt s.more start i (balancedBy? (atoms (Environment.openingTag name))
        (atoms (Environment.closingTag name)) depth as)).map
          (· + Text.width (Environment.closingTag name))) := by
  obtain ⟨hopening, hclosing⟩ := delimiting_tags hname
  have hopens := atoms_openingTag_eq_cons (plain_of_isNameCharacter hname)
  have hcloses := atoms_closingTag (plain_of_isNameCharacter hname)
  have hshorter {tag rest : List Atom} (htag : tag ≠ []) {n : Nat}
      (hn : (tag ++ rest).length = n) : rest.length < n := by
    have := List.length_pos_iff.2 htag
    rw [List.length_append] at hn
    omega
  -- a tag is passed over as a whole, so the induction is on the number of atoms
  induction hn : as.length using Nat.strong_induction_on generalizing i depth as with
  | _ n ih =>
  cases as with
  | nil =>
      rw [findEnd?, if_neg h.not_lt_limit, balancedBy?, closeAt]
      cases s.more <;> rfl
  | cons a as =>
      have hlimit := h.limit_le
      have hlt := h.lt
      rw [findEnd?, if_pos h.lt, h.startsWith? hclosing, h.startsWith? hopening, h.ahead?_step? hs]
      simp only [Option.bind_eq_bind, Option.bind_some]
      by_cases hfront : (atoms (Environment.closingTag name)).isPrefixOf (a :: as) = true
      · obtain ⟨rest, hrest⟩ := List.isPrefixOf_iff_prefix.1 hfront
        rw [if_pos hfront]
        rw [← hrest] at h hn ⊢
        have hnext := h.append
        rw [join_atoms] at hnext
        have hend := hnext.limit_eq
        rw [Word.add?_eq (by omega)]
        cases depth with
        | zero =>
            have hfound : balancedBy? (atoms (Environment.openingTag name))
                (atoms (Environment.closingTag name)) 0
                ([] ++ atoms (Environment.closingTag name) ++ rest) = some ([], rest) :=
              balancedBy?_append hclosing.ne_nil (by simp)
            rw [List.nil_append] at hfound
            rw [if_pos rfl, hfound, closeAt_nil]
            split <;> rfl
        | succ depth =>
            rw [if_neg (Nat.succ_ne_zero depth),
              Word.sub?_eq (Nat.succ_le_succ (Nat.zero_le depth)), Option.bind_some,
              Word.ahead?_eq (Nat.lt_add_of_pos_right hclosing.width_pos), Option.bind_some,
              Nat.succ_sub_one, balancedBy?_closing_append hopens hcloses, closeAt_map_append,
              join_atoms]
            exact ih _ (hshorter hclosing.ne_nil hn) hnext
              (Nat.le_trans (Nat.le_of_succ_le hdepth) (Nat.le_add_right _ _)) rfl
      · rw [if_neg hfront]
        by_cases hopen : (atoms (Environment.openingTag name)).isPrefixOf (a :: as) = true
        · obtain ⟨rest, hrest⟩ := List.isPrefixOf_iff_prefix.1 hopen
          rw [if_pos hopen]
          rw [← hrest] at h hn ⊢
          have hnext := h.append
          rw [join_atoms] at hnext
          have hend := hnext.limit_eq
          rw [Word.add?_eq (by omega), Option.bind_some, Word.add?_eq (by omega),
            Word.ahead?_eq (Nat.lt_add_of_pos_right hopening.width_pos), Option.bind_some,
            balancedBy?_opening_append hopens hcloses (by decide), closeAt_map_append, join_atoms]
          exact ih _ (hshorter hopening.ne_nil hn) hnext
            (Nat.add_le_add hdepth hopening.width_pos) rfl
        · rw [if_neg hopen, (walks_findEnd? hname hs start depth).eq_add_width h,
            balancedBy?_cons_of_not (mt List.isPrefixOf_iff_prefix.2 hopen)
              (mt List.isPrefixOf_iff_prefix.2 hfront), closeAt_map_cons]
          exact ih _ (by rw [← hn]; exact Nat.lt_succ_self _) h.tail
            (Nat.le_trans hdepth (Nat.le_add_right _ _)) rfl

end

end ByteSearch

end MathEdit
