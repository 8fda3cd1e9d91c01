import MathEdit.Proofs.Region.Closers

/-! # Levels of nesting

The closer of math is found by counting levels, and the count reads nothing of the atoms but the
places where a level opens or closes. What stands in a document may be replaced without changing
what is found before it, if the count cannot tell the difference.

* **`turns`**: the places where a level opens or closes.
* **`turns_append`**: the turns of two runs of atoms side by side.
* **`Delimiters.close?_eq_none_iff`**: a closer is missing exactly if the turns leave a level
  open. -/

namespace MathEdit

namespace Region

/-! ## Turns -/

/-- The places among some atoms where a level opens (`true`) or closes (`false`). -/
def turns (opening closing : List Atom) : List Atom → List Bool
  | [] => []
  | a :: as =>
      if closing.isPrefixOf (a :: as) then false :: turns opening closing as
      else if opening.isPrefixOf (a :: as) then true :: turns opening closing as
      else turns opening closing as

/-- Whether some turns close no levels but those that they open and `depth` more. -/
def staysOpen : (depth : Nat) → List Bool → Bool
  | _, [] => true
  | depth, true :: ts => staysOpen (depth + 1) ts
  | 0, false :: _ => false
  | depth + 1, false :: ts => staysOpen depth ts

/-- No closing tag balances exactly if the turns leave a level open. -/
theorem balancedBy?_eq_none_iff {opening closing : List Atom} {depth : Nat} {as : List Atom} :
    balancedBy? opening closing depth as = none ↔
      staysOpen depth (turns opening closing as) = true := by
  induction as generalizing depth with
  | nil => simp [balancedBy?, turns, staysOpen]
  | cons a as ih =>
      simp only [balancedBy?, turns]
      -- the search asks for the closing tag first
      by_cases hclosing : closing.isPrefixOf (a :: as) = true
      · rw [if_pos hclosing, if_pos hclosing]
        cases depth with
        | zero => simp [staysOpen]
        | succ depth => simp [staysOpen, ih]
      · rw [if_neg hclosing, if_neg hclosing]
        by_cases hopening : opening.isPrefixOf (a :: as) = true <;> simp [hopening, staysOpen, ih]

/-- A pattern that is looked for once is a closing tag that no tag opens. -/
theorem splitAround?_eq_balancedBy? (pattern as : List Atom) :
    splitAround? pattern as = balancedBy? pattern pattern 0 as := by
  induction as with
  | nil => rfl
  | cons a as ih =>
      rw [splitAround?, balancedBy?]
      split
      · rfl
      · simp only [ih]

/-- Levels that are closed where they are opened do not matter. -/
theorem staysOpen_append_pair (depth : Nat) (ts us : List Bool) :
    staysOpen depth (ts ++ [true, false] ++ us) = staysOpen depth (ts ++ us) := by
  induction ts generalizing depth with
  | nil => rfl
  | cons t ts ih =>
      cases t with
      | true => exact ih (depth + 1)
      | false =>
          cases depth with
          | zero => rfl
          | succ depth => exact ih depth

section

variable {opening closing as bs : List Atom}

/-- The turns of two runs of atoms are those of each, if no tag reaches from one into the other. -/
theorem turns_append
    (h : ∀ cs, cs <:+ as → cs ≠ [] →
      (opening <+: cs ++ bs → opening <+: cs) ∧ (closing <+: cs ++ bs → closing <+: cs)) :
    turns opening closing (as ++ bs) = turns opening closing as ++ turns opening closing bs := by
  induction as with
  | nil => rfl
  | cons a as ih =>
      obtain ⟨hopening, hclosing⟩ := h (a :: as) List.suffix_rfl (List.cons_ne_nil a as)
      -- no tag runs over the seam, so each tail sees the same tags
      have hfront {p : List Atom} (hp : p <+: a :: as ++ bs → p <+: a :: as) :
          p.isPrefixOf (a :: (as ++ bs)) = p.isPrefixOf (a :: as) := by
        rw [Bool.eq_iff_iff, List.isPrefixOf_iff_prefix, List.isPrefixOf_iff_prefix]
        exact ⟨hp, fun hp => hp.trans (List.prefix_append (a :: as) bs)⟩
      rw [List.cons_append, turns, turns, hfront hopening, hfront hclosing,
        ih fun cs hcs => h cs (hcs.trans (List.suffix_cons a as))]
      split
      · rfl
      · split <;> rfl

/-- No tag reaches into atoms whose first one is not inside of a tag. -/
theorem turns_append_of_head
    (h : ∀ a ∈ bs.head?, a ∉ opening.tail ∧ a ∉ closing.tail) :
    turns opening closing (as ++ bs) = turns opening closing as ++ turns opening closing bs := by
  apply turns_append
  intro cs _ hne
  cases bs with
  | nil => simp
  | cons b bs =>
      obtain ⟨hopening, hclosing⟩ := h b rfl
      simp only [← List.isPrefixOf_iff_prefix, isPrefixOf_append_of_notMem hopening hne,
        isPrefixOf_append_of_notMem hclosing hne, imp_self, and_self]

/-- No tag reaches out of atoms whose last one can only end a tag. -/
theorem turns_append_of_last
    (h : ∀ a ∈ as.getLast?, a ∉ opening.dropLast ∧ a ∉ closing.dropLast) :
    turns opening closing (as ++ bs) = turns opening closing as ++ turns opening closing bs := by
  have hfit {p cs : List Atom} {a : Atom} (ha : cs.getLast? = some a) (hp : a ∉ p.dropLast)
      (h : p <+: cs ++ bs) : p <+: cs := by
    rcases List.prefix_or_prefix_of_prefix h (List.prefix_append cs bs) with hin | ⟨rest, rfl⟩
    · exact hin
    · rcases List.eq_nil_or_concat' rest with rfl | ⟨rest, b, rfl⟩
      · simp
      · -- the last atom would stand inside of the tag
        rw [← List.append_assoc, List.dropLast_concat] at hp
        exact absurd (List.mem_append_left rest (List.mem_of_getLast? ha)) hp
  apply turns_append
  intro cs hcs hne
  obtain ⟨front, rfl⟩ := hcs
  have ha := List.getLast?_eq_some_getLast hne
  obtain ⟨hopening, hclosing⟩ := h _ (List.mem_getLast?_append_of_mem_getLast? ha)
  exact ⟨hfit ha hopening, hfit ha hclosing⟩

/-- Atoms that no tag has make no turns. -/
theorem turns_append_of_notMem (hopening : opening ≠ []) (hclosing : closing ≠ [])
    (h : ∀ a ∈ as, a ∉ opening ∧ a ∉ closing) :
    turns opening closing (as ++ bs) = turns opening closing bs := by
  induction as with
  | nil => rfl
  | cons a as ih =>
      obtain ⟨ha, has⟩ := List.forall_mem_cons.1 h
      have hno {p : List Atom} (hne : p ≠ []) (hp : a ∉ p) (cs : List Atom) :
          ¬ p.isPrefixOf (a :: cs) = true := by
        obtain ⟨b, p, rfl⟩ := List.exists_cons_of_ne_nil hne
        simp [(List.ne_and_not_mem_of_not_mem_cons hp).1.symm]
      rw [List.cons_append, turns, if_neg (hno hclosing ha.2 _), if_neg (hno hopening ha.1 _),
        ih has]

/-- Atoms without the first one of either tag make no turns. -/
theorem turns_eq_nil_of_notMem {a b : Atom} (ha : a ∉ as) (hb : b ∉ as) :
    turns (a :: opening) (b :: closing) as = [] := by
  induction as with
  | nil => rfl
  | cons c as ih =>
      obtain ⟨hac, ha⟩ := List.ne_and_not_mem_of_not_mem_cons ha
      obtain ⟨hbc, hb⟩ := List.ne_and_not_mem_of_not_mem_cons hb
      simp [turns, hac, hbc, ih ha hb]

/-- There are no turns exactly if neither tag occurs. -/
theorem turns_eq_nil_iff_absent (hopening : opening ≠ []) (hclosing : closing ≠ []) :
    turns opening closing as = [] ↔ ¬ opening <:+: as ∧ ¬ closing <:+: as := by
  induction as with
  | nil => simp [turns, hopening, hclosing]
  | cons a as ih =>
      rw [turns, List.infix_cons_iff, List.infix_cons_iff, ← List.isPrefixOf_iff_prefix,
        ← List.isPrefixOf_iff_prefix]
      by_cases hc : closing.isPrefixOf (a :: as) = true
      · simp [hc]
      · by_cases ho : opening.isPrefixOf (a :: as) = true <;> simp [hc, ho, ih]

/-- A tag that opens nothing closes the level at its first occurrence. -/
theorem staysOpen_turns_self_iff {pattern as : List Atom} :
    staysOpen 0 (turns pattern pattern as) = true ↔ turns pattern pattern as = [] := by
  induction as with
  | nil => simp [turns, staysOpen]
  | cons a as ih =>
      rw [turns]
      by_cases hp : pattern.isPrefixOf (a :: as) = true <;> simp [hp, staysOpen, ih]

end

end Region

/-! ## The turns of delimiters -/

namespace Delimiters

open Region

/-- The atoms that open another level inside of math. Only environments nest; for other math it is
the closer, which is looked for first. -/
def nested (d : Delimiters) : List Atom :=
  match d with
  | .environment _ => atoms d.opening
  | .displayDollar | .inlineDollar | .displayBracket | .inlineParen => atoms d.closing

/-- The places where a level of math between some delimiters opens or closes. -/
def turns (d : Delimiters) (as : List Atom) : List Bool :=
  Region.turns d.nested (atoms d.closing) as

/-- The atoms behind an opening delimiter among which its closer can begin. -/
def searched (d : Delimiters) (as : List Atom) : List Atom :=
  match d with
  | .inlineDollar | .environment _ => as
  | .displayDollar | .displayBracket | .inlineParen => as.tail

/-- **A closer is missing** exactly if the turns behind the opening delimiter leave a level open. -/
theorem close?_eq_none_iff {d : Delimiters} {as : List Atom} :
    d.close? as = none ↔ staysOpen 0 (d.turns (d.searched as)) = true := by
  have hclosed (closing : List Atom) : closedBy? closing as = none ↔
      staysOpen 0 (Region.turns closing closing as.tail) = true := by
    rw [← balancedBy?_eq_none_iff, ← splitAround?_eq_balancedBy?]
    cases as with
    | nil => simp [closedBy?, splitAround?]
    | cons a as => simp [closedBy?]
  cases d with
  | inlineDollar => rw [close?, splitAround?_eq_balancedBy?, balancedBy?_eq_none_iff]; rfl
  | environment name => rw [close?, balancedBy?_eq_none_iff]; rfl
  | _ => exact hclosed _

/-- Math that does not nest makes turns exactly where its closer occurs. -/
theorem turns_eq_nil_iff {d : Delimiters} (h : ∀ name, d ≠ .environment name) {as : List Atom} :
    (d.turns as = [] ↔ ¬ atoms d.closing <:+: as) ∧
      (staysOpen 0 (d.turns as) = true ↔ d.turns as = []) := by
  have hself : d.nested = atoms d.closing := by
    cases d with
    | environment name => exact absurd rfl (h name)
    | _ => rfl
  have hne : atoms d.closing ≠ [] := by
    cases d with
    | environment name => exact absurd rfl (h name)
    | displayDollar => simp [atoms_displayDollar.2]
    | inlineDollar => simp [atoms_inlineDollar.2]
    | displayBracket => simp [atoms_displayBracket.2]
    | inlineParen => simp [atoms_inlineParen.2]
  rw [turns, hself]
  refine ⟨?_, staysOpen_turns_self_iff⟩
  rw [turns_eq_nil_iff_absent hne hne, and_self]

end Delimiters

end MathEdit
