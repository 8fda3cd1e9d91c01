import MathEdit.Proofs.Region.Seams
import MathEdit.Proofs.Tags
import MathEdit.Region.Search

/-! # Opening delimiters

What `Region.matchHead` does depends on the first few atoms only. There is one equation for each
opening delimiter, one for atoms where the end of a piece has cut an opening delimiter short, and
one for atoms with no opening delimiter at the front. -/

namespace MathEdit.Region

/-! ## The atoms of the delimiters -/

/-- Two dollars are two atoms. -/
theorem atoms_dollars : atoms "$$".toList = [.plain '$', .plain '$'] := by cbv

/-- They delimit display math on either side. -/
theorem atoms_displayDollar :
    atoms Delimiters.displayDollar.opening = [.plain '$', .plain '$'] ∧
      atoms Delimiters.displayDollar.closing = [.plain '$', .plain '$'] :=
  ⟨atoms_dollars, atoms_dollars⟩

/-- One dollar delimits inline math. -/
theorem atoms_inlineDollar :
    atoms Delimiters.inlineDollar.opening = [.plain '$'] ∧
      atoms Delimiters.inlineDollar.closing = [.plain '$'] := by
  constructor <;> cbv

/-- Brackets are escaped. -/
theorem atoms_displayBracket :
    atoms Delimiters.displayBracket.opening = [.escape '['] ∧
      atoms Delimiters.displayBracket.closing = [.escape ']'] := by
  constructor <;> cbv

/-- So are parentheses. -/
theorem atoms_inlineParen :
    atoms Delimiters.inlineParen.opening = [.escape '('] ∧
      atoms Delimiters.inlineParen.closing = [.escape ')'] := by
  constructor <;> cbv

/-- The atoms that start an opening tag. -/
theorem atoms_openingStart :
    atoms Environment.openingStart = .escape 'b' :: ['e', 'g', 'i', 'n', '{'].map .plain := by cbv

/-- Whether a text has no backslash and no percent sign is seen by looking. -/
theorem plain_of_all {s : Text} (h : s.all (fun c => c ≠ '\\' ∧ c ≠ '%') = true) :
    ∀ c ∈ s, c ≠ '\\' ∧ c ≠ '%' := by simpa using h

/-- A text without backslashes and percent signs is made of plain atoms. -/
theorem atoms_of_plain {s : Text} (h : ∀ c ∈ s, c ≠ '\\' ∧ c ≠ '%') : atoms s = s.map .plain := by
  induction s with
  | nil => exact atoms_nil
  | cons c s ih =>
      rw [atoms_plain (h c List.mem_cons_self).1 (h c List.mem_cons_self).2,
        ih fun d hd => h d (List.mem_cons_of_mem c hd), List.map_cons]

/-- A name without backslashes and percent signs keeps the opening tag around it plain. -/
theorem atoms_openingTag_eq_cons {name : Text} (h : ∀ c ∈ name, c ≠ '\\' ∧ c ≠ '%') :
    atoms (Environment.openingTag name) =
      .escape 'b' :: (['e', 'g', 'i', 'n', '{'] ++ name ++ ['}']).map .plain := by
  have hplain : ∀ c ∈ ['e', 'g', 'i', 'n', '{'] ++ name ++ ['}'], c ≠ '\\' ∧ c ≠ '%' := by
    simp only [List.mem_append]
    rintro c ((hc | hc) | hc)
    · exact plain_of_all (by decide) c hc
    · exact h c hc
    · exact plain_of_all (by decide) c hc
  have htag : Environment.openingTag name =
      '\\' :: 'b' :: (['e', 'g', 'i', 'n', '{'] ++ name ++ ['}']) := by
    rw [Environment.openingTag, Environment.openingStart_eq]
    rfl
  rw [htag, atoms_escape, atoms_of_plain hplain]

/-- An opening tag is its start, the name and the closing brace. -/
theorem atoms_openingTag {name : Text} (h : ∀ c ∈ name, c ≠ '\\' ∧ c ≠ '%') :
    atoms (Environment.openingTag name) =
      atoms Environment.openingStart ++ name.map .plain ++ [.plain '}'] := by
  rw [atoms_openingTag_eq_cons h, atoms_openingStart]
  simp

/-- A name without backslashes and percent signs keeps the closing tag around it plain. -/
theorem atoms_closingTag {name : Text} (h : ∀ c ∈ name, c ≠ '\\' ∧ c ≠ '%') :
    atoms (Environment.closingTag name) =
      .escape 'e' :: (['n', 'd', '{'] ++ name ++ ['}']).map .plain := by
  have hplain : ∀ c ∈ ['n', 'd', '{'] ++ name ++ ['}'], c ≠ '\\' ∧ c ≠ '%' := by
    simp only [List.mem_append]
    rintro c ((hc | hc) | hc)
    · exact plain_of_all (by decide) c hc
    · exact h c hc
    · exact plain_of_all (by decide) c hc
  have htag : Environment.closingTag name =
      '\\' :: 'e' :: (['n', 'd', '{'] ++ name ++ ['}']) := by
    rw [Environment.closingTag, Environment.closingStart_eq]
    rfl
  rw [htag, atoms_escape, atoms_of_plain hplain]

/-! ## Names in opening tags -/

/-- A character of a name is none that cannot be in one. -/
theorem ne_of_isNameCharacter {c d : Char} (hc : isNameCharacter c = true)
    (hd : isNameCharacter d = false) : c ≠ d := by
  rintro rfl
  rw [hc] at hd
  cases hd

/-- So names have no backslashes and percent signs. -/
theorem plain_of_isNameCharacter {name : Text} (h : ∀ c ∈ name, isNameCharacter c = true) :
    ∀ c ∈ name, c ≠ '\\' ∧ c ≠ '%' := fun c hc =>
  ⟨ne_of_isNameCharacter (h c hc) (by decide), ne_of_isNameCharacter (h c hc) (by decide)⟩

/-- What is read as a name is made of name characters. -/
theorem isNameCharacter_of_nameRun {as rest : List Atom} {name : Text}
    (h : nameRun as = (name, rest)) : ∀ c ∈ name, isNameCharacter c = true := by
  fun_induction nameRun as generalizing name with
  | case1 c as hc n r hr ih =>
      obtain ⟨rfl, rfl⟩ := Prod.mk.inj h
      exact List.forall_mem_cons.2 ⟨hc, ih hr⟩
  | case2 =>
      obtain ⟨rfl, rfl⟩ := Prod.mk.inj h
      simp
  | case3 =>
      obtain ⟨rfl, rfl⟩ := Prod.mk.inj h
      simp

/-- Names that are read from an opening tag hold neither backslashes nor percent signs. -/
theorem plain_of_nameRun {as rest : List Atom} {name : Text} (h : nameRun as = (name, rest)) :
    ∀ c ∈ name, c ≠ '\\' ∧ c ≠ '%' :=
  plain_of_isNameCharacter (isNameCharacter_of_nameRun h)

/-! ## What stands at the front -/

variable {accepts : Text → Bool} {more : Bool}

/-- An opening delimiter is cut short when the piece ends before the last of its atoms. -/
theorem cutShort_iff {as : List Atom} :
    cutShort as = true ↔ as = [.backslash] ∨
      (as <+: [.plain '$', .plain '$'] ∧ as ≠ [.plain '$', .plain '$']) ∨
      (as <+: atoms Environment.openingStart ∧ as ≠ atoms Environment.openingStart) := by
  rw [cutShort, atoms_dollars]
  simp [List.isPrefixOf_iff_prefix]

/-- Two dollars start display math. -/
theorem matchHead_dollars (as : List Atom) :
    matchHead accepts more (.plain '$' :: .plain '$' :: as) =
      conclude more .displayDollar (closedBy? [.plain '$', .plain '$'] as) := by
  have hcut : cutShort (.plain '$' :: .plain '$' :: as) = false := by
    simp [Bool.eq_false_iff, cutShort_iff, atoms_openingStart]
  simp only [matchHead, hcut, Bool.false_eq_true, if_false, atoms_displayDollar.2]

/-- A dollar with something else behind it starts inline math. -/
theorem matchHead_dollar {a : Atom} (ha : a ≠ .plain '$') (as : List Atom) :
    matchHead accepts more (.plain '$' :: a :: as) =
      conclude more .inlineDollar (splitAround? [.plain '$'] (a :: as)) := by
  have hcut : cutShort (.plain '$' :: a :: as) = false := by
    simp [Bool.eq_false_iff, cutShort_iff, atoms_openingStart]
  rw [matchHead, hcut]
  simp only [Bool.false_eq_true, if_false]
  split
  · next he => exact absurd (List.cons.inj (List.cons.inj he).2).1 ha
  · next he => rw [(List.cons.inj he).2]
  · next he => exact absurd (List.cons.inj he).1 (by simp)
  · next he => exact absurd (List.cons.inj he).1 (by simp)
  · next hno _ _ => exact absurd rfl (hno _)

/-- Behind an escaped bracket the other one is looked for. -/
theorem matchHead_bracket (as : List Atom) :
    matchHead accepts more (.escape '[' :: as) =
      conclude more .displayBracket (closedBy? [.escape ']'] as) := by
  have hcut : cutShort (.escape '[' :: as) = false := by
    simp [Bool.eq_false_iff, cutShort_iff, atoms_openingStart]
  simp only [matchHead, hcut, Bool.false_eq_true, if_false, atoms_displayBracket.2]

/-- Behind an escaped parenthesis too. -/
theorem matchHead_paren (as : List Atom) :
    matchHead accepts more (.escape '(' :: as) =
      conclude more .inlineParen (closedBy? [.escape ')'] as) := by
  have hcut : cutShort (.escape '(' :: as) = false := by
    simp [Bool.eq_false_iff, cutShort_iff, atoms_openingStart]
  simp only [matchHead, hcut, Bool.false_eq_true, if_false, atoms_inlineParen.2]

/-- An opening tag is read up to its name before anything else. -/
theorem matchHead_environment (as : List Atom) :
    matchHead accepts more (.escape 'b' :: (['e', 'g', 'i', 'n', '{'].map .plain ++ as)) =
      matchEnvironment accepts more as := by
  have hcut : cutShort (.escape 'b' :: (['e', 'g', 'i', 'n', '{'].map .plain ++ as)) = false := by
    simp [Bool.eq_false_iff, cutShort_iff, atoms_openingStart]
  rw [matchHead, hcut]
  simp [atoms_openingStart, dropAtoms?]

/-- A name that the end of a piece has cut off may go on. -/
theorem matchEnvironment_atEnd {as : List Atom} {name : Text} (h : nameRun as = (name, [])) :
    matchEnvironment accepts more as = .atEnd more := by
  rw [matchEnvironment, h]

/-- A name with a brace behind it is the name of an environment, if it is accepted. -/
theorem matchEnvironment_brace {as body : List Atom} {name : Text}
    (h : nameRun as = (name, .plain '}' :: body)) :
    matchEnvironment accepts more as =
      if accepts name then
        conclude more (.environment name)
          (balancedBy? (atoms (Environment.openingTag name)) (atoms (Environment.closingTag name)) 0
            body)
      else .absent := by
  simp only [matchEnvironment, h]

/-- Nothing but a brace ends the name of an environment. -/
theorem matchEnvironment_other {as rest : List Atom} {a : Atom} {name : Text}
    (h : nameRun as = (name, a :: rest)) (ha : a ≠ .plain '}') :
    matchEnvironment accepts more as = .absent := by
  rw [matchEnvironment, h]
  split
  · next he => simp at he
  · next he => exact absurd (List.cons.inj (Prod.mk.inj he).2).1 ha
  · rfl

/-- Where the end of a piece has cut an opening delimiter short, the document may hold math. -/
theorem matchHead_of_cutShort {as : List Atom} (h : cutShort as = true) :
    matchHead accepts more as = .atEnd more := by
  rw [matchHead, if_pos h]

/-- An opening delimiter, or the part of one that a cut has left, is at the front of some atoms. -/
inductive Opens : List Atom → Prop where
  | dollar (as : List Atom) : Opens (.plain '$' :: as)
  | bracket (as : List Atom) : Opens (.escape '[' :: as)
  | paren (as : List Atom) : Opens (.escape '(' :: as)
  | environment (as : List Atom) :
      Opens (.escape 'b' :: (['e', 'g', 'i', 'n', '{'].map .plain ++ as))

/-- Without an opening delimiter at the front there is no math there. -/
theorem matchHead_of_not_opens {as : List Atom} (h : ¬ Opens as) (hc : cutShort as = false) :
    matchHead accepts more as = .absent := by
  unfold matchHead
  rw [hc]
  simp only [Bool.false_eq_true, if_false]
  -- each arm that matches starts with an opening delimiter
  split
  · exact absurd (.dollar _) h
  · exact absurd (.dollar _) h
  · exact absurd (.bracket _) h
  · exact absurd (.paren _) h
  · split
    · next rest hd =>
        rw [append_of_dropAtoms? hd, atoms_openingStart] at h
        exact absurd (.environment rest) h
    · rfl

/-- In the whole document an opening delimiter that is cut short opens nothing. -/
theorem matchHead_whole_of_not_opens {as : List Atom} (h : ¬ Opens as) :
    matchHead accepts false as = .absent := by
  by_cases hc : cutShort as = true
  · exact matchHead_of_cutShort hc
  · exact matchHead_of_not_opens h (Bool.eq_false_iff.2 hc)

/-! ## One step of the walk along the document -/

/-- The region of a match whose first atom is at `position`. -/
def Match.region (m : Match) (position : Nat) : Region :=
  ⟨position, m.delimiters, Atom.join m.body⟩

/-- Nothing that starts past the offset contains it. -/
theorem findContaining_of_lt {offset position : Nat} (h : offset < position) (as : List Atom) :
    findContaining accepts more offset position as = .absent := by
  cases as with
  | nil => rw [findContaining]
  | cons a as => rw [findContaining, if_pos h]

/-- Where there is no math the walk goes on to the next atom. -/
theorem findContaining_of_absent {offset position : Nat} {a : Atom} {as : List Atom}
    (h : position ≤ offset) (hm : matchHead accepts more (a :: as) = .absent) :
    findContaining accepts more offset position (a :: as) =
      findContaining accepts more offset (position + a.width) as := by
  rw [findContaining, if_neg (Nat.not_lt.2 h)]
  split <;> simp_all

/-- A region that does not reach the offset is passed over as a whole. -/
theorem findContaining_of_found {offset position : Nat} {a : Atom} {as : List Atom} {m : Match}
    (h : position ≤ offset) (hm : matchHead accepts more (a :: as) = .found m) :
    findContaining accepts more offset position (a :: as) =
      if offset ≤ (m.region position).stop then .found (m.region position)
      else findContaining accepts more offset (m.region position).stop m.rest := by
  rw [findContaining, if_neg (Nat.not_lt.2 h)]
  split
  · simp_all
  · simp_all
  · next m' hm' =>
      obtain rfl := Search.found.inj (hm.symm.trans hm')
      rfl

end MathEdit.Region
