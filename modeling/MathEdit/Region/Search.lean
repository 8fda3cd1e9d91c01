import MathEdit.Region
import MathEdit.Region.Atom

/-! # Searching atoms for math

`Region.matchHead` looks for math that starts at the first of a list of atoms, and
`Region.findContaining` walks along the atoms, over whole regions, to the first region that contains
an offset. The atoms may be a piece of a longer document: when a search comes to the end of the
piece and could have gone on, it is `inconclusive` rather than `absent`.
-/

namespace MathEdit

/-- The outcome of a search. -/
inductive Search (α : Type) where
  | found (result : α)
  /-- There is none, whatever follows the piece that was searched. -/
  | absent
  /-- The piece ended first. -/
  | inconclusive
  deriving DecidableEq, Repr

/-- The outcome of a search that finds nothing at the end of its piece, where `more` says that the
document goes on. -/
def Search.atEnd {α : Type} (more : Bool) : Search α := if more then .inconclusive else .absent

/-- What a search has found. -/
def Search.toOption {α : Type} : Search α → Option α
  | found result => some result
  | _ => none

/-- What a search has found is all that it gives. -/
@[simp] theorem Search.toOption_eq_some_iff {α : Type} {s : Search α} {a : α} :
    s.toOption = some a ↔ s = .found a := by
  cases s <;> simp [toOption]

namespace Region

/-! ## Closing delimiters -/

/-- The atoms before the first occurrence of a pattern, and those after it. -/
def splitAround? (pattern : List Atom) : List Atom → Option (List Atom × List Atom)
  | [] => none
  | a :: as =>
      if pattern.isPrefixOf (a :: as) then some ([], (a :: as).drop pattern.length)
      else (splitAround? pattern as).map fun (body, rest) => (a :: body, rest)

/-- The atoms before a closing delimiter and those after it, where at least one atom comes first. -/
def closedBy? (closing : List Atom) : List Atom → Option (List Atom × List Atom)
  | [] => none
  | a :: as => (splitAround? closing as).map fun (body, rest) => (a :: body, rest)

/-- The atoms before the `closing` tag that balances, and those after it, where `depth` environments
of the same name are open inside. -/
def balancedBy? (opening closing : List Atom) : (depth : Nat) → List Atom →
    Option (List Atom × List Atom)
  | _, [] => none
  | depth, a :: as =>
      if closing.isPrefixOf (a :: as) then
        match depth with
        | 0 => some ([], (a :: as).drop closing.length)
        | depth + 1 =>
            (balancedBy? opening closing depth as).map fun (body, rest) => (a :: body, rest)
      else
        let depth := if opening.isPrefixOf (a :: as) then depth + 1 else depth
        (balancedBy? opening closing depth as).map fun (body, rest) => (a :: body, rest)

/-! ## Math at the front -/

/-- The front of a list of atoms that is math, and the atoms after it. -/
structure Match where
  delimiters : Delimiters
  body : List Atom
  rest : List Atom
  deriving DecidableEq, Repr

/-- Whether a character can be part of a name in an opening tag. -/
def isNameCharacter (c : Char) : Bool := c.isAlphanum || c = '*'

/-- The longest run of name characters at the front, and the atoms after it. -/
def nameRun : List Atom → Text × List Atom
  | .plain c :: as =>
      if isNameCharacter c then
        let (name, rest) := nameRun as
        (c :: name, rest)
      else ([], .plain c :: as)
  | as => ([], as)

/-- The atoms after a pattern, if it is at the front. -/
def dropAtoms? (pattern as : List Atom) : Option (List Atom) :=
  if pattern.isPrefixOf as then some (as.drop pattern.length) else none

/-- Whether all of the atoms are the beginning of an opening delimiter that the end of the piece has
cut short. -/
def cutShort (as : List Atom) : Bool :=
  as = [.backslash] ||
    [atoms "$$".toList, atoms Environment.openingStart].any fun opener =>
      as.isPrefixOf opener && as ≠ opener

/-- The outcome of looking for a closing delimiter. Math must not be empty. -/
def conclude (more : Bool) (delimiters : Delimiters) :
    Option (List Atom × List Atom) → Search Match
  | none => .atEnd more
  | some ([], _) => .absent
  | some (body, rest) => .found ⟨delimiters, body, rest⟩

/-- Looks for the environment whose opening tag has been read up to its name. -/
def matchEnvironment (accepts : Text → Bool) (more : Bool) (as : List Atom) : Search Match :=
  match nameRun as with
  | (_, []) => .atEnd more
  | (name, .plain '}' :: body) =>
      if accepts name then
        conclude more (.environment name)
          (balancedBy? (atoms (Environment.openingTag name)) (atoms (Environment.closingTag name)) 0
            body)
      else .absent
  | _ => .absent

/-- Looks for math that starts at the first atom. Two dollars are tried before one, and math between
single dollars ends at the first dollar. -/
def matchHead (accepts : Text → Bool) (more : Bool) (as : List Atom) : Search Match :=
  if cutShort as then .atEnd more
  else
    let close (d : Delimiters) := closedBy? (atoms d.closing)
    match as with
    | .plain '$' :: .plain '$' :: as => conclude more .displayDollar (close .displayDollar as)
    | .plain '$' :: as => conclude more .inlineDollar (splitAround? [.plain '$'] as)
    | .escape '[' :: as => conclude more .displayBracket (close .displayBracket as)
    | .escape '(' :: as => conclude more .inlineParen (close .inlineParen as)
    | as =>
        match dropAtoms? (atoms Environment.openingStart) as with
        | some as => matchEnvironment accepts more as
        | none => .absent

/-! ## A match and what follows it make up the atoms -/

/-- Around a pattern that is found stands the rest of the atoms. -/
theorem append_of_splitAround? {pattern as body rest : List Atom}
    (h : splitAround? pattern as = some (body, rest)) : as = body ++ pattern ++ rest := by
  induction as generalizing body with
  | nil => simp [splitAround?] at h
  | cons a as ih =>
      simp only [splitAround?] at h
      split at h
      · next hp =>
          obtain ⟨rfl, rfl⟩ := Prod.mk.inj (Option.some.inj h)
          simpa using (List.prefix_iff_eq_append.1 (List.isPrefixOf_iff_prefix.1 hp)).symm
      · obtain ⟨⟨b, r⟩, hb, he⟩ := Option.map_eq_some_iff.1 h
        obtain ⟨rfl, rfl⟩ := Prod.mk.inj he
        simp [ih hb]

/-- So it does around a closing delimiter. -/
theorem append_of_closedBy? {closing as body rest : List Atom}
    (h : closedBy? closing as = some (body, rest)) : as = body ++ closing ++ rest := by
  cases as with
  | nil => simp [closedBy?] at h
  | cons a as =>
      obtain ⟨⟨b, r⟩, hb, he⟩ := Option.map_eq_some_iff.1 h
      obtain ⟨rfl, rfl⟩ := Prod.mk.inj he
      simp [append_of_splitAround? hb]

/-- And around a closing tag. -/
theorem append_of_balancedBy? {opening closing as body rest : List Atom} {depth : Nat}
    (h : balancedBy? opening closing depth as = some (body, rest)) :
    as = body ++ closing ++ rest := by
  induction as generalizing depth body with
  | nil => simp [balancedBy?] at h
  | cons a as ih =>
      have tail {depth : Nat} (h : ((balancedBy? opening closing depth as).map
          fun (body, rest) => (a :: body, rest)) = some (body, rest)) :
          a :: as = body ++ closing ++ rest := by
        obtain ⟨⟨b, r⟩, hb, he⟩ := Option.map_eq_some_iff.1 h
        obtain ⟨rfl, rfl⟩ := Prod.mk.inj he
        simp [ih hb]
      simp only [balancedBy?] at h
      split at h
      · next hp =>
          split at h
          · obtain ⟨rfl, rfl⟩ := Prod.mk.inj (Option.some.inj h)
            simpa using (List.prefix_iff_eq_append.1 (List.isPrefixOf_iff_prefix.1 hp)).symm
          · exact tail h
      · exact tail h

/-- A name and what is left make up the atoms. -/
theorem append_of_nameRun {as rest : List Atom} {name : Text} (h : nameRun as = (name, rest)) :
    as = name.map .plain ++ rest := by
  fun_induction nameRun as generalizing name with
  | case1 c as _ n r hr ih =>
      obtain ⟨rfl, rfl⟩ := Prod.mk.inj h
      simp [ih hr]
  | case2 =>
      obtain ⟨rfl, rfl⟩ := Prod.mk.inj h
      rfl
  | case3 =>
      obtain ⟨rfl, rfl⟩ := Prod.mk.inj h
      rfl

/-- So do a pattern and what is behind it. -/
theorem append_of_dropAtoms? {pattern as rest : List Atom}
    (h : dropAtoms? pattern as = some rest) : as = pattern ++ rest := by
  unfold dropAtoms? at h
  split at h
  · next hp =>
      obtain rfl := Option.some.inj h
      exact (List.prefix_iff_eq_append.1 (List.isPrefixOf_iff_prefix.1 hp)).symm
  · simp at h

/-- Plain atoms make up their characters. -/
theorem join_map_plain (t : Text) : Atom.join (t.map .plain) = t := by
  induction t with
  | nil => rfl
  | cons c t ih => simp [Atom.text, ih]

/-- At the end of a piece nothing is found. -/
theorem atEnd_ne_found {α : Type} {more : Bool} {a : α} : Search.atEnd more ≠ .found a := by
  cases more <;> simp [Search.atEnd]

/-- A match has the two sides of its closing delimiter. -/
theorem eq_of_conclude {more : Bool} {d : Delimiters} {o : Option (List Atom × List Atom)}
    {m : Match} (h : conclude more d o = .found m) :
    o = some (m.body, m.rest) ∧ m.delimiters = d ∧ m.body ≠ [] := by
  unfold conclude at h
  split at h
  · exact absurd h atEnd_ne_found
  · simp at h
  · next body rest hb =>
      obtain rfl := Search.found.inj h
      exact ⟨rfl, rfl, fun he => hb he⟩

/-- The atoms that a match takes: its delimiters and its body, which is not empty. -/
structure Match.Takes (m : Match) (front : List Atom) : Prop where
  join_eq : Atom.join front = m.delimiters.opening ++ Atom.join m.body ++ m.delimiters.closing
  body_ne_nil : m.body ≠ []

/-- So it takes the atoms from its opening delimiter to the closing one. -/
theorem takes_of_conclude {more : Bool} {d : Delimiters} {o : Option (List Atom × List Atom)}
    {m : Match} {as : List Atom} (opening : List Atom) (h : conclude more d o = .found m)
    (hopen : Atom.join opening = d.opening)
    (happend : ∀ body rest, o = some (body, rest) → as = body ++ atoms d.closing ++ rest) :
    ∃ front, opening ++ as = front ++ m.rest ∧ m.Takes front := by
  obtain ⟨ho, hd, hb⟩ := eq_of_conclude h
  refine ⟨opening ++ m.body ++ atoms d.closing, ?_, ?_, hb⟩
  · simp [happend _ _ ho]
  · simp [hopen, hd]

/-- And an environment those from tag to tag. -/
theorem takes_of_matchEnvironment {accepts : Text → Bool} {more : Bool} {as : List Atom}
    {m : Match} (h : matchEnvironment accepts more as = .found m) :
    ∃ front, atoms Environment.openingStart ++ as = front ++ m.rest ∧ m.Takes front := by
  unfold matchEnvironment at h
  split at h
  · exact absurd h atEnd_ne_found
  · next name body hn =>
      split at h
      · have := takes_of_conclude
          (atoms Environment.openingStart ++ (name.map .plain ++ [.plain '}']))
          h (by simp [join_map_plain, Delimiters.opening, Environment.openingTag, Atom.text])
          (fun _ _ => append_of_balancedBy?)
        simpa [append_of_nameRun hn] using this
      · simp at h
  · simp at h

/-- A match takes its delimiters and its body off the front of the atoms. -/
theorem takes_of_matchHead {accepts : Text → Bool} {more : Bool} {as : List Atom} {m : Match}
    (h : matchHead accepts more as = .found m) :
    ∃ front, as = front ++ m.rest ∧ m.Takes front := by
  have hdollar : atoms Delimiters.inlineDollar.closing = [.plain '$'] := by cbv
  unfold matchHead at h
  split at h
  · exact absurd h atEnd_ne_found
  · simp only at h
    split at h
    · exact takes_of_conclude [.plain '$', .plain '$'] h rfl
        fun _ _ => append_of_closedBy?
    · exact takes_of_conclude [.plain '$'] h rfl
        fun _ _ => hdollar ▸ append_of_splitAround?
    · exact takes_of_conclude [.escape '['] h rfl fun _ _ => append_of_closedBy?
    · exact takes_of_conclude [.escape '('] h rfl fun _ _ => append_of_closedBy?
    · split at h
      · next rest hd => exact append_of_dropAtoms? hd ▸ takes_of_matchEnvironment h
      · simp at h

/-- What follows a match is shorter than the atoms it was found in. -/
theorem length_of_matchHead {accepts : Text → Bool} {more : Bool} {as : List Atom} {m : Match}
    (h : matchHead accepts more as = .found m) : m.rest.length < as.length := by
  obtain ⟨front, rfl, ht⟩ := takes_of_matchHead h
  have : front ≠ [] := by
    rintro rfl
    exact m.delimiters.opening_ne_nil
      (List.append_eq_nil_iff.1 (List.append_eq_nil_iff.1 ht.join_eq.symm).1).1
  have := List.length_pos_iff.2 this
  simp only [List.length_append]
  omega

/-! ## Math around an offset -/

/-- The first region that contains `offset`, among those that start in the atoms given; `position`
is the offset of the first atom. A region is passed over as a whole. -/
def findContaining (accepts : Text → Bool) (more : Bool) (offset position : Nat)
    (as : List Atom) : Search Region :=
  match as with
  | [] => .absent
  | a :: rest =>
      if offset < position then .absent
      else
        match _h : matchHead accepts more (a :: rest) with
        | .inconclusive => .inconclusive
        | .absent => findContaining accepts more offset (position + a.width) rest
        | .found m =>
            let region : Region := ⟨position, m.delimiters, Atom.join m.body⟩
            if offset ≤ region.stop then .found region
            else findContaining accepts more offset region.stop m.rest
termination_by as.length
decreasing_by
  · simp
  · exact length_of_matchHead _h

/-- A region that is found stands in the text of the atoms, and contains the offset. -/
theorem sound_of_findContaining {accepts : Text → Bool} {more : Bool} {offset position : Nat}
    {as : List Atom} {r : Region} (h : findContaining accepts more offset position as = .found r) :
    r.StandsIn position (Atom.join as) ∧ r.start ≤ offset ∧ offset ≤ r.stop := by
  fun_induction findContaining accepts more offset position as with
  | case1 => simp at h
  | case2 => simp at h
  | case3 => simp at h
  | case4 position a rest _ _ ih => exact ⟨(ih h).1.prepend, (ih h).2⟩
  | case5 position a rest hp m hm region ho =>
      obtain rfl := Search.found.inj h
      obtain ⟨front, hf, ht⟩ := takes_of_matchHead hm
      refine ⟨⟨[], Atom.join m.rest, ?_, rfl⟩, Nat.le_of_not_lt hp, ho⟩
      rw [hf, Atom.join_append, ht.join_eq]
      rfl
  | case6 position a rest hp m hm region ho ih =>
      obtain ⟨front, hf, ht⟩ := takes_of_matchHead hm
      rw [hf, Atom.join_append, ht.join_eq]
      exact ⟨(ih h).1.prepend, (ih h).2⟩

end Region

end MathEdit
