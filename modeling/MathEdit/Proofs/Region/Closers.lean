import MathEdit.Proofs.Region.Single

/-! # Opening delimiters and their closers

A look at some atoms finds math if they begin with an opening delimiter whose closer follows. So it
is enough to know which delimiter it is and what the search for its closer says.

* **`Delimiters.close?`**: the search for the closer, behind the opening delimiter.
* **`matchHead_opening`**, **`matchHead_of_unopened`**: what a look at some atoms finds, with an
  opening delimiter in front and without one; `opensWith_or_not` says that there is no third case.
* **`matchHead_congr`**: what is found is found whatever follows it. -/

namespace MathEdit

open Region

/-- The atoms before the closer of an opening delimiter and those after it. -/
def Delimiters.close? (d : Delimiters) (as : List Atom) : Option (List Atom × List Atom) :=
  match d with
  | .inlineDollar => splitAround? (atoms d.closing) as
  | .displayDollar | .displayBracket | .inlineParen => closedBy? (atoms d.closing) as
  | .environment _ => balancedBy? (atoms d.opening) (atoms d.closing) 0 as

namespace Region

variable {accepts : Text → Bool}

/-- Whether some atoms begin with an opening delimiter: one that names an accepted environment, and
one dollar only if there are not two. -/
structure OpensWith (accepts : Text → Bool) (d : Delimiters) (as rest : List Atom) : Prop where
  append_eq : as = atoms d.opening ++ rest
  named : Named accepts d
  dollar : d = .inlineDollar → rest.head? ≠ some (.plain '$')

/-- **Behind an opening delimiter** its closer is looked for. -/
theorem matchHead_opening {d : Delimiters} {as rest : List Atom} (h : OpensWith accepts d as rest) :
    matchHead accepts false as = conclude false d (d.close? rest) := by
  obtain ⟨rfl, hd, hdollar⟩ := h
  cases d with
  | displayDollar =>
      rw [atoms_displayDollar.1, Delimiters.close?, atoms_displayDollar.2]
      exact matchHead_dollars rest
  | inlineDollar =>
      rw [atoms_inlineDollar.1, Delimiters.close?, atoms_inlineDollar.2]
      cases rest with
      | nil => exact matchHead_of_cutShort (cutShort_iff.2 (by simp))
      | cons a rest => exact matchHead_dollar (fun ha => hdollar rfl (by rw [ha]; rfl)) rest
  | displayBracket =>
      rw [atoms_displayBracket.1, Delimiters.close?, atoms_displayBracket.2]
      exact matchHead_bracket rest
  | inlineParen =>
      rw [atoms_inlineParen.1, Delimiters.close?, atoms_inlineParen.2]
      exact matchHead_paren rest
  | environment name =>
      obtain ⟨hname, haccepts⟩ := hd name rfl
      rw [Delimiters.opening, atoms_openingTag (plain_of_isNameCharacter hname),
        atoms_openingStart, List.append_assoc, List.append_assoc, List.cons_append,
        matchHead_environment, List.singleton_append,
        matchEnvironment_brace (nameRun_append hname rest), if_pos haccepts]
      rfl

/-- **Without an opening delimiter** at the front there is no math there. -/
theorem matchHead_of_unopened {as : List Atom}
    (h : ∀ d, Named accepts d → ¬ atoms d.opening <+: as) :
    matchHead accepts false as = .absent := by
  by_cases hopen : Opens as
  · cases hopen with
    | dollar as =>
        exact absurd ⟨as, by rw [atoms_inlineDollar.1]; rfl⟩ (h .inlineDollar (by simp [Named]))
    | bracket as =>
        exact absurd ⟨as, by rw [atoms_displayBracket.1]; rfl⟩ (h .displayBracket (by simp [Named]))
    | paren as =>
        exact absurd ⟨as, by rw [atoms_inlineParen.1]; rfl⟩ (h .inlineParen (by simp [Named]))
    | environment as =>
        rw [matchHead_environment]
        obtain ⟨name, rest, hn⟩ : ∃ name rest, nameRun as = (name, rest) := ⟨_, _, rfl⟩
        cases rest with
        | nil => exact matchEnvironment_atEnd hn
        | cons a rest =>
            -- a name run that no brace closes opens nothing, and one that is closed is an opening
            -- tag
            by_cases ha : a = .plain '}'
            · subst ha
              rw [matchEnvironment_brace hn]
              split
              · next haccepts =>
                  have hd : Named accepts (.environment name) := by
                    rintro _ ⟨⟩
                    exact ⟨isNameCharacter_of_nameRun hn, haccepts⟩
                  refine absurd ⟨rest, ?_⟩ (h _ hd)
                  rw [Delimiters.opening, atoms_openingTag (plain_of_nameRun hn),
                    atoms_openingStart, append_of_nameRun hn]
                  simp
              · rfl
            · exact matchEnvironment_other hn ha
  · exact matchHead_whole_of_not_opens hopen

/-- Some atoms begin with an opening delimiter or they do not. -/
theorem opensWith_or_not (accepts : Text → Bool) (as : List Atom) :
    (∃ d rest, OpensWith accepts d as rest) ∨ ∀ d, Named accepts d → ¬ atoms d.opening <+: as := by
  by_cases h : ∃ d, Named accepts d ∧ atoms d.opening <+: as
  · left
    obtain ⟨d, hd, rest, rfl⟩ := h
    by_cases hdollar : d = .inlineDollar ∧ rest.head? = some (.plain '$')
    · -- there are two dollars
      obtain ⟨rfl, hhead⟩ := hdollar
      obtain ⟨rest, rfl⟩ := List.head?_eq_some_iff.1 hhead
      refine ⟨.displayDollar, rest, ?_, by simp [Named], by simp⟩
      rw [atoms_inlineDollar.1, atoms_displayDollar.1]
      rfl
    · exact ⟨d, rest, rfl, hd, fun heq hhead => hdollar ⟨heq, hhead⟩⟩
  · exact .inr fun d hd hp => h ⟨d, hd, hp⟩

/-! ## What follows a match -/

/-- The closer that is found does not depend on what follows it. -/
theorem close?_congr {d : Delimiters} (hd : Named accepts d) {as body rest : List Atom}
    (h : d.close? as = some (body, rest)) :
    as = body ++ atoms d.closing ++ rest ∧
      ∀ rest', d.close? (body ++ atoms d.closing ++ rest') = some (body, rest') := by
  have hne : atoms d.closing ≠ [] := by
    obtain ⟨a, s, hclosing, -, -⟩ := delimiting_closing hd
    simp [hclosing]
  -- the two brackets and the double dollar share the search behind the first atom
  have hclosed {closing : List Atom} (hne : closing ≠ [])
      (h : closedBy? closing as = some (body, rest)) :
      as = body ++ closing ++ rest ∧
        ∀ rest', closedBy? closing (body ++ closing ++ rest') = some (body, rest') := by
    have has := append_of_closedBy? h
    refine ⟨has, fun rest' => ?_⟩
    rw [has] at h
    cases body with
    | nil =>
        rw [List.nil_append] at h
        cases hfront : closing ++ rest with
        | nil => rw [hfront] at h; cases h
        | cons a as =>
            rw [hfront, closedBy?] at h
            cases hfound : splitAround? closing as <;> simp [hfound] at h
    | cons a body =>
        rw [List.cons_append, List.cons_append, closedBy?, map_cons_eq_some] at h ⊢
        exact splitAround?_congr hne h rest'
  cases d with
  | inlineDollar =>
      have has := append_of_splitAround? h
      refine ⟨has, fun rest' => ?_⟩
      rw [has] at h
      exact splitAround?_congr hne h rest'
  | environment name =>
      have has := append_of_balancedBy? h
      refine ⟨has, fun rest' => ?_⟩
      have hplain := plain_of_isNameCharacter (hd name rfl).1
      -- the closing tag cannot start inside of an opening one
      have hopening : Atom.escape 'e' ∉ (atoms (Environment.openingTag name)).tail := by
        rw [atoms_openingTag_eq_cons hplain]
        simp
      rw [has] at h
      rw [Delimiters.close?, Delimiters.opening, Delimiters.closing, atoms_closingTag hplain] at h ⊢
      exact balancedBy?_congr hopening h rest'
  | _ => exact hclosed hne h

/-- **What is found stays found** whatever follows it. -/
theorem matchHead_congr {as : List Atom} {m : Match} (h : matchHead accepts false as = .found m) :
    ∃ front, as = front ++ m.rest ∧ front ≠ [] ∧
      ∀ rest, matchHead accepts false (front ++ rest) = .found ⟨m.delimiters, m.body, rest⟩ := by
  rcases opensWith_or_not accepts as with ⟨d, back, hopens⟩ | hnone
  · have hfound := (matchHead_opening hopens).symm.trans h
    obtain ⟨hclose, rfl, hbody⟩ := eq_of_conclude hfound
    obtain ⟨hback, hcongr⟩ := close?_congr hopens.named hclose
    refine ⟨atoms m.delimiters.opening ++ m.body ++ atoms m.delimiters.closing, ?_, ?_, ?_⟩
    · rw [hopens.append_eq, hback]
      simp
    · obtain ⟨a, s, hopening, -, -⟩ := delimiting_opening hopens.named
      simp [hopening]
    · intro rest
      have hopens' : OpensWith accepts m.delimiters
          (atoms m.delimiters.opening ++ (m.body ++ atoms m.delimiters.closing ++ rest))
          (m.body ++ atoms m.delimiters.closing ++ rest) := by
        refine ⟨rfl, hopens.named, fun hd => ?_⟩
        -- the body is not empty, so what follows the dollar is still the same
        have hdollar := hopens.dollar hd
        obtain ⟨a, body, hcons⟩ := List.exists_cons_of_ne_nil hbody
        rw [hback, hcons] at hdollar
        rw [hcons]
        exact hdollar
      rw [List.append_assoc, List.append_assoc, ← List.append_assoc m.body,
        matchHead_opening hopens', hcongr rest, conclude_of_ne_nil hbody]
  · rw [matchHead_of_unopened hnone] at h
    cases h

end Region

end MathEdit
