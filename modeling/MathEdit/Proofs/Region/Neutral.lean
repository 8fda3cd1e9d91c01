import MathEdit.Proofs.Region.Delimited

/-! # Neutral text

A text is neutral if nothing in it could open or close math. Its atoms are calm: no walk over a
document stops at one of them, whatever opening or closing delimiter follows.

* **`Neutral`**, **`Calm`**: neutral texts and their atoms.
* **`not_opens_append`**: calm atoms open nothing, also in front of a delimiter.
* **`regions_append_of_calm`**: the regions of a document are those behind its calm atoms. -/

namespace MathEdit

/-! ## Neutral texts -/

/-- Whether a text is made of characters that are no dollar, percent sign or backslash and of
escaped characters that are no bracket or parenthesis, with no tag of an environment among them. -/
inductive Neutral : Text → Prop where
  | nil : Neutral []
  | character {c : Char} {t : Text} (hd : c ≠ '$') (hp : c ≠ '%') (hb : c ≠ '\\')
      (ht : Neutral t) : Neutral (c :: t)
  | escaped {c : Char} {t : Text} (hc : c ∉ ['(', ')', '[', ']'])
      (hbegin : ¬ Environment.openingStart <+: '\\' :: c :: t)
      (hend : ¬ Environment.closingStart <+: '\\' :: c :: t) (ht : Neutral t) :
      Neutral ('\\' :: c :: t)

/-- What a neutral text may start with, backslashes apart. -/
theorem neutral_cons_iff {c : Char} (hb : c ≠ '\\') (t : Text) :
    Neutral (c :: t) ↔ c ≠ '$' ∧ c ≠ '%' ∧ Neutral t := by
  constructor
  · intro h
    cases h with
    | character hd hp _ ht => exact ⟨hd, hp, ht⟩
    | escaped => exact absurd rfl hb
  · rintro ⟨hd, hp, ht⟩
    exact .character hd hp hb ht

/-- And what it may escape at its start. -/
theorem neutral_escape_iff (c : Char) (t : Text) :
    Neutral ('\\' :: c :: t) ↔ c ∉ ['(', ')', '[', ']'] ∧
      ¬ Environment.openingStart <+: '\\' :: c :: t ∧
      ¬ Environment.closingStart <+: '\\' :: c :: t ∧ Neutral t := by
  constructor
  · intro h
    cases h with
    | character _ _ hb => exact absurd rfl hb
    | escaped hc hbegin hend ht => exact ⟨hc, hbegin, hend, ht⟩
  · rintro ⟨hc, hbegin, hend, ht⟩
    exact .escaped hc hbegin hend ht

/-- A backslash that ends the text escapes nothing. -/
theorem not_neutral_backslash : ¬ Neutral ['\\'] := by
  intro h
  cases h with
  | character _ _ hb => exact hb rfl

instance decidableNeutral : (t : Text) → Decidable (Neutral t)
  | [] => isTrue .nil
  | [c] =>
      -- the rules of neutral text read one escape or one character
      if hb : c = '\\' then isFalse (hb ▸ not_neutral_backslash)
      else
        have := decidableNeutral []
        decidable_of_iff _ (neutral_cons_iff hb []).symm
  | c :: d :: t =>
      if hb : c = '\\' then
        have := decidableNeutral t
        decidable_of_iff _ (hb ▸ (neutral_escape_iff d t).symm)
      else
        have := decidableNeutral (d :: t)
        decidable_of_iff _ (neutral_cons_iff hb (d :: t)).symm

/-- Whether nothing among some atoms opens or closes math. -/
structure Calm (as : List Atom) : Prop where
  isOpen : ∀ a ∈ as, a.isOpen = false
  dollar : .plain '$' ∉ as
  sign : ∀ c ∈ ['(', ')', '[', ']'], .escape c ∉ as
  openingTag : ∀ bs, bs <:+ as → ¬ atoms Environment.openingStart <+: bs
  closingTag : ∀ bs, bs <:+ as → ¬ atoms Environment.closingStart <+: bs

/-- The rest of calm atoms is calm. -/
theorem Calm.of_suffix {as bs : List Atom} (h : Calm as) (hs : bs <:+ as) : Calm bs where
  isOpen a ha := h.isOpen a (hs.subset ha)
  dollar hd := h.dollar (hs.subset hd)
  sign c hc he := h.sign c hc (hs.subset he)
  openingTag cs hcs := h.openingTag cs (hcs.trans hs)
  closingTag cs hcs := h.closingTag cs (hcs.trans hs)

/-- The atoms that start a closing tag. -/
theorem atoms_closingStart :
    atoms Environment.closingStart = .escape 'e' :: ['n', 'd', '{'].map .plain := by cbv

/-- There is nothing in no atoms. -/
theorem calm_nil : Calm [] where
  isOpen := by simp
  dollar := by simp
  sign := by simp
  openingTag bs hbs := by simp [List.suffix_nil.1 hbs, Region.atoms_openingStart]
  closingTag bs hbs := by simp [List.suffix_nil.1 hbs, atoms_closingStart]

/-- An atom in front keeps them calm, if nothing opens or closes math there. -/
theorem Calm.cons {a : Atom} {as : List Atom} (h : Calm as) (hopen : a.isOpen = false)
    (hdollar : a ≠ .plain '$') (hsign : ∀ c ∈ ['(', ')', '[', ']'], a ≠ .escape c)
    (hbegin : ¬ atoms Environment.openingStart <+: a :: as)
    (hend : ¬ atoms Environment.closingStart <+: a :: as) : Calm (a :: as) where
  isOpen := List.forall_mem_cons.2 ⟨hopen, h.isOpen⟩
  dollar := List.not_mem_cons_of_ne_of_not_mem hdollar.symm h.dollar
  sign c hc := List.not_mem_cons_of_ne_of_not_mem (hsign c hc).symm (h.sign c hc)
  openingTag bs hbs := by
    rcases List.suffix_cons_iff.1 hbs with rfl | hbs
    · exact hbegin
    · exact h.openingTag bs hbs
  closingTag bs hbs := by
    rcases List.suffix_cons_iff.1 hbs with rfl | hbs
    · exact hend
    · exact h.closingTag bs hbs

/-- What begins with the atoms of a text begins with the text. -/
theorem isPrefix_of_atoms {s t : Text} (h : atoms s <+: atoms t) : s <+: t := by
  obtain ⟨as, has⟩ := h
  refine ⟨Atom.join as, ?_⟩
  rw [← join_atoms t, ← has, Atom.join_append, join_atoms]

/-- The atoms of a neutral text are calm. -/
theorem Neutral.calm {t : Text} (h : Neutral t) : Calm (atoms t) := by
  induction h with
  | nil =>
      rw [atoms_nil]
      exact calm_nil
  | @character c t hd hp hb _ ih =>
      rw [atoms_plain hb hp]
      refine ih.cons rfl (by simpa using hd) (by simp) ?_ ?_
      · simp [Region.atoms_openingStart]
      · simp [atoms_closingStart]
  | @escaped c t hc hbegin hend _ ih =>
      rw [atoms_escape]
      refine ih.cons rfl (by simp) ?_ ?_ ?_
      · rintro d hd ⟨⟩
        exact hc hd
      -- neither tag starts at the backslash, by the rule of the escape
      · rw [← atoms_escape]
        exact fun h => hbegin (isPrefix_of_atoms h)
      · rw [← atoms_escape]
        exact fun h => hend (isPrefix_of_atoms h)

/-! ## Calm atoms open nothing -/

/-- Whether atoms cannot go on with a tag that has begun before them: they start as a delimiter
does, or there are none. -/
def Firm (as : List Atom) : Prop := ∀ a ∈ as.head?, a.Leads

/-- Where there are no atoms, no tag goes on. -/
theorem firm_nil : Firm [] := by simp [Firm]

/-- Nor does one where a delimiter starts. -/
theorem Region.Delimiting.firm_append {as : List Atom} (h : Region.Delimiting as)
    (bs : List Atom) : Firm (as ++ bs) := by
  obtain ⟨a, s, rfl, ha, -⟩ := h
  rintro b ⟨⟩
  exact ha

namespace Region

variable {accepts : Text → Bool}

/-- A tag does not reach from some atoms into firm ones. -/
theorem prefix_append_iff_of_firm {c : Char} {tail : Text} (ht : '$' ∉ tail) {as rest : List Atom}
    (hrest : Firm rest) (has : as ≠ []) :
    .escape c :: tail.map .plain <+: as ++ rest ↔ .escape c :: tail.map .plain <+: as := by
  cases rest with
  | nil => rw [List.append_nil]
  | cons a rest =>
      have ha : a ∉ (.escape c :: tail.map Atom.plain).tail := by
        rcases hrest a rfl with rfl | ⟨d, rfl⟩
        · simpa using ht
        · simp
      rw [← List.isPrefixOf_iff_prefix, ← List.isPrefixOf_iff_prefix,
        isPrefixOf_append_of_notMem ha has]

/-- Math opens with a dollar, with an escaped bracket or parenthesis, or with an opening tag. -/
theorem opens_iff {a : Atom} {as : List Atom} :
    Opens (a :: as) ↔ a = .plain '$' ∨ a = .escape '[' ∨ a = .escape '(' ∨
      atoms Environment.openingStart <+: a :: as := by
  constructor
  · intro h
    cases h with
    | dollar => exact .inl rfl
    | bracket => exact .inr (.inl rfl)
    | paren => exact .inr (.inr (.inl rfl))
    | environment bs =>
        rw [atoms_openingStart]
        exact .inr (.inr (.inr ⟨bs, rfl⟩))
  · rintro (rfl | rfl | rfl | ⟨bs, h⟩)
    · exact .dollar as
    · exact .bracket as
    · exact .paren as
    · rw [← h, atoms_openingStart]
      exact .environment bs

/-- No tag begins among calm atoms, with firm ones behind them. -/
theorem not_openingStart_append {as rest : List Atom} (h : Calm as) (hrest : Firm rest)
    (has : as ≠ []) : ¬ atoms Environment.openingStart <+: as ++ rest := by
  rw [atoms_openingStart, prefix_append_iff_of_firm (by decide) hrest has, ← atoms_openingStart]
  exact h.openingTag as List.suffix_rfl

/-- No closing tag starts in calm atoms and ends behind them. -/
theorem not_closingStart_append {as rest : List Atom} (h : Calm as) (hrest : Firm rest)
    (has : as ≠ []) : ¬ atoms Environment.closingStart <+: as ++ rest := by
  rw [atoms_closingStart, prefix_append_iff_of_firm (by decide) hrest has, ← atoms_closingStart]
  exact h.closingTag as List.suffix_rfl

/-- Calm atoms open nothing, with firm ones behind them. -/
theorem not_opens_append {as rest : List Atom} (h : Calm as) (hrest : Firm rest) (has : as ≠ []) :
    ¬ Opens (as ++ rest) := by
  have htag := not_openingStart_append h hrest has
  obtain ⟨a, as, rfl⟩ := List.exists_cons_of_ne_nil has
  rw [List.cons_append] at htag ⊢
  rw [opens_iff]
  rintro (rfl | rfl | rfl | hopening)
  · exact h.dollar List.mem_cons_self
  · exact h.sign '[' (by simp) List.mem_cons_self
  · exact h.sign '(' (by simp) List.mem_cons_self
  · exact htag hopening

/-- There are no regions in atoms that open nothing. -/
theorem regions_append_of_not_opens {as rest : List Atom}
    (h : ∀ bs, bs <:+ as → bs ≠ [] → ¬ Opens (bs ++ rest)) (position : Nat) :
    regions accepts position (as ++ rest) =
      regions accepts (position + Text.width (Atom.join as)) rest := by
  induction as generalizing position with
  | nil => rfl
  | cons a as ih =>
      have hnone : matchHead accepts false (a :: as ++ rest) = .absent :=
        matchHead_whole_of_not_opens (h _ List.suffix_rfl (List.cons_ne_nil a as))
      rw [List.cons_append] at hnone ⊢
      rw [regions_of_absent hnone, ih fun bs hbs => h bs (hbs.trans (List.suffix_cons a as)),
        Atom.join_cons, Text.width_append, ← Nat.add_assoc]
      rfl

/-- Calm atoms in front hold no region and move those behind them. -/
theorem regions_append_of_calm {as rest : List Atom} (h : Calm as) (hrest : Firm rest)
    (position : Nat) :
    regions accepts position (as ++ rest) =
      regions accepts (position + Text.width (Atom.join as)) rest :=
  regions_append_of_not_opens (fun _ hbs hne => not_opens_append (h.of_suffix hbs) hrest hne) _

/-- Alone they hold none. -/
theorem regions_of_calm {as : List Atom} (h : Calm as) (position : Nat) :
    regions accepts position as = [] := by
  rw [← List.append_nil as, regions_append_of_calm h firm_nil, regions_nil]

end Region

end MathEdit
