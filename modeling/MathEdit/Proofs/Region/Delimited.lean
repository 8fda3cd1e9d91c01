import MathEdit.Proofs.Region.Live
import MathEdit.Proofs.Region.Windows

/-! # What is located

Whatever the window and the recognized names, a region that is located is math of the document: its
text stands there at its offsets, between delimiters of its kind that are neither escaped nor in a
comment.

* **`delimits_of_matchHead`**: what a match takes off the front of some atoms.
* **`exists_matchHead_of_locate?`**, **`exists_match_of_locate?`**: what is located is a match
  behind some atoms of the whole document, also if it was found in a window.
* **`wellDelimited_of_locate?`**: from there, what a region is in terms of the document's text. -/

namespace MathEdit

/-! ## Delimiters -/

/-- Whether an atom can be the first one of a delimiter: a dollar or an escape. -/
def Atom.Leads (a : Atom) : Prop := a = .plain '$' ∨ ∃ c, a = .escape c

/-- No delimiter starts with a newline. -/
theorem Atom.Leads.ne_newline {a : Atom} (h : a.Leads) : a ≠ .plain '\n' := by
  rcases h with rfl | ⟨c, rfl⟩ <;> simp

namespace Region

variable {accepts : Text → Bool} {more : Bool}

/-- Whether math may stand between some delimiters: the name of an environment has to be made of
name characters and to be accepted. -/
def Named (accepts : Text → Bool) (d : Delimiters) : Prop :=
  ∀ name, d = .environment name → (∀ c ∈ name, isNameCharacter c = true) ∧ accepts name = true

/-- Whether atoms are like those of a delimiter: a dollar or an escape, and then characters of the
same line. -/
def Delimiting (as : List Atom) : Prop :=
  ∃ (a : Atom) (s : Text), as = a :: s.map .plain ∧ a.Leads ∧ '\n' ∉ s

/-- The opening delimiters are like delimiters. -/
theorem delimiting_opening {d : Delimiters} (hd : Named accepts d) :
    Delimiting (atoms d.opening) := by
  cases d with
  | displayDollar => exact ⟨_, ['$'], atoms_displayDollar.1, .inl rfl, by decide⟩
  | inlineDollar => exact ⟨_, [], atoms_inlineDollar.1, .inl rfl, by decide⟩
  | displayBracket => exact ⟨_, [], atoms_displayBracket.1, .inr ⟨_, rfl⟩, by decide⟩
  | inlineParen => exact ⟨_, [], atoms_inlineParen.1, .inr ⟨_, rfl⟩, by decide⟩
  | environment name =>
      have hname := (hd name rfl).1
      have hnewline : '\n' ∉ name := fun hc => ne_of_isNameCharacter (hname '\n' hc) (by decide) rfl
      refine ⟨.escape 'b', ['e', 'g', 'i', 'n', '{'] ++ name ++ ['}'], ?_, .inr ⟨_, rfl⟩, ?_⟩
      · exact atoms_openingTag_eq_cons (plain_of_isNameCharacter hname)
      · simp [hnewline]

/-- So are the closing ones. -/
theorem delimiting_closing {d : Delimiters} (hd : Named accepts d) :
    Delimiting (atoms d.closing) := by
  cases d with
  | displayDollar => exact ⟨_, ['$'], atoms_displayDollar.2, .inl rfl, by decide⟩
  | inlineDollar => exact ⟨_, [], atoms_inlineDollar.2, .inl rfl, by decide⟩
  | displayBracket => exact ⟨_, [], atoms_displayBracket.2, .inr ⟨_, rfl⟩, by decide⟩
  | inlineParen => exact ⟨_, [], atoms_inlineParen.2, .inr ⟨_, rfl⟩, by decide⟩
  | environment name =>
      have hname := (hd name rfl).1
      have hnewline : '\n' ∉ name := fun hc => ne_of_isNameCharacter (hname '\n' hc) (by decide) rfl
      refine ⟨.escape 'e', ['n', 'd', '{'] ++ name ++ ['}'], ?_, .inr ⟨_, rfl⟩, ?_⟩
      · exact atoms_closingTag (plain_of_isNameCharacter hname)
      · simp [hnewline]

/-- No delimiter is empty. -/
theorem Delimiting.ne_nil {as : List Atom} (h : Delimiting as) : as ≠ [] := by
  obtain ⟨a, s, rfl, -, -⟩ := h
  exact List.cons_ne_nil _ _

/-- No atom of a delimiter is open, and none ends a line. -/
theorem Delimiting.forall_mem {as : List Atom} (h : Delimiting as) :
    ∀ a ∈ as, a.isOpen = false ∧ a ≠ .plain '\n' := by
  obtain ⟨a, s, rfl, ha, hs⟩ := h
  intro b hb
  rcases List.mem_cons.1 hb with rfl | hb
  · refine ⟨?_, ha.ne_newline⟩
    rcases ha with rfl | ⟨c, rfl⟩ <;> rfl
  · obtain ⟨c, hc, rfl⟩ := List.mem_map.1 hb
    refine ⟨rfl, ?_⟩
    rintro ⟨⟩
    exact hs hc

/-! ## What a match takes -/

/-- What a match takes off the front of some atoms: an opening delimiter, a body that is not empty,
and the closing delimiter of the same kind. -/
structure Match.Delimits (accepts : Text → Bool) (m : Match) (as : List Atom) : Prop where
  append_eq : as = atoms m.delimiters.opening ++ m.body ++ atoms m.delimiters.closing ++ m.rest
  body_ne_nil : m.body ≠ []
  named : Named accepts m.delimiters
  dollar : m.delimiters = .inlineDollar → .plain '$' ∉ m.body

/-- The first occurrence of an atom has none before it. -/
theorem notMem_of_splitAround? {a : Atom} {as body rest : List Atom}
    (h : splitAround? [a] as = some (body, rest)) : a ∉ body := by
  induction as generalizing body with
  | nil => simp [splitAround?] at h
  | cons b as ih =>
      rw [splitAround?] at h
      split at h
      · obtain ⟨rfl, rfl⟩ := Prod.mk.inj (Option.some.inj h)
        simp
      · next hab =>
          obtain ⟨⟨body', rest'⟩, hb, he⟩ := Option.map_eq_some_iff.1 h
          obtain ⟨rfl, rfl⟩ := Prod.mk.inj he
          have hne : a ≠ b := by simpa [List.isPrefixOf] using hab
          simp [hne, ih hb]

/-- What is concluded from a closing delimiter stands between the two. -/
theorem delimits_of_conclude {d : Delimiters} {found : Option (List Atom × List Atom)} {m : Match}
    {as : List Atom} (h : conclude more d found = .found m)
    (happend : ∀ body rest, found = some (body, rest) →
      as = atoms d.opening ++ (body ++ atoms d.closing ++ rest))
    (hname : Named accepts d)
    (hdollar : d = .inlineDollar → ∀ body rest, found = some (body, rest) → .plain '$' ∉ body) :
    m.Delimits accepts as := by
  obtain ⟨hfound, rfl, hbody⟩ := eq_of_conclude h
  refine ⟨?_, hbody, hname, fun hd => hdollar hd _ _ hfound⟩
  rw [happend _ _ hfound]
  simp only [List.append_assoc]

/-- So does an environment between its tags. -/
theorem delimits_of_matchEnvironment {as : List Atom} {m : Match}
    (h : matchEnvironment accepts more as = .found m) :
    m.Delimits accepts (atoms Environment.openingStart ++ as) := by
  obtain ⟨name, rest, hn⟩ : ∃ name rest, nameRun as = (name, rest) := ⟨_, _, rfl⟩
  have has := append_of_nameRun hn
  cases rest with
  | nil =>
      rw [matchEnvironment_atEnd hn] at h
      exact absurd h atEnd_ne_found
  | cons a rest =>
      by_cases ha : a = .plain '}'
      · subst ha
        rw [matchEnvironment_brace hn] at h
        split at h
        · next haccepts =>
            -- the atoms are the tag, what the balance took and what is behind it
            refine delimits_of_conclude h ?_ ?_ (by simp)
            · intro body rest' hfound
              have hopening := atoms_openingTag (plain_of_nameRun hn)
              rw [has, append_of_balancedBy? hfound, Delimiters.opening, hopening]
              simp [Delimiters.closing]
            · rintro _ ⟨⟩
              exact ⟨isNameCharacter_of_nameRun hn, haccepts⟩
        · simp at h
      · rw [matchEnvironment_other hn ha] at h
        simp at h

/-- **What a match takes.** A match has its delimiters and its body at the front of the atoms. -/
theorem delimits_of_matchHead {as : List Atom} {m : Match}
    (h : matchHead accepts more as = .found m) : m.Delimits accepts as := by
  -- atoms cut short never match, and the others match only behind an opening delimiter
  by_cases hcut : cutShort as = true
  · rw [matchHead_of_cutShort hcut] at h
    exact absurd h atEnd_ne_found
  by_cases hopen : Opens as
  · cases hopen with
    | dollar as =>
        cases as with
        | nil => exact absurd (cutShort_iff.2 (by simp)) hcut
        | cons a as =>
            by_cases ha : a = .plain '$'
            · subst ha
              rw [matchHead_dollars] at h
              refine delimits_of_conclude h ?_ (by simp [Named]) (by simp)
              intro body rest hfound
              rw [append_of_closedBy? hfound, atoms_displayDollar.1, atoms_displayDollar.2]
              rfl
            · rw [matchHead_dollar ha] at h
              refine delimits_of_conclude h ?_ (by simp [Named]) ?_
              · intro body rest hfound
                rw [append_of_splitAround? hfound, atoms_inlineDollar.1, atoms_inlineDollar.2]
                rfl
              · intro _ body rest hfound
                exact notMem_of_splitAround? hfound
    | bracket as =>
        rw [matchHead_bracket] at h
        refine delimits_of_conclude h ?_ (by simp [Named]) (by simp)
        intro body rest hfound
        rw [append_of_closedBy? hfound, atoms_displayBracket.1, atoms_displayBracket.2]
        rfl
    | paren as =>
        rw [matchHead_paren] at h
        refine delimits_of_conclude h ?_ (by simp [Named]) (by simp)
        intro body rest hfound
        rw [append_of_closedBy? hfound, atoms_inlineParen.1, atoms_inlineParen.2]
        rfl
    | environment as =>
        rw [matchHead_environment] at h
        have henv := delimits_of_matchEnvironment h
        rwa [atoms_openingStart] at henv
  · rw [matchHead_of_not_opens hopen (Bool.eq_false_iff.2 hcut)] at h
    simp at h

/-! ## What a search finds -/

/-- What a search finds is a match behind some of the atoms. -/
theorem exists_matchHead_of_findContaining {offset position : Nat} {as : List Atom}
    {region : Region} (h : findContaining accepts more offset position as = .found region) :
    ∃ (front : List Atom) (m : Match) (back : List Atom), as = front ++ back ∧
      matchHead accepts more back = .found m ∧
      region = m.region (position + Text.width (Atom.join front)) := by
  fun_induction findContaining accepts more offset position as with
  | case1 => simp at h
  | case2 => simp at h
  | case3 => simp at h
  | case4 position a rest _ _ ih =>
      obtain ⟨front, m, back, rfl, hm, rfl⟩ := ih h
      refine ⟨a :: front, m, back, rfl, hm, ?_⟩
      rw [Atom.join_cons, Text.width_append, ← Nat.add_assoc]
      rfl
  | case5 position a rest hp m hm region' ho =>
      obtain rfl := Search.found.inj h
      exact ⟨[], m, a :: rest, rfl, hm, rfl⟩
  | case6 position a rest hp m hm region' ho ih =>
      -- the match that is passed over takes up the room up to where the search goes on
      obtain ⟨front, m', back, hrest, hm', rfl⟩ := ih h
      obtain ⟨taken, htaken, htext⟩ := append_of_matchHead hm position
      refine ⟨taken ++ front, m', back, by rw [htaken, hrest, List.append_assoc], hm', ?_⟩
      rw [Atom.join_append, Text.width_append, htext, ← Nat.add_assoc]
      rfl

/-- What is located is found by a look at the document behind some of its atoms. -/
theorem exists_matchHead_of_locate? {r : Recognition} {t : Text} {offset : Nat} {region : Region}
    (h : locate? r t offset = some region) :
    ∃ (front : List Atom) (m : Match) (back : List Atom), atoms t = front ++ back ∧
      matchHead r.accepts false back = .found m ∧
      region = m.region (Text.width (Atom.join front)) := by
  unfold locate? at h
  split at h
  · simp at h
  · rcases Option.or_eq_some_iff.1 h with h | ⟨-, h⟩
    -- found in the window: its atoms are a tail of those of the text
    · obtain ⟨w, hw, hf⟩ := Option.bind_eq_some_iff.1 h
      obtain ⟨before, after, ht, hstart, hafter, hbefore⟩ := around?_spec hw
      have hfound := findContaining_of_search hafter (Search.toOption_eq_some_iff.1 hf)
      obtain ⟨front, m, back, hsplit, hm, rfl⟩ := exists_matchHead_of_findContaining hfound
      refine ⟨atoms before ++ front, m, back, ?_, hm, ?_⟩
      · rw [ht, List.append_assoc, atoms_append_of_start (hbefore.imp_right And.left), hsplit,
          List.append_assoc]
      · rw [hstart, Atom.join_append, join_atoms, Text.width_append]
    · have hfound := Search.toOption_eq_some_iff.1 h
      obtain ⟨front, m, back, hsplit, hm, rfl⟩ := exists_matchHead_of_findContaining hfound
      refine ⟨front, m, back, hsplit, hm, ?_⟩
      rw [Window.whole, Nat.zero_add]

/-- What is located is a match behind some atoms of the document. -/
theorem exists_match_of_locate? {r : Recognition} {t : Text} {offset : Nat} {region : Region}
    (h : locate? r t offset = some region) :
    ∃ (front : List Atom) (m : Match) (back : List Atom), atoms t = front ++ back ∧
      m.Delimits r.accepts back ∧ region = m.region (Text.width (Atom.join front)) := by
  obtain ⟨front, m, back, hsplit, hm, hregion⟩ := exists_matchHead_of_locate? h
  exact ⟨front, m, back, hsplit, delimits_of_matchHead hm, hregion⟩

/-! ## The text of a region -/

/-- What a region that is located at an offset of a document has to be. -/
structure WellDelimited (r : Recognition) (t : Text) (offset : Nat) (region : Region) : Prop where
  start_le : region.start ≤ offset
  le_stop : offset ≤ region.stop
  stop_le : region.stop ≤ Text.width t
  /-- The region is what the document holds between its two offsets, which are boundaries. -/
  slice : Text.slice? region.start region.stop t = some region.text
  text_eq : region.text =
    region.delimiters.opening ++ region.content ++ region.delimiters.closing
  content_ne_nil : region.content ≠ []
  live_opening : LiveAt t region.start
  live_closing : LiveAt t (region.stop - region.delimiters.lengths.2)
  name : ∀ name, region.delimiters = .environment name →
    name ≠ [] ∧ (∀ c ∈ name, c.isAlphanum = true ∨ c = '*') ∧ r.accepts name = true
  /-- No dollar in inline math could have closed it earlier. -/
  dollar : region.delimiters = .inlineDollar → ∀ x y, region.content = x ++ '$' :: y →
    ¬ LiveAt t (region.start + region.delimiters.lengths.1 + Text.width x)
  /-- The content is what the lengths of the delimiters leave of the region. -/
  content_slice : Text.slice? region.delimiters.lengths.1
    (Text.width region.text - region.delimiters.lengths.2) region.text = some region.content
  /-- The range of the content is where the document holds it. -/
  contentRange : ∃ first last, region.contentRange? = some (first, last) ∧
    first.toNat = region.start + region.delimiters.lengths.1 ∧
    last.toNat = region.stop - region.delimiters.lengths.2 ∧
    Text.slice? first.toNat last.toNat t = some region.content

section

variable {t : Text} {front back : List Atom} {m : Match}

/-- The text of a document is that of a match and what is around it. -/
theorem Match.Delimits.text_eq (hm : m.Delimits accepts back) (ht : atoms t = front ++ back)
    (position : Nat) : t = Atom.join front ++ (m.region position).text ++ Atom.join m.rest := by
  have htext : t = Atom.join (front ++ back) := by rw [← ht, join_atoms]
  rw [htext, Atom.join_append, hm.append_eq]
  simp [Match.region, Region.text]

/-- The text of a document is that of the content of a match and what is around it. -/
theorem Match.Delimits.content_eq (hm : m.Delimits accepts back) (ht : atoms t = front ++ back) :
    t = (Atom.join front ++ m.delimiters.opening) ++ Atom.join m.body ++
      (m.delimiters.closing ++ Atom.join m.rest) := by
  rw [hm.text_eq ht 0]
  simp [Match.region, Region.text]

/-- The opening delimiter of a match starts at a live place. -/
theorem Match.Delimits.live_opening (hm : m.Delimits accepts back) (ht : atoms t = front ++ back) :
    Live (Atom.join front) := by
  obtain ⟨a, s, hopening, ha, -⟩ := delimiting_opening hm.named
  rw [hm.append_eq, hopening] at ht
  exact live_join_of_append ht ha.ne_newline

/-- The content of a match starts at a live place. -/
theorem Match.Delimits.live_content (hm : m.Delimits accepts back) (ht : atoms t = front ++ back) :
    Live (Atom.join front ++ m.delimiters.opening) := by
  refine (hm.live_opening ht).append_iff.2 ((live_iff_closed _).2 fun a ha => ?_)
  exact ((delimiting_opening hm.named).forall_mem a (List.mem_of_getLast? ha)).1

/-- The closing delimiter of a match starts at a live place. -/
theorem Match.Delimits.live_closing (hm : m.Delimits accepts back) (ht : atoms t = front ++ back) :
    Live (Atom.join front ++ m.delimiters.opening ++ Atom.join m.body) := by
  obtain ⟨a, s, hclosing, ha, -⟩ := delimiting_closing hm.named
  have hsplit : atoms t =
      (front ++ atoms m.delimiters.opening ++ m.body) ++ a :: (s.map .plain ++ m.rest) := by
    rw [ht, hm.append_eq, hclosing]
    simp
  have hlive := live_join_of_append hsplit ha.ne_newline
  rwa [Atom.join_append, Atom.join_append, join_atoms] at hlive

/-- The body of a match is made of the atoms of its content. -/
theorem Match.Delimits.atoms_content (hm : m.Delimits accepts back)
    (ht : atoms t = front ++ back) : atoms (Atom.join m.body) = m.body := by
  have hsplit : atoms t = (front ++ atoms m.delimiters.opening) ++
      (m.body ++ (atoms m.delimiters.closing ++ m.rest)) := by
    rw [ht, hm.append_eq]
    simp
  exact (atoms_join_of_append (atoms_join_of_append hsplit).2).1

/-- What a match takes is made of the atoms of the text of its region. -/
theorem Match.Delimits.atoms_text (hm : m.Delimits accepts back) (ht : atoms t = front ++ back)
    (position : Nat) :
    atoms (m.region position).text =
        atoms m.delimiters.opening ++ (m.body ++ atoms m.delimiters.closing) ∧
      atoms (Atom.join m.rest) = m.rest := by
  have hsplit : atoms t = front ++ ((atoms m.delimiters.opening ++
      (m.body ++ atoms m.delimiters.closing)) ++ m.rest) := by
    rw [ht, hm.append_eq]
    simp only [List.append_assoc]
  obtain ⟨htext, hrest⟩ := atoms_join_of_append (atoms_join_of_append hsplit).2
  refine ⟨?_, hrest⟩
  rw [← htext]
  simp [Region.text, Match.region]

/-- There is something between the delimiters. -/
theorem Match.Delimits.content_ne_nil (hm : m.Delimits accepts back)
    (ht : atoms t = front ++ back) : Atom.join m.body ≠ [] := by
  intro hnil
  have hbody := hm.atoms_content ht
  rw [hnil, atoms_nil] at hbody
  exact hm.body_ne_nil hbody.symm

/-- A live dollar in inline math would be an atom of its body, which has none. -/
theorem Match.Delimits.not_live_dollar (hm : m.Delimits accepts back)
    (ht : atoms t = front ++ back) (hd : m.delimiters = .inlineDollar) {x y : Text}
    (hxy : Atom.join m.body = x ++ '$' :: y) :
    ¬ Live (Atom.join front ++ m.delimiters.opening ++ x) := by
  intro hlive
  have hx : Live x := (hm.live_content ht).append_iff.1 hlive
  have hbody : m.body = atoms x ++ .plain '$' :: atoms y := by
    rw [← hm.atoms_content ht, hxy, hx.atoms_append, atoms_plain (by decide) (by decide)]
  exact hm.dollar hd (by simp [hbody])

end

/-- A region ends behind its closing delimiter. -/
theorem stop_eq_contentStop_add (region : Region) :
    region.stop = region.contentStop + Text.width region.delimiters.closing := by
  rw [stop, text, Text.width_append, Text.width_append, contentStop, contentStart]
  omega

/-- The length of the opening delimiter leads to the content. -/
theorem add_lengths_eq (region : Region) :
    region.start + region.delimiters.lengths.1 = region.contentStart := by
  rw [Delimiters.lengths_eq, contentStart]

/-- And that of the closing one back to its end. -/
theorem sub_lengths_eq (region : Region) :
    region.stop - region.delimiters.lengths.2 = region.contentStop := by
  rw [stop_eq_contentStop_add, Delimiters.lengths_eq, Nat.add_sub_cancel]

/-- The content of a region is what the lengths of its delimiters leave of its text. -/
theorem slice?_lengths (region : Region) :
    Text.slice? region.delimiters.lengths.1
      (Text.width region.text - region.delimiters.lengths.2) region.text =
        some region.content := by
  rw [Delimiters.lengths_eq, text, Text.width_append, Nat.add_sub_cancel, Text.width_append]
  exact Text.slice?_width_append _ _ _

/-- The range of the content of a region that ends within the offsets of 32 bits. -/
theorem contentRange?_eq {region : Region} (h : region.stop < 2 ^ 32) :
    ∃ first last, region.contentRange? = some (first, last) ∧
      first.toNat = region.contentStart ∧ last.toNat = region.contentStop := by
  have hle : region.contentStart ≤ region.contentStop := Nat.le_add_right _ _
  -- both ends fit, so the conversions lose nothing
  have hlt : region.contentStop < UInt32.size := by
    have hstop := region.stop_eq_contentStop_add
    have hsize : UInt32.size = 2 ^ 32 := rfl
    omega
  have hfirst : (UInt32.ofNat region.contentStart).toNat = region.contentStart :=
    UInt32.toNat_ofNat_of_lt' (Nat.lt_of_le_of_lt hle hlt)
  have hlast : (UInt32.ofNat region.contentStop).toNat = region.contentStop :=
    UInt32.toNat_ofNat_of_lt' hlt
  refine ⟨.ofNat region.contentStart, .ofNat region.contentStop, ?_, hfirst, hlast⟩
  simp only [contentRange?, add_lengths_eq, sub_lengths_eq]
  rw [if_pos]
  rwa [UInt32.le_iff_toNat_le, hfirst, hlast]

/-- Names that are accepted are not empty. -/
theorem ne_nil_of_accepts {r : Recognition} {name : Text} (h : r.accepts name = true) :
    name ≠ [] := by
  rintro rfl
  simp [Recognition.accepts, Environment.base] at h

/-- **What is located is well delimited.** In a document of less than 2³² bytes, whatever is located
at an offset is math of the document around it, with all that belongs to its kind. -/
theorem wellDelimited_of_locate? {r : Recognition} {t : Text} {offset : Nat} {region : Region}
    (hsize : Text.width t < 2 ^ 32) (h : locate? r t offset = some region) :
    WellDelimited r t offset region := by
  obtain ⟨hstands, hstart, hstop⟩ := sound_of_locate? h
  have hle := hstands.stop_le
  rw [Nat.zero_add] at hle
  obtain ⟨first, last, hrange, hfirst, hlast⟩ := contentRange?_eq (Nat.lt_of_le_of_lt hle hsize)
  obtain ⟨front, m, back, ht, hm, rfl⟩ := exists_match_of_locate? h
  -- the document around the region, and around its content
  have htext := hm.text_eq ht (Text.width (Atom.join front))
  have hcontent := hm.content_eq ht
  have hplace : Text.width (Atom.join front ++ m.delimiters.opening) =
      (m.region (Text.width (Atom.join front))).contentStart := Text.width_append _ _
  have hslice := Text.slice?_width_append (Atom.join front ++ m.delimiters.opening)
    (Atom.join m.body) (m.delimiters.closing ++ Atom.join m.rest)
  rw [← hcontent, hplace] at hslice
  refine {
    start_le := hstart
    le_stop := hstop
    stop_le := hle
    slice := ?_
    text_eq := rfl
    content_ne_nil := hm.content_ne_nil ht
    live_opening := ?_
    live_closing := ?_
    name := ?_
    dollar := ?_
    content_slice := slice?_lengths _
    contentRange := ⟨first, last, hrange, ?_, ?_, ?_⟩ }
  · have hslice := Text.slice?_width_append (Atom.join front)
      (m.region (Text.width (Atom.join front))).text (Atom.join m.rest)
    rwa [← htext] at hslice
  · rw [List.append_assoc] at htext
    exact (liveAt_iff htext rfl).2 (hm.live_opening ht)
  · rw [sub_lengths_eq]
    refine (liveAt_iff hcontent ?_).2 (hm.live_closing ht)
    rw [Text.width_append, hplace]
    rfl
  · intro name hname
    obtain ⟨hcharacters, haccepts⟩ := hm.named name hname
    refine ⟨ne_nil_of_accepts haccepts, ?_, haccepts⟩
    intro c hc
    simpa [isNameCharacter] using hcharacters c hc
  · intro hd x y hxy
    have hxy : Atom.join m.body = x ++ '$' :: y := hxy
    have hsplit : t = (Atom.join front ++ m.delimiters.opening ++ x) ++
        ('$' :: y ++ (m.delimiters.closing ++ Atom.join m.rest)) := by
      rw [hcontent, hxy]
      simp
    rw [add_lengths_eq, liveAt_iff hsplit (by rw [Text.width_append, hplace])]
    exact hm.not_live_dollar ht hd hxy
  · rw [hfirst, add_lengths_eq]
  · rw [hlast, sub_lengths_eq]
  · rw [hfirst, hlast]
    exact hslice

/-- A window finds inline math with an escaped dollar in it, behind a comment and another one. -/
theorem wellDelimited_of_locate?_escaped_dollar :
    Text.width "% $x$\n\\$ $a\\$b$ c".toList < 2 ^ 32 ∧
      locate? ⟨[], false, 1⟩ "% $x$\n\\$ $a\\$b$ c".toList 12 =
        some ⟨9, .inlineDollar, "a\\$b".toList⟩ ∧
      WellDelimited ⟨[], false, 1⟩ "% $x$\n\\$ $a\\$b$ c".toList 12
        ⟨9, .inlineDollar, "a\\$b".toList⟩ := by
  have hsize : Text.width "% $x$\n\\$ $a\\$b$ c".toList < 2 ^ 32 := by decide +kernel
  have hlocate : locate? ⟨[], false, 1⟩ "% $x$\n\\$ $a\\$b$ c".toList 12 =
      some ⟨9, .inlineDollar, "a\\$b".toList⟩ := by decide +kernel
  exact ⟨hsize, hlocate, wellDelimited_of_locate? hsize hlocate⟩

end Region

end MathEdit
