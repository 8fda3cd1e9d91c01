import MathEdit.Proofs.Region.Located
import MathEdit.Proofs.Region.Neutral

/-! # Comments and the search for math

What a comment says has no influence on where math is found. Two documents that differ in their
comments only have the same atoms once the comments are hushed, and every search gives on hushed
atoms what it gives on the atoms themselves.

* **`EqualOutsideComments`**: documents with their comments in the same places, and the same
  characters everywhere else; `equalOutsideComments_iff` says this of their atoms.
* **`matchHead_map_hush`**, **`map_frame_regions`**: the searches on hushed atoms.
* **`locate?_of_equalOutsideComments`**: both documents are answered alike. -/

namespace MathEdit

/-! ## Hushed atoms -/

namespace Atom

/-- An atom with a space for every byte that a comment has behind its percent sign. -/
def hush : Atom → Atom
  | plain c => plain c
  | escape c => escape c
  | comment body => comment (List.replicate (Text.width body) ' ')
  | backslash => backslash

/-- A space has one byte. -/
theorem width_replicate_space (n : Nat) : Text.width (List.replicate n ' ') = n := by
  induction n with
  | zero => rfl
  | succ n ih =>
      rw [List.replicate_succ, Text.width, Text.measure_cons, ← Text.width, ih, Nat.add_comm]
      rfl

/-- So hushing keeps the length of an atom. -/
@[simp] theorem width_hush (a : Atom) : a.hush.width = a.width := by
  cases a with
  | comment body =>
      change '%'.utf8Size + Text.width (List.replicate (Text.width body) ' ') =
        '%'.utf8Size + Text.width body
      rw [width_replicate_space]
  | _ => rfl

/-- Hushed atoms take up as much room. -/
@[simp] theorem width_join_map_hush (as : List Atom) :
    Text.width (join (as.map hush)) = Text.width (join as) := by
  induction as with
  | nil => rfl
  | cons a as ih =>
      rw [List.map_cons, join_cons, join_cons, Text.width_append, Text.width_append, ih, ← width,
        ← width, width_hush]

/-- Only a comment is hushed to another atom. -/
theorem hush_eq_iff {a b : Atom} (h : b.isOpen = false) : a.hush = b ↔ a = b := by
  cases a with
  | comment body =>
      cases b with
      | comment _ => cases h
      | _ => simp [hush]
  | _ => rfl

/-- An atom that is hushed to a comment is a comment of the same length. -/
theorem hush_eq_hush_comment_iff {a : Atom} {body : Text} :
    a.hush = (comment body).hush ↔ ∃ body', a = comment body' ∧
      Text.width body' = Text.width body := by
  cases a with
  | comment body' =>
      constructor
      · intro h
        have hlength := congrArg List.length (comment.inj h)
        exact ⟨body', rfl, by simpa using hlength⟩
      · rintro ⟨_, ⟨⟩, hwidth⟩
        rw [hush, hush, hwidth]
  | _ => simp [hush]

end Atom

open Atom (hush)

namespace Region

/-! ## Searches on hushed atoms -/

/-- A pattern without comments is found in the same places. -/
theorem isPrefixOf_map_hush {pattern : List Atom} (h : ∀ a ∈ pattern, a.isOpen = false)
    (as : List Atom) : pattern.isPrefixOf (as.map hush) = pattern.isPrefixOf as := by
  rw [Bool.eq_iff_iff, List.isPrefixOf_iff_prefix, List.isPrefixOf_iff_prefix]
  induction pattern generalizing as with
  | nil => simp
  | cons p pattern ih =>
      obtain ⟨hp, hpattern⟩ := List.forall_mem_cons.1 h
      cases as with
      | nil => simp
      | cons a as =>
          rw [List.map_cons, List.cons_prefix_cons, List.cons_prefix_cons, ih hpattern, eq_comm,
            Atom.hush_eq_iff hp, eq_comm]

/-- The two parts around a delimiter, with their atoms hushed. -/
def hushBoth (parts : List Atom × List Atom) : List Atom × List Atom :=
  (parts.1.map hush, parts.2.map hush)

/-- One more atom in front may be hushed before or after it is put there. -/
theorem map_hushBoth_cons (a : Atom) (found : Option (List Atom × List Atom)) :
    (found.map hushBoth).map (fun (body, rest) => (a.hush :: body, rest)) =
      (found.map fun (body, rest) => (a :: body, rest)).map hushBoth := by
  cases found <;> rfl

/-- A pattern without comments is found at the same place in hushed atoms. -/
theorem splitAround?_map_hush {pattern : List Atom} (h : ∀ a ∈ pattern, a.isOpen = false)
    (as : List Atom) :
    splitAround? pattern (as.map hush) = (splitAround? pattern as).map hushBoth := by
  induction as with
  | nil => rfl
  | cons a as ih =>
      have hfront := isPrefixOf_map_hush h (a :: as)
      rw [List.map_cons] at hfront ⊢
      rw [splitAround?, splitAround?, hfront]
      split
      · simp [hushBoth, List.map_drop]
      · rw [ih, map_hushBoth_cons]

/-- So is a closing delimiter. -/
theorem closedBy?_map_hush {closing : List Atom} (h : ∀ a ∈ closing, a.isOpen = false)
    (as : List Atom) :
    closedBy? closing (as.map hush) = (closedBy? closing as).map hushBoth := by
  cases as with
  | nil => rfl
  | cons a as =>
      rw [List.map_cons, closedBy?, splitAround?_map_hush h, map_hushBoth_cons, closedBy?]

/-- And so is a closing tag that balances. -/
theorem balancedBy?_map_hush {opening closing : List Atom}
    (hopening : ∀ a ∈ opening, a.isOpen = false) (hclosing : ∀ a ∈ closing, a.isOpen = false)
    (depth : Nat) (as : List Atom) :
    balancedBy? opening closing depth (as.map hush) =
      (balancedBy? opening closing depth as).map hushBoth := by
  induction as generalizing depth with
  | nil => rfl
  | cons a as ih =>
      -- a tag has no comment in it, so hushing neither makes nor hides one
      have hfront := isPrefixOf_map_hush hclosing (a :: as)
      have hfront' := isPrefixOf_map_hush hopening (a :: as)
      rw [List.map_cons] at hfront hfront' ⊢
      simp only [balancedBy?, hfront, hfront', ih]
      split
      · cases depth with
        | zero => simp [hushBoth, List.map_drop]
        | succ depth => exact map_hushBoth_cons a _
      · exact map_hushBoth_cons a _

/-- A comment is no part of a name. -/
theorem nameRun_map_hush (as : List Atom) :
    nameRun (as.map hush) = ((nameRun as).1, (nameRun as).2.map hush) := by
  induction as with
  | nil => rfl
  | cons a as ih =>
      cases a with
      | plain c =>
          rw [List.map_cons, hush, nameRun, nameRun]
          split
          · rw [ih]
          · rfl
      | _ => rfl

/-- A match with its atoms hushed. -/
def Match.hush (m : Match) : Match := ⟨m.delimiters, m.body.map Atom.hush, m.rest.map Atom.hush⟩

/-- An outcome with the atoms of its match hushed. -/
def hushMatch : Search Match → Search Match
  | .found m => .found m.hush
  | .absent => .absent
  | .inconclusive => .inconclusive

/-- What is concluded from a closing delimiter is hushed with it. -/
theorem conclude_map_hush (d : Delimiters) (found : Option (List Atom × List Atom)) :
    conclude false d (found.map hushBoth) = hushMatch (conclude false d found) := by
  match found with
  | none => rfl
  | some ([], _) => rfl
  | some (_ :: _, _) => rfl

variable {accepts : Text → Bool}

/-- So is an environment. -/
theorem matchEnvironment_map_hush (as : List Atom) :
    matchEnvironment accepts false (as.map hush) =
      hushMatch (matchEnvironment accepts false as) := by
  obtain ⟨name, rest, hn⟩ : ∃ name rest, nameRun as = (name, rest) := ⟨_, _, rfl⟩
  -- no name goes on through a comment
  have hn' : nameRun (as.map hush) = (name, rest.map hush) := by rw [nameRun_map_hush, hn]
  cases rest with
  | nil =>
      rw [matchEnvironment_atEnd hn, matchEnvironment_atEnd hn']
      rfl
  | cons a rest =>
      by_cases ha : a = .plain '}'
      · subst ha
        rw [matchEnvironment_brace hn, matchEnvironment_brace hn']
        split
        · next haccepts =>
            have hd : Named accepts (.environment name) := by
              rintro _ ⟨⟩
              exact ⟨isNameCharacter_of_nameRun hn, haccepts⟩
            have hopening := fun a ha => ((delimiting_opening hd).forall_mem a ha).1
            have hclosing := fun a ha => ((delimiting_closing hd).forall_mem a ha).1
            rw [← conclude_map_hush]
            exact congrArg _ (balancedBy?_map_hush hopening hclosing 0 rest)
        · rfl
      · have ha' : a.hush ≠ .plain '}' := (Atom.hush_eq_iff rfl).not.2 ha
        rw [matchEnvironment_other hn ha, matchEnvironment_other hn' ha']
        rfl

/-- Hushing neither makes an opening delimiter nor takes one away. -/
theorem opens_map_hush_iff {as : List Atom} : Opens (as.map hush) ↔ Opens as := by
  cases as with
  | nil => simp
  | cons a as =>
      have htag : atoms Environment.openingStart <+: (a :: as).map hush ↔
          atoms Environment.openingStart <+: a :: as := by
        rw [← List.isPrefixOf_iff_prefix, ← List.isPrefixOf_iff_prefix, isPrefixOf_map_hush]
        rw [atoms_openingStart]
        simp [Atom.isOpen]
      rw [List.map_cons] at htag ⊢
      rw [opens_iff, opens_iff, htag, Atom.hush_eq_iff rfl, Atom.hush_eq_iff rfl,
        Atom.hush_eq_iff rfl]

/-- **Math at the front of hushed atoms** is what it is without the hush. -/
theorem matchHead_map_hush (as : List Atom) :
    matchHead accepts false (as.map hush) = hushMatch (matchHead accepts false as) := by
  by_cases h : Opens as
  · cases h with
    | dollar as =>
        cases as with
        | nil =>
            rw [List.map_singleton, hush, matchHead_of_cutShort (cutShort_iff.2 (by simp))]
            rfl
        | cons a as =>
            rw [List.map_cons, List.map_cons, hush]
            by_cases ha : a = .plain '$'
            · rw [ha, hush, matchHead_dollars, matchHead_dollars,
                closedBy?_map_hush (by simp [Atom.isOpen]), conclude_map_hush]
            · have ha' : a.hush ≠ .plain '$' := (Atom.hush_eq_iff rfl).not.2 ha
              rw [matchHead_dollar ha, matchHead_dollar ha', ← List.map_cons,
                splitAround?_map_hush (by simp [Atom.isOpen]), conclude_map_hush]
    | bracket as =>
        rw [List.map_cons, hush, matchHead_bracket, matchHead_bracket,
          closedBy?_map_hush (by simp [Atom.isOpen]), conclude_map_hush]
    | paren as =>
        rw [List.map_cons, hush, matchHead_paren, matchHead_paren,
          closedBy?_map_hush (by simp [Atom.isOpen]), conclude_map_hush]
    | environment as =>
        have hplain : (['e', 'g', 'i', 'n', '{'].map Atom.plain).map hush =
            ['e', 'g', 'i', 'n', '{'].map .plain := rfl
        rw [List.map_cons, List.map_append, hplain, hush, matchHead_environment,
          matchHead_environment, matchEnvironment_map_hush]
  · rw [matchHead_whole_of_not_opens h, matchHead_whole_of_not_opens (opens_map_hush_iff.not.2 h)]
    rfl

/-! ## Regions of hushed atoms -/

/-- Where a region is and what its delimiters are, whatever it contains. -/
def frame (r : Region) : Nat × Nat × Delimiters := (r.start, r.stop, r.delimiters)

/-- Nor does it move a region. -/
theorem frame_region_hush (m : Match) (position : Nat) :
    (m.hush.region position).frame = (m.region position).frame := by
  simp [frame, Match.region, Match.hush, stop, text]

/-- **The regions of hushed atoms** are in the same places. -/
theorem map_frame_regions (position : Nat) (as : List Atom) :
    (regions accepts position (as.map hush)).map frame =
      (regions accepts position as).map frame := by
  fun_induction regions accepts position as with
  | case1 position => rw [List.map_nil, regions_nil]
  | case2 position a rest m hm ih =>
      have hframe := frame_region_hush m position
      have hstop : (m.hush.region position).stop = (m.region position).stop :=
        congrArg (·.2.1) hframe
      -- the match behind hushed atoms is the hushed match, and it has the same ends
      have hm' : matchHead accepts false ((a :: rest).map hush) = .found m.hush := by
        rw [matchHead_map_hush, hm, hushMatch]
      rw [List.map_cons] at hm'
      rw [List.map_cons, regions_of_found hm', List.map_cons, List.map_cons, hframe, hstop]
      exact congrArg _ ih
  | case3 position a rest hm ih =>
      have hm' : matchHead accepts false ((a :: rest).map hush) = .absent := by
        rw [matchHead_map_hush, hm, hushMatch]
      rw [List.map_cons] at hm'
      rw [List.map_cons, regions_of_absent hm', Atom.width_hush, ih]
  | case4 position a rest hm => exact absurd hm (matchHead_whole_ne_inconclusive _)

/-- Which region contains an offset is seen from where the regions are. -/
theorem map_frame_find? (rs : List Region) (offset : Nat) :
    (rs.find? (·.contains offset)).map frame =
      (rs.map frame).find? fun f => f.1 ≤ offset && offset ≤ f.2.1 := by
  rw [List.find?_map]
  rfl

end Region

/-! ## The comments of a text -/

/-- Whether a text has a comment between two offsets: a percent sign at a live place and what
follows it on its line. -/
def HasComment (t : Text) (start stop : Nat) : Prop :=
  ∃ before body after, t = before ++ ('%' :: body ++ after) ∧ Live before ∧ '\n' ∉ body ∧
    (∀ c ∈ after.head?, c = '\n') ∧
    start = Text.width before ∧ stop = Text.width (before ++ '%' :: body)

/-- Whether a text has a character that starts at an offset. -/
def HoldsAt (t : Text) (offset : Nat) (c : Char) : Prop :=
  ∃ before after, t = before ++ c :: after ∧ offset = Text.width before

/-- Whether an offset lies outside of all comments of a text. -/
def OutsideComments (t : Text) (offset : Nat) : Prop :=
  ∀ start stop, HasComment t start stop → offset < start ∨ stop ≤ offset

/-- Whether two texts of the same length have their comments between the same offsets, and the same
characters at all offsets outside of them. -/
structure EqualOutsideComments (t u : Text) : Prop where
  width_eq : Text.width t = Text.width u
  hasComment_iff : ∀ start stop, HasComment t start stop ↔ HasComment u start stop
  holdsAt_iff : ∀ offset, OutsideComments t offset → ∀ c, HoldsAt t offset c ↔ HoldsAt u offset c

/-- The comments of a text are the comments among its atoms. -/
theorem hasComment_iff_atoms {t : Text} {start stop : Nat} :
    HasComment t start stop ↔ ∃ as body bs, atoms t = as ++ .comment body :: bs ∧
      start = Text.width (Atom.join as) ∧ stop = start + (Atom.comment body).width := by
  constructor
  -- a live percent sign starts an atom of its own
  · rintro ⟨before, body, after, rfl, hlive, hbody, hafter, rfl, rfl⟩
    have hbegins : (Atom.comment body).Begins after :=
      .comment (fun c hc heq => hbody (heq ▸ hc)) hafter
    refine ⟨atoms before, body, atoms after, ?_, ?_, Text.width_append _ _⟩
    · rw [hlive.atoms_append]
      exact congrArg _ (atoms_text_append hbegins)
    · rw [join_atoms]
  · rintro ⟨as, body, bs, ht, rfl, rfl⟩
    obtain ⟨hbegins, -⟩ := begins_of_atoms (atoms_join_of_append ht).2
    cases hbegins with
    | comment hbody hafter =>
        refine ⟨Atom.join as, body, Atom.join bs, ?_, live_join_of_append ht (by simp),
          fun hmem => hbody _ hmem rfl, hafter, rfl, (Text.width_append _ _).symm⟩
        rw [← join_atoms t, ht, Atom.join_append, Atom.join_cons]
        rfl

/-- A comment has its percent sign at least. -/
theorem HasComment.start_lt_stop {t : Text} {start stop : Nat} (h : HasComment t start stop) :
    start < stop := by
  obtain ⟨_, _, _, _, _, rfl⟩ := hasComment_iff_atoms.1 h
  exact Nat.lt_add_of_pos_right (Atom.width_pos _)

/-! ## Texts behind a live place -/

/-- A comment lies on one side of a live place. -/
theorem HasComment.of_append {s t : Text} (hs : Live s) {start stop : Nat}
    (h : HasComment (s ++ t) start stop) :
    stop ≤ Text.width s ∨ ∃ start' stop', HasComment t start' stop' ∧
      start = Text.width s + start' ∧ stop = Text.width s + stop' := by
  obtain ⟨as, body, bs, ht, rfl, rfl⟩ := hasComment_iff_atoms.1 h
  rw [hs.atoms_append] at ht
  by_cases hlt : Text.width (Atom.join as) < Text.width s
  · -- the comment is one of the atoms of `s`
    obtain ⟨mid, hmid, hrest⟩ := Region.exists_append_of_width_le ht
      (by rw [join_atoms]; exact Nat.le_of_lt hlt)
    have hwidth := congrArg (fun as => Text.width (Atom.join as)) hmid
    simp only [join_atoms, Atom.join_append, Text.width_append] at hwidth
    cases mid with
    | nil =>
        rw [Atom.join_nil] at hwidth
        simp only [Text.width, Text.measure_nil] at hwidth hlt
        omega
    | cons a mid =>
        obtain ⟨rfl, -⟩ := List.cons.inj hrest
        rw [Atom.join_cons, Text.width_append] at hwidth
        left
        rw [Atom.width]
        omega
  · obtain ⟨mid, rfl, hrest⟩ := Region.exists_append_of_width_le ht.symm
      (by rw [join_atoms]; omega)
    rw [Atom.join_append, Text.width_append, join_atoms]
    exact .inr ⟨_, _, hasComment_iff_atoms.2 ⟨mid, body, bs, hrest, rfl, rfl⟩, rfl, by omega⟩

/-- Behind a live place the comments of a text are where they are in it alone. -/
theorem hasComment_append_iff {s t : Text} (hs : Live s) {start stop : Nat} :
    HasComment (s ++ t) (Text.width s + start) (Text.width s + stop) ↔
      HasComment t start stop := by
  constructor
  · intro h
    have hlt := h.start_lt_stop
    rcases h.of_append hs with hle | ⟨start', stop', h, hstart, hstop⟩
    · omega
    · rwa [Nat.add_left_cancel hstart, Nat.add_left_cancel hstop]
  · rintro ⟨before, body, after, rfl, hlive, hbody, hafter, rfl, rfl⟩
    refine ⟨s ++ before, body, after, by simp, hs.append_iff.2 hlive, hbody, hafter, ?_, ?_⟩
    · rw [Text.width_append]
    · rw [List.append_assoc, Text.width_append s]

/-- And what lies outside of them in it does so behind that place. -/
theorem OutsideComments.append {s t : Text} (hs : Live s) {offset : Nat}
    (h : OutsideComments t offset) : OutsideComments (s ++ t) (Text.width s + offset) := by
  intro start stop hcomment
  rcases hcomment.of_append hs with hle | ⟨start', stop', hbehind, rfl, rfl⟩
  · omega
  · have := h start' stop' hbehind
    omega

/-- The characters of a text are where they are in it alone, behind any text. -/
theorem holdsAt_append_iff {s t : Text} {offset : Nat} {c : Char} :
    HoldsAt (s ++ t) (Text.width s + offset) c ↔ HoldsAt t offset c := by
  constructor
  · rintro ⟨before, after, hsplit, hwidth⟩
    rcases List.append_eq_append_iff.1 hsplit with ⟨mid, rfl, rfl⟩ | ⟨mid, rfl, hmid⟩
    · rw [Text.width_append] at hwidth
      exact ⟨mid, after, rfl, Nat.add_left_cancel hwidth⟩
    · -- the character stands in front of `t`
      rw [Text.width_append] at hwidth
      cases mid with
      | nil =>
          simp only [Text.width, Text.measure_nil] at hwidth
          exact ⟨[], after, hmid.symm, by simp only [Text.width, Text.measure_nil]; omega⟩
      | cons d mid =>
          have := Text.width_pos (List.cons_ne_nil d mid)
          omega
  · rintro ⟨before, after, rfl, rfl⟩
    exact ⟨s ++ before, after, by simp, (Text.width_append s before).symm⟩

/-- The character at zero is the first one. -/
theorem holdsAt_zero_iff {t : Text} {c : Char} : HoldsAt t 0 c ↔ ∃ rest, t = c :: rest := by
  constructor
  · rintro ⟨before, after, rfl, hwidth⟩
    cases before with
    | nil => exact ⟨after, rfl⟩
    | cons d before =>
        have := Text.width_pos (List.cons_ne_nil d before)
        omega
  · rintro ⟨rest, rfl⟩
    exact ⟨[], rest, rfl, rfl⟩

namespace EqualOutsideComments

/-- Behind live places of the same length two texts are still equal outside comments. -/
theorem of_append {s s' t u : Text} (hs : Live s) (hs' : Live s')
    (hwidth : Text.width s = Text.width s') (h : EqualOutsideComments (s ++ t) (s' ++ u)) :
    EqualOutsideComments t u where
  width_eq := by
    have := h.width_eq
    rw [Text.width_append, Text.width_append] at this
    omega
  hasComment_iff start stop := by
    rw [← hasComment_append_iff hs, h.hasComment_iff, hwidth, hasComment_append_iff hs']
  holdsAt_iff offset houtside c := by
    rw [← holdsAt_append_iff (s := s), h.holdsAt_iff _ (houtside.append hs), hwidth,
      holdsAt_append_iff]

/-- The first character, if it is no percent sign. -/
theorem eq_cons {c : Char} (hc : c ≠ '%') {t u : Text} (h : EqualOutsideComments (c :: t) u) :
    ∃ rest, u = c :: rest := by
  have houtside : OutsideComments (c :: t) 0 := by
    rintro start stop ⟨before, body, after, ht, -, -, -, rfl, -⟩
    cases before with
    | nil => exact absurd (List.cons.inj ht).1 hc
    | cons d before => exact .inl (Text.width_pos (List.cons_ne_nil d before))
  exact holdsAt_zero_iff.1 ((h.holdsAt_iff 0 houtside c).1 (holdsAt_zero_iff.2 ⟨t, rfl⟩))

/-- The escaped character, if the first one is a backslash. -/
theorem eq_escape {c : Char} {t u : Text} (h : EqualOutsideComments ('\\' :: c :: t) u) :
    ∃ rest, u = '\\' :: c :: rest := by
  obtain ⟨rest, rfl⟩ := h.eq_cons (by decide)
  have hwidth : Text.width ['\\'] + 0 = 1 := rfl
  have houtside : OutsideComments ('\\' :: c :: t) 1 := by
    rintro start stop ⟨before, body, after, ht, hlive, -, -, rfl, -⟩
    -- no comment starts at the backslash, and the place behind it is not live
    match before with
    | [] => exact absurd (List.cons.inj ht).1 (by decide)
    | [d] =>
        obtain ⟨rfl, -⟩ := List.cons.inj ht
        exact absurd hlive.even (by decide)
    | d :: e :: before =>
        have := d.utf8Size_pos
        have := e.utf8Size_pos
        simp only [Text.width, Text.measure_cons]
        omega
  have hholds := h.holdsAt_iff 1 houtside c
  rw [← hwidth, ← List.singleton_append, ← List.singleton_append (l := rest), holdsAt_append_iff,
    holdsAt_append_iff, holdsAt_zero_iff, holdsAt_zero_iff] at hholds
  obtain ⟨rest', rfl⟩ := hholds.1 ⟨t, rfl⟩
  exact ⟨rest', rfl⟩

/-- The comment at the front, whatever it says, goes up to the same place. -/
theorem eq_comment {body t u : Text} (hbody : '\n' ∉ body) (ht : ∀ c ∈ t.head?, c = '\n')
    (h : EqualOutsideComments ('%' :: body ++ t) u) :
    ∃ body' rest, u = '%' :: body' ++ rest ∧ '\n' ∉ body' ∧ (∀ c ∈ rest.head?, c = '\n') ∧
      Text.width body' = Text.width body ∧ Text.width rest = Text.width t := by
  have hcomment : HasComment ('%' :: body ++ t) 0 (Text.width ('%' :: body)) :=
    ⟨[], body, t, rfl, live_nil, hbody, ht, rfl, rfl⟩
  obtain ⟨before, body', rest, rfl, -, hbody', hrest, hstart, hstop⟩ :=
    (h.hasComment_iff _ _).1 hcomment
  -- the comment of `u` starts where that of the other text does, at its first byte
  obtain rfl : before = [] := by
    by_contra hne
    have := Text.width_pos hne
    omega
  have hwidth := h.width_eq
  simp only [List.nil_append, List.cons_append, Text.width, Text.measure_cons,
    Text.measure_append] at hstop hwidth
  refine ⟨body', rest, rfl, hbody', hrest, ?_, ?_⟩ <;> simp only [Text.width] <;> omega

end EqualOutsideComments

/-- The atoms of a text that starts with a comment. -/
theorem atoms_comment_append {body t : Text} (hbody : '\n' ∉ body) (ht : ∀ c ∈ t.head?, c = '\n') :
    atoms ('%' :: body ++ t) = .comment body :: atoms t :=
  atoms_text_append (.comment (fun _ hc heq => hbody (heq ▸ hc)) ht)

/-- A text is what belongs to a comment before it, and the rest from the end of the line on. -/
theorem exists_comment_append (t : Text) :
    ∃ body rest, t = body ++ rest ∧ '\n' ∉ body ∧ ∀ c ∈ rest.head?, c = '\n' := by
  refine ⟨t.takeWhile (· ≠ '\n'), t.dropWhile (· ≠ '\n'), List.takeWhile_append_dropWhile.symm,
    notMem_takeWhile_comment t, fun c hc => ?_⟩
  simpa using Text.head?_dropWhile t c hc

/-- A text without bytes is empty. -/
theorem eq_nil_of_width_eq {t : Text} (h : Text.width t = Text.width []) : t = [] := by
  by_contra hne
  have := Text.width_pos hne
  simp only [Text.width, Text.measure_nil] at h this
  omega

/-- Texts that are equal outside comments have the same atoms, once these are hushed. -/
theorem EqualOutsideComments.map_hush_atoms {t u : Text} (h : EqualOutsideComments t u) :
    (atoms t).map hush = (atoms u).map hush := by
  -- the induction goes from live place to live place, over an escape at once, and over a comment
  -- together with the newline that ends it
  induction hn : t.length using Nat.strong_induction_on generalizing t u with
  | _ n ih =>
    subst hn
    match t with
    | [] => rw [eq_nil_of_width_eq h.width_eq.symm]
    | c :: t =>
        by_cases hp : c = '%'
        · obtain ⟨body, after, rfl, hbody, hafter⟩ := exists_comment_append t
          subst hp
          rw [← List.cons_append] at h ⊢
          obtain ⟨body', rest, rfl, hbody', hrest, hwidth, hwidth'⟩ := h.eq_comment hbody hafter
          have hhush : (Atom.comment body).hush = (Atom.comment body').hush := by
            rw [hush, hush, hwidth]
          rw [atoms_comment_append hbody hafter, atoms_comment_append hbody' hrest, List.map_cons,
            List.map_cons, hhush]
          congr 1
          match after, rest with
          | [], rest => rw [eq_nil_of_width_eq hwidth']
          | after, [] => rw [eq_nil_of_width_eq hwidth'.symm]
          | c :: after, d :: rest =>
              obtain rfl := hafter c rfl
              obtain rfl := hrest d rfl
              have hends : Text.width ('%' :: body ++ ['\n']) =
                  Text.width ('%' :: body' ++ ['\n']) := by
                simp only [List.cons_append, Text.width, Text.measure_cons, Text.measure_append]
                  at hwidth ⊢
                omega
              have hbehind : EqualOutsideComments after rest := by
                refine EqualOutsideComments.of_append (live_comment body) (live_comment body')
                  hends ?_
                simpa using h
              rw [atoms_plain (by decide) (by decide), atoms_plain (by decide) (by decide),
                List.map_cons, List.map_cons, ih after.length (by simp; omega) hbehind rfl]
        · by_cases hb : c = '\\'
          · subst hb
            match t with
            | [] =>
                obtain ⟨rest, rfl⟩ := h.eq_cons hp
                have hwidth := h.width_eq
                simp only [Text.width, Text.measure_cons] at hwidth
                rw [eq_nil_of_width_eq (Nat.add_left_cancel hwidth).symm]
            | d :: t =>
                obtain ⟨rest, rfl⟩ := h.eq_escape
                rw [atoms_escape, atoms_escape, List.map_cons, List.map_cons,
                  ih t.length (by simp)
                    (h.of_append (live_escape d) (live_escape d) rfl) rfl]
          · obtain ⟨rest, rfl⟩ := h.eq_cons hp
            rw [atoms_plain hb hp, atoms_plain hb hp, List.map_cons, List.map_cons,
              ih t.length (by simp) (h.of_append (live_plain hb hp) (live_plain hb hp) rfl) rfl]

/-! ## Texts with the same hushed atoms -/

section

variable {t u : Text} (h : (atoms t).map hush = (atoms u).map hush)
include h

/-- Texts that are equal when hushed have the same length. -/
theorem width_eq_of_map_hush_eq : Text.width t = Text.width u := by
  rw [← join_atoms t, ← Atom.width_join_map_hush, h, Atom.width_join_map_hush, join_atoms]

/-- An atom of the one text has its place in the other, hushed alike. -/
theorem exists_append_of_map_hush_eq {as bs : List Atom} {a : Atom} (ht : atoms t = as ++ a :: bs) :
    ∃ as' a' bs', atoms u = as' ++ a' :: bs' ∧ a'.hush = a.hush ∧
      Text.width (Atom.join as') = Text.width (Atom.join as) := by
  rw [ht, List.map_append, List.map_cons, eq_comm, List.map_eq_append_iff] at h
  obtain ⟨as', back, hu, has, hback⟩ := h
  obtain ⟨a', bs', rfl, ha, -⟩ := List.map_eq_cons_iff.1 hback
  refine ⟨as', a', bs', hu, ha, ?_⟩
  rw [← Atom.width_join_map_hush, has, Atom.width_join_map_hush]

/-- They have their comments at the same places. -/
theorem hasComment_of_map_hush_eq {start stop : Nat} (hcomment : HasComment t start stop) :
    HasComment u start stop := by
  obtain ⟨as, body, bs, ht, rfl, rfl⟩ := hasComment_iff_atoms.1 hcomment
  obtain ⟨as', a', bs', hu, ha, hwidth⟩ := exists_append_of_map_hush_eq h ht
  obtain ⟨body', rfl, -⟩ := Atom.hush_eq_hush_comment_iff.1 ha
  refine hasComment_iff_atoms.2 ⟨as', body', bs', hu, hwidth.symm, ?_⟩
  rw [← Atom.width_hush, ← ha, Atom.width_hush]

end

/-- A character of the text of some atoms is one of the text of an atom. -/
theorem exists_atom_of_join {as : List Atom} {before after : Text} {c : Char}
    (h : Atom.join as = before ++ c :: after) :
    ∃ front a back x y, as = front ++ a :: back ∧ a.text = x ++ c :: y ∧
      before = Atom.join front ++ x := by
  induction as generalizing before with
  | nil => simp at h
  | cons a as ih =>
      rw [Atom.join_cons] at h
      rcases List.append_eq_append_iff.1 h with ⟨mid, rfl, hmid⟩ | ⟨mid, ha, hmid⟩
      · obtain ⟨front, b, back, x, y, rfl, hb, rfl⟩ := ih hmid
        exact ⟨a :: front, b, back, x, y, rfl, hb, by simp⟩
      · cases mid with
        | nil =>
            -- the character is the first one of the next atom
            have hfirst : Atom.join as = [] ++ c :: after := hmid.symm
            obtain ⟨front, b, back, x, y, rfl, hb, hx⟩ := ih hfirst
            rw [List.append_nil] at ha
            obtain ⟨hfront, rfl⟩ := List.append_eq_nil_iff.1 hx.symm
            exact ⟨a :: front, b, back, [], y, rfl, hb, by simp [ha, hfront]⟩
        | cons d mid =>
            obtain ⟨rfl, -⟩ := List.cons.inj hmid
            exact ⟨[], a, as, before, mid, rfl, ha, rfl⟩

/-- And the same characters outside of them. -/
theorem holdsAt_of_map_hush_eq {t u : Text} (h : (atoms t).map hush = (atoms u).map hush)
    {offset : Nat} (houtside : OutsideComments t offset) {c : Char} (hholds : HoldsAt t offset c) :
    HoldsAt u offset c := by
  obtain ⟨before, after, ht, rfl⟩ := hholds
  rw [← join_atoms t] at ht
  obtain ⟨front, a, back, x, y, hatoms, ha, rfl⟩ := exists_atom_of_join ht
  obtain ⟨front', a', back', hu, hhush, hwidth⟩ := exists_append_of_map_hush_eq h hatoms
  have hsame : a' = a := by
    cases a with
    | comment body =>
        -- the offset would lie in the comment
        have hcomment := hasComment_iff_atoms.2 ⟨front, body, back, hatoms, rfl, rfl⟩
        have hlt := houtside _ _ hcomment
        have := Text.width_pos (List.cons_ne_nil c y)
        rw [Atom.width, ha] at hlt
        simp only [Text.width_append] at hlt
        omega
    | _ => cases a' <;> simp_all [hush]
  subst hsame
  refine ⟨Atom.join front' ++ x, y ++ Atom.join back', ?_, ?_⟩
  · rw [← join_atoms u, hu, Atom.join_append, Atom.join_cons, ha]
    simp
  · rw [Text.width_append, Text.width_append, hwidth]

/-- **Texts that are equal outside comments** are those whose atoms are the same, once these are
hushed. -/
theorem equalOutsideComments_iff {t u : Text} :
    EqualOutsideComments t u ↔ (atoms t).map hush = (atoms u).map hush := by
  constructor
  · exact EqualOutsideComments.map_hush_atoms
  · intro h
    have hcomment (start stop : Nat) : HasComment t start stop ↔ HasComment u start stop :=
      ⟨hasComment_of_map_hush_eq h, hasComment_of_map_hush_eq h.symm⟩
    refine ⟨width_eq_of_map_hush_eq h, hcomment, fun offset houtside c =>
      ⟨holdsAt_of_map_hush_eq h houtside, holdsAt_of_map_hush_eq h.symm ?_⟩⟩
    intro start stop hstop
    exact houtside start stop ((hcomment start stop).2 hstop)

instance decidableEqualOutsideComments (t u : Text) : Decidable (EqualOutsideComments t u) :=
  decidable_of_iff _ equalOutsideComments_iff.symm

namespace Region

/-! ## What is located -/

/-- **Comments do not matter.** Without a window, documents that are equal outside comments have the
same answer at every offset: none, or a region with the same ends and delimiters. -/
theorem locate?_of_equalOutsideComments {r : Recognition} (hr : r.window = 0) {t u : Text}
    (h : EqualOutsideComments t u) (offset : Nat) :
    (locate? r t offset).map frame = (locate? r u offset).map frame := by
  rw [locate?_of_unwindowed (.inl hr), locate?_of_unwindowed (.inl hr), map_frame_find?,
    map_frame_find?, ← map_frame_regions, h.map_hush_atoms, map_frame_regions]

/-- A dollar in a comment, in a document where the comment has other characters of the same size. -/
theorem locate?_of_equalOutsideComments_dollar :
    EqualOutsideComments "\\% $a%é$\n$ b".toList "\\% $a%\\)%\n$ b".toList ∧
      (locate? ⟨[], false, 0⟩ "\\% $a%é$\n$ b".toList 6).map frame =
        some (3, 11, .inlineDollar) ∧
      (locate? ⟨[], false, 0⟩ "\\% $a%\\)%\n$ b".toList 6).map frame =
        some (3, 11, .inlineDollar) := by
  have hequal : EqualOutsideComments "\\% $a%é$\n$ b".toList "\\% $a%\\)%\n$ b".toList := by
    decide +kernel
  have hlocate : (locate? ⟨[], false, 0⟩ "\\% $a%é$\n$ b".toList 6).map frame =
      some (3, 11, .inlineDollar) := by decide +kernel
  exact ⟨hequal, hlocate, (locate?_of_equalOutsideComments rfl hequal 6).symm.trans hlocate⟩

end Region

end MathEdit
