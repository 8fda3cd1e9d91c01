import MathEdit.Proofs.Region.Bytes.Closers

/-! # Math in bytes

Where the search in bytes stands in front of atoms, it sees the opening delimiters that the atoms
begin with, also the ones that its limit cuts short, and finds the math there that a look at the
atoms finds. The walk along a document follows from that atom by atom.

* **`matchAt?_eq`**: the math at an index.
* **`findContaining?_eq`**: the first math from an index on that contains an offset. -/

namespace MathEdit

open Region

namespace Search

variable {α β γ : Type}

/-- Changes of an outcome add up. -/
theorem map_map (g : β → γ) (f : α → β) (found : Search α) :
    (found.map f).map g = found.map (g ∘ f) := by
  cases found <;> rfl

/-- Where nothing is found there is nothing to change. -/
theorem map_atEnd (f : α → β) (more : Bool) : (atEnd more).map f = atEnd more := by
  cases more <;> rfl

/-- A function that does not fail on what is found. -/
theorem mapM_eq {f : α → Option β} {g : α → β} {found : Search α}
    (h : ∀ a, found = .found a → f a = some (g a)) : found.mapM f = some (found.map g) := by
  cases found with
  | found a =>
      rw [mapM, h a rfl]
      rfl
  | absent => rfl
  | inconclusive => rfl

end Search

namespace ByteSearch

variable {s : ByteSearch} {i : Nat} {as : List Atom}

/-! ## Math behind an opening delimiter -/

/-- What the search in bytes reports of a match: its end and its delimiters. -/
def reach (i : Nat) (m : Match) : Nat × Delimiters := ((m.region i).stop, m.delimiters)

/-- The closing delimiter of what is found stands behind the content, which is not empty. -/
theorem map_closeAt (more : Bool) (d : Delimiters) (i : Nat)
    (found : Option (List Atom × List Atom)) :
    (closeAt more (i + Text.width d.opening) (i + Text.width d.opening) found).map
        (fun close => (close + Text.width d.closing, d)) =
      (conclude more d found).map (reach i) := by
  rcases found with _ | ⟨body, rest⟩
  · rw [closeAt, conclude, Search.map_atEnd, Search.map_atEnd]
  · by_cases hbody : body = []
    · subst hbody
      rw [closeAt_nil, if_neg (Nat.lt_irrefl _)]
      rfl
    -- content that is not empty has a byte, so the closing delimiter is found behind the start
    · have hpos : 0 < Text.width (Atom.join body) := by
        obtain ⟨a, body, rfl⟩ := List.exists_cons_of_ne_nil hbody
        rw [Atom.join_cons, Text.width_append]
        exact Nat.lt_of_lt_of_le a.width_pos (Nat.le_add_right _ _)
      rw [closeAt, if_pos (Nat.lt_add_of_pos_right hpos), conclude_of_ne_nil hbody, Search.map,
        Search.map, reach, stop_eq_contentStop_add]
      rfl

/-- **Behind an opening delimiter** the math up to its closing delimiter is found. -/
theorem matchClosed?_eq (hs : Text.width s.text < 2 ^ 32) {d : Delimiters}
    (h : s.Stands i (atoms d.opening ++ as)) (find? : Nat → Option (Search Nat))
    {found : Option (List Atom × List Atom)}
    (hfind : find? (i + Text.width d.opening) =
      some (closeAt s.more (i + Text.width d.opening) (i + Text.width d.opening) found))
    (happend : ∀ body rest, found = some (body, rest) → as = body ++ atoms d.closing ++ rest) :
    matchClosed? d i find? = some ((conclude s.more d found).map (reach i)) := by
  have hlimit := h.limit_le
  have hopening := h.append
  rw [join_atoms] at hopening
  have hend := hopening.limit_eq
  rw [matchClosed?, Word.add?_eq (by omega)]
  simp only [Option.bind_eq_bind, Option.bind_some, hfind]
  rw [← map_closeAt]
  apply Search.mapM_eq
  intro close hclose
  rcases found with _ | ⟨body, rest⟩
  · exact absurd hclose atEnd_ne_found
  · -- the closing delimiter ends before the limit
    rw [happend body rest rfl, List.append_assoc] at hopening
    have hclosing := hopening.append.append.limit_eq
    rw [join_atoms] at hclosing
    rw [closeAt] at hclose
    split at hclose
    · obtain rfl := Search.found.inj hclose
      rw [Word.add?_eq (by omega)]
      rfl
    · cases hclose

/-! ## Environments -/

/-- Behind a name stands a character that is none of a name. -/
theorem exists_cons_of_nameRun {b : Atom} {rest : List Atom} {name : Text}
    (h : nameRun as = (name, b :: rest)) :
    ∃ c u, b.text = c :: u ∧ isNameCharacter c = false ∧ (c = '}' ↔ b = .plain '}') := by
  fun_induction nameRun as generalizing name with
  | case1 c as hc n r hr ih =>
      obtain ⟨-, rfl⟩ := Prod.mk.inj h
      exact ih hr
  | case2 c as hc =>
      obtain ⟨-, hb⟩ := Prod.mk.inj h
      obtain rfl := (List.cons.inj hb).1
      exact ⟨c, [], rfl, by simpa using hc, by simp⟩
  -- any other atom starts with a backslash or a percent sign
  | case3 as hno =>
      obtain ⟨-, rfl⟩ := Prod.mk.inj h
      cases b with
      | plain c => exact absurd rfl (hno c rest)
      | escape c => exact ⟨'\\', [c], rfl, by decide, by simp⟩
      | comment body => exact ⟨'%', body, rfl, by decide, by simp⟩
      | backslash => exact ⟨'\\', [], rfl, by decide, by simp⟩

/-- What is read of a name whose brace opens at index `i`, with some atoms behind it. -/
def nameAt (more : Bool) (i : Nat) (name : Text) : List Atom → Search (Text × Nat)
  | [] => .atEnd more
  | b :: _ => if b = .plain '}' then .found (name, i + Text.width name + 2) else .absent

/-- **The name of an environment** is read up to its brace, if no other character comes first. -/
theorem environmentName?_eq (hs : Text.width s.text < 2 ^ 32) (h : s.Stands i (.plain '{' :: as))
    {name : Text} {rest : List Atom} (hname : nameRun as = (name, rest)) :
    s.environmentName? i = some (nameAt s.more i name rest) := by
  have hcharacters : ∀ c ∈ name, (!isNameCharacter c) = false := by
    intro c hc
    rw [isNameCharacter_of_nameRun hname c hc]
    rfl
  have hlimit := h.limit_le
  have hslice : (Text.slice? i s.limit s.text).bind (Text.dropPrefix? ['{']) =
      some (name ++ Atom.join rest) := by
    rw [h.slice?, Option.bind_some, append_of_nameRun hname, Atom.join_cons, Atom.join_append,
      join_map_plain]
    exact Text.dropPrefix?_append ['{'] _
  rw [environmentName?, hslice]
  dsimp only
  cases rest with
  | nil =>
      rw [Atom.join_nil, List.append_nil, Text.offsetOf?_eq_none hcharacters]
      rfl
  | cons b rest =>
      obtain ⟨c, u, hb, hc, hbrace⟩ := exists_cons_of_nameRun hname
      -- the text is cut in front of the first character behind the name
      have hfront := Text.slice?_width_append [] name (c :: (u ++ Atom.join rest))
      have hback := Text.slice?_width_append name (c :: (u ++ Atom.join rest)) []
      rw [Text.width, Text.measure_nil, Nat.zero_add, List.nil_append] at hfront
      rw [List.append_nil, ← Text.width_append] at hback
      rw [Atom.join_cons, hb, List.cons_append,
        Text.offsetOf?_append_cons hcharacters (by rw [hc]; rfl)]
      simp only [Option.bind_eq_bind, hback, hfront, Option.bind_some, List.head?_cons,
        Option.some_inj, hbrace]
      by_cases hclosed : b = .plain '}'
      · have hwidth : i + Text.width name + 2 ≤ s.limit := by
          rw [h.limit_eq, append_of_nameRun hname, hclosed, Atom.join_cons, Atom.join_append,
            Atom.join_cons, join_map_plain, Text.width_append, Text.width_append,
            Text.width_append]
          simp only [Atom.text, Text.width, Text.measure_cons, Text.measure_nil,
            Text.utf8Size_of_ascii (c := '{') (by decide),
            Text.utf8Size_of_ascii (c := '}') (by decide)]
          omega
        rw [nameAt, if_pos hclosed, if_pos hclosed, Word.add?_eq (by omega), Option.bind_some,
          Word.add?_eq (by omega)]
        rfl
      · rw [nameAt, if_neg hclosed, if_neg hclosed]
        rfl

/-- **Behind the start of an opening tag** the environment that it opens is found. -/
theorem matchEnvironment?_eq (hs : Text.width s.text < 2 ^ 32)
    (h : s.Stands i (atoms Environment.openingStart ++ as)) :
    s.matchEnvironment? i =
      some ((matchEnvironment s.accepts s.more as).map (reach i)) := by
  have hlimit := h.limit_le
  -- the name is read from the brace on
  have hbrace : s.Stands (i + Text.width "\\begin".toList) (.plain '{' :: as) := by
    have hword : atoms Environment.openingStart = atoms "\\begin".toList ++ [.plain '{'] := by cbv
    rw [hword, List.append_assoc] at h
    have hnext := h.append
    rwa [join_atoms] at hnext
  have hend := hbrace.limit_eq
  obtain ⟨name, rest, hname⟩ : ∃ name rest, nameRun as = (name, rest) := ⟨_, _, rfl⟩
  rw [matchEnvironment?, Word.add?_eq (by omega), Option.bind_eq_bind, Option.bind_some,
    environmentName?_eq hs hbrace hname]
  cases rest with
  | nil =>
      rw [nameAt, matchEnvironment_atEnd hname, Search.map_atEnd]
      cases s.more <;> rfl
  | cons b body =>
      by_cases hb : b = .plain '}'
      · subst hb
        have hcharacters := isNameCharacter_of_nameRun hname
        have htag : atoms Environment.openingStart ++ as =
            atoms (Environment.openingTag name) ++ body := by
          rw [append_of_nameRun hname, atoms_openingTag (plain_of_nameRun hname)]
          simp
        rw [htag] at h
        have hbody := h.append
        rw [join_atoms] at hbody
        have hstart : i + Text.width "\\begin".toList + Text.width name + 2 =
            i + Text.width (Environment.openingTag name) := by
          have hwidth : Text.width (Environment.openingTag []) + Text.width name =
              Text.width (Environment.openingTag name) :=
            congrArg Prod.fst (Delimiters.environment name).lengths_eq
          have hempty : Text.width (Environment.openingTag []) =
              Text.width "\\begin".toList + 2 := by decide
          omega
        rw [nameAt, if_pos rfl, hstart, matchEnvironment_brace hname]
        simp only [Option.bind_eq_bind, Option.bind_some]
        by_cases haccepts : s.accepts name = true
        · rw [if_pos haccepts, if_pos haccepts,
            findEnd?_eq hcharacters hs hbody (Nat.zero_le _), Option.bind_some, Search.map_map]
          exact congrArg some (map_closeAt _ (.environment name) _ _)
        · rw [if_neg haccepts, if_neg haccepts]
          rfl
      · rw [nameAt, if_neg hb, matchEnvironment_other hname hb]
        rfl

/-! ## Math at an index -/

/-- **The limit cuts an opener short** exactly if it cuts the atoms of one short. -/
theorem any_openers_eq (h : s.Stands i as) (hne : as ≠ []) :
    (openers.any fun t => (Text.utf8 (Atom.join as)).length < Text.width t &&
      (Text.utf8 (Atom.join as)).isPrefixOf (Text.utf8 t)) = cutShort as := by
  -- what is left of an opener are its beginnings
  have hbeginnings : ∀ t ∈ openers, ∀ u ∈ t.inits, u ≠ [] → u ≠ t → cutShort (atoms u) = true := by
    decide +kernel
  have hatoms := h.atoms_join
  rw [Bool.eq_iff_iff, List.any_eq_true]
  simp only [Bool.and_eq_true, decide_eq_true_eq, List.isPrefixOf_iff_prefix,
    Text.utf8_prefix_iff, Text.length_utf8]
  constructor
  · rintro ⟨t, ht, hlt, hstarts⟩
    rw [← hatoms]
    refine hbeginnings t ht _ ((List.mem_inits _ _).2 hstarts) ?_ ?_
    · intro hnil
      rw [hnil] at hatoms
      exact hne (hatoms.symm.trans atoms_nil)
    · intro heq
      rw [heq] at hlt
      exact Nat.lt_irrefl _ hlt
  · have hfrom {t : Text} (ht : t ∈ openers) (hstarts : as <+: atoms t) (hcut : as ≠ atoms t) :
        ∃ t ∈ openers, Text.width (Atom.join as) < Text.width t ∧ Atom.join as <+: t := by
      obtain ⟨rest, hrest⟩ := hstarts
      have hjoin : Atom.join as ++ Atom.join rest = t := by
        rw [← Atom.join_append, hrest, join_atoms]
      refine ⟨t, ht, ?_, ⟨_, hjoin⟩⟩
      rw [← hjoin, Text.width_append]
      refine Nat.lt_add_of_pos_right (Text.width_pos ?_)
      intro hnil
      rw [hnil, List.append_nil] at hjoin
      exact hcut (by rw [← hjoin, hatoms])
    rw [cutShort_iff]
    rintro (rfl | ⟨hstarts, hcut⟩ | ⟨hstarts, hcut⟩)
    · exact ⟨Delimiters.displayBracket.opening, by decide, by decide, ['['], rfl⟩
    · rw [← atoms_displayDollar.1] at hstarts hcut
      exact hfrom (by decide) hstarts hcut
    · exact hfrom (by decide) hstarts hcut

/-- The start of an opening tag is like a delimiter. -/
theorem delimiting_openingStart : Delimiting (atoms Environment.openingStart) :=
  ⟨_, _, atoms_openingStart, .inr ⟨_, rfl⟩, by decide⟩

/-- Behind an opening delimiter whose closing one comes behind an atom, too. -/
theorem matchClosed?_closer (hs : Text.width s.text < 2 ^ 32) {d : Delimiters}
    (hclosing : Delimiting (atoms d.closing)) (h : s.Stands i (atoms d.opening ++ as)) :
    matchClosed? d i (fun start => s.findCloser? d.closing start start) =
      some ((conclude s.more d (closedBy? (atoms d.closing) as)).map (reach i)) := by
  have hcontent := h.append
  rw [join_atoms] at hcontent
  exact matchClosed?_eq hs h (fun start => s.findCloser? d.closing start start)
    (findCloser?_start hs hclosing hcontent) fun _ _ => append_of_closedBy?

/-- **Math at an index** is what a look at the atoms there finds. -/
theorem matchAt?_eq (hs : Text.width s.text < 2 ^ 32) (h : s.Stands i as) (hne : as ≠ []) :
    s.matchAt? i = some ((matchHead s.accepts s.more as).map (reach i)) := by
  have hopening {d : Delimiters} (hd : Named s.accepts d) :
      (Text.utf8 d.opening).isPrefixOf (Text.utf8 (Atom.join as)) =
        (atoms d.opening).isPrefixOf as := (delimiting_opening hd).isPrefixOf_utf8 h.atoms_join
  have hdisplay : Named s.accepts .displayDollar := by simp [Named]
  have hinline : Named s.accepts .inlineDollar := by simp [Named]
  have hbracket : Named s.accepts .displayBracket := by simp [Named]
  have hparen : Named s.accepts .inlineParen := by simp [Named]
  rw [matchAt?, h.rest?]
  simp only [Option.bind_eq_bind, Option.bind_some]
  rw [any_openers_eq h hne, hopening hdisplay, hopening hinline, hopening hbracket, hopening hparen,
    delimiting_openingStart.isPrefixOf_utf8 h.atoms_join]
  simp only [List.isPrefixOf_iff_prefix]
  split_ifs with hcut hdollars hdollar hbrackets hparens htag
  · rw [matchHead_of_cutShort hcut, Search.map_atEnd]
    rfl
  · obtain ⟨rest, rfl⟩ := hdollars
    rw [matchClosed?_closer hs (delimiting_closing hdisplay) h, atoms_displayDollar.1,
      atoms_displayDollar.2]
    exact congrArg (fun m => some (m.map (reach i))) (matchHead_dollars rest).symm
  · obtain ⟨rest, rfl⟩ := hdollar
    have hcontent := h.append
    rw [join_atoms] at hcontent
    rw [matchClosed?_eq hs h (fun start => s.findDollar? start start) (findDollar?_eq hs hcontent)
      fun _ _ => atoms_inlineDollar.2 ▸ append_of_splitAround?]
    rw [atoms_inlineDollar.1] at hcut hdollars ⊢
    -- one dollar is neither the last atom nor followed by another one
    cases rest with
    | nil => exact absurd (cutShort_iff.2 (by simp)) hcut
    | cons a rest =>
        have ha : a ≠ .plain '$' := by
          rintro rfl
          exact hdollars ⟨rest, by rw [atoms_displayDollar.1]; rfl⟩
        exact congrArg (fun m => some (m.map (reach i))) (matchHead_dollar ha rest).symm
  · obtain ⟨rest, rfl⟩ := hbrackets
    rw [matchClosed?_closer hs (delimiting_closing hbracket) h, atoms_displayBracket.1,
      atoms_displayBracket.2]
    exact congrArg (fun m => some (m.map (reach i))) (matchHead_bracket rest).symm
  · obtain ⟨rest, rfl⟩ := hparens
    rw [matchClosed?_closer hs (delimiting_closing hparen) h, atoms_inlineParen.1,
      atoms_inlineParen.2]
    exact congrArg (fun m => some (m.map (reach i))) (matchHead_paren rest).symm
  · obtain ⟨rest, rfl⟩ := htag
    rw [matchEnvironment?_eq hs h, atoms_openingStart]
    exact congrArg (fun m => some (m.map (reach i))) (matchHead_environment rest).symm
  · have hunopened : ¬ Opens as := by
      rintro (rest | rest | rest | rest)
      · exact hdollar (by rw [atoms_inlineDollar.1]; exact List.prefix_append [_] rest)
      · exact hbrackets (by rw [atoms_displayBracket.1]; exact List.prefix_append [_] rest)
      · exact hparens (by rw [atoms_inlineParen.1]; exact List.prefix_append [_] rest)
      · exact htag (by rw [atoms_openingStart]; exact List.prefix_append (_ :: _) rest)
    rw [matchHead_of_not_opens hunopened (Bool.eq_false_iff.2 hcut)]
    rfl

/-! ## The walk along a document -/

/-- The search for math around an offset walks along the bytes. -/
theorem walks_findContaining? (hs : Text.width s.text < 2 ^ 32) (offset : Nat) :
    Walks s (s.findContaining? offset) := by
  constructor
  · intro i hi
    rw [findContaining?]
    split_ifs with hgoes
    -- a byte inside of a character is none of the signs that stop the search
    · obtain ⟨b, hbyte, hb⟩ := hi.exists_byte?
      have hlt := hi.lt
      rw [hbyte]
      simp only [Option.bind_eq_bind, Option.bind_some, if_neg (hb '%' (by decide)),
        hb '$' (by decide), hb '\\' (by decide), or_self, if_false]
      rw [Word.add?_eq (by omega), Word.ahead?_eq (Nat.lt_succ_self i), Option.bind_some]
    · have hlt := hi.lt
      rw [findContaining?, if_neg (by omega)]
  · intro i hi
    rw [findContaining?, if_neg (by omega), findContaining?, if_neg (by omega)]

/-- Math starts with a dollar or a backslash. -/
theorem matchHead_of_head? {accepts : Text → Bool} {more : Bool} {a : Atom}
    (hdollar : a.text.head? ≠ some '$') (hbackslash : a.text.head? ≠ some '\\') (as : List Atom) :
    matchHead accepts more (a :: as) = .absent := by
  refine matchHead_of_not_opens ?_ ?_
  · rintro (_ | _ | _ | _)
    · exact hdollar rfl
    · exact hbackslash rfl
    · exact hbackslash rfl
    · exact hbackslash rfl
  · rw [Bool.eq_false_iff, Ne, cutShort_iff, atoms_openingStart, List.cons_prefix_cons,
      List.cons_prefix_cons]
    -- what a cut leaves of an opening delimiter starts like it
    rintro (hcut | ⟨⟨rfl, -⟩, -⟩ | ⟨⟨rfl, -⟩, -⟩)
    · obtain ⟨rfl, -⟩ := List.cons.inj hcut
      exact hbackslash rfl
    · exact hdollar rfl
    · exact hbackslash rfl

/-- A match is cut out of the document, and behind it the search stands in front of what follows. -/
theorem Stands.of_takes {m : Match} {front : List Atom} (h : s.Stands i (front ++ m.rest))
    (htakes : m.Takes front) :
    Extent.cut? s.text i (m.region i).stop m.delimiters = some (m.region i).extent ∧
      s.Stands (m.region i).stop m.rest := by
  have hstop : (m.region i).stop = i + Text.width (Atom.join front) := by
    rw [htakes.join_eq]
    rfl
  rw [hstop]
  refine ⟨?_, h.append⟩
  rw [Extent.cut?, h.slice?_append, htakes.join_eq, Region.extent, hstop, htakes.join_eq]
  rfl

/-- **One step of the walk** goes as a look at the atoms says. -/
theorem findContaining?_cons (hs : Text.width s.text < 2 ^ 32) {offset : Nat} {a : Atom}
    (h : s.Stands i (a :: as)) (hi : i ≤ offset) :
    s.findContaining? offset i =
      match matchHead s.accepts s.more (a :: as) with
      | .inconclusive => some .inconclusive
      | .absent => s.findContaining? offset (i + a.width)
      | .found m =>
          if offset ≤ (m.region i).stop then some (.found (m.region i).extent)
          else s.findContaining? offset (m.region i).stop := by
  obtain ⟨b, hbyte, hb⟩ := h.exists_byte?
  have hstep := h.step?_eq hs
  have hahead := Word.ahead?_eq (Nat.lt_add_of_pos_right a.stride_pos : i < i + a.stride)
  rw [step?, hbyte] at hstep
  rw [findContaining?, if_pos ⟨h.lt, hi⟩, hbyte]
  simp only [Option.bind_eq_bind, Option.bind_some, hb '\\' (by decide), hb '%' (by decide),
    hb '$' (by decide)] at hstep ⊢
  rw [← (walks_findContaining? hs offset).eq_add_width h]
  -- a comment, an opening delimiter or neither
  by_cases hpercent : a.text.head? = some '%'
  · have hbackslash : a.text.head? ≠ some '\\' := by rw [hpercent]; decide
    have hdollar : a.text.head? ≠ some '$' := by rw [hpercent]; decide
    rw [if_neg hbackslash, if_pos hpercent] at hstep
    rw [if_pos hpercent, hstep, hahead, matchHead_of_head? hdollar hbackslash]
    rfl
  · rw [if_neg hpercent] at hstep ⊢
    by_cases hopener : a.text.head? = some '$' ∨ a.text.head? = some '\\'
    · rw [if_pos hopener, matchAt?_eq hs h (List.cons_ne_nil a as), Option.bind_some]
      cases hm : matchHead s.accepts s.more (a :: as) with
      | inconclusive => rfl
      | absent =>
          simp only [Search.map]
          split_ifs at hstep ⊢ <;> rw [hstep, hahead, Option.bind_some]
      | found m =>
          obtain ⟨front, happend, htakes⟩ := takes_of_matchHead hm
          rw [happend] at h
          simp only [Search.map, reach]
          have hstop : i < (m.region i).stop := start_lt_stop (m.region i)
          rw [(h.of_takes htakes).1, Word.ahead?_eq hstop]
          rfl
    · rw [not_or] at hopener
      rw [if_neg hopener.2] at hstep
      rw [if_neg (not_or.2 hopener), hstep, hahead, matchHead_of_head? hopener.1 hopener.2]
      rfl

/-- **The walk along a document** finds what the walk along its atoms finds. -/
theorem findContaining?_eq (hs : Text.width s.text < 2 ^ 32) (offset : Nat) (h : s.Stands i as) :
    s.findContaining? offset i =
      some ((findContaining s.accepts s.more offset i as).map Region.extent) := by
  fun_induction findContaining s.accepts s.more offset i as with
  | case1 i =>
      rw [findContaining?, if_neg fun hgoes => h.not_lt_limit hgoes.1]
      rfl
  | case2 i a as hlt =>
      rw [findContaining?, if_neg fun hgoes => Nat.not_le.2 hlt hgoes.2]
      rfl
  | case3 i a as hle hm =>
      rw [findContaining?_cons hs h (Nat.le_of_not_lt hle), hm]
      rfl
  | case4 i a as hle hm ih =>
      rw [findContaining?_cons hs h (Nat.le_of_not_lt hle), hm]
      exact ih h.tail
  | case5 i a as hle m hm region hstop =>
      rw [findContaining?_cons hs h (Nat.le_of_not_lt hle), hm]
      exact if_pos hstop
  -- the match ends before the offset, and the search goes on behind it
  | case6 i a as hle m hm region hstop ih =>
      obtain ⟨front, happend, htakes⟩ := takes_of_matchHead hm
      rw [findContaining?_cons hs h (Nat.le_of_not_lt hle), hm]
      rw [happend] at h
      exact (if_neg hstop).trans (ih (h.of_takes htakes).2)

end ByteSearch

end MathEdit
