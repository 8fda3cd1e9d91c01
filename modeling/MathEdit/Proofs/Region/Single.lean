import MathEdit.Proofs.Region.Neutral

/-! # Math between neutral texts

Math between neutral texts is found exactly at the offsets of its span, whatever its kind and
whatever the window. A window may start inside of the content, but what is left of the math there
opens nothing, so that the search goes on in the whole document.

* **`matchHead_delimited`**: what a look at the opening delimiter finds.
* **`regions_delimited`**, **`regions_cut`**: the math is the only region of the document, and there
  is none behind a cut inside of its content.
* **`locate?_between_neutral`**: the answer at every offset. -/

namespace MathEdit.Region

variable {accepts : Text → Bool} {more : Bool}

/-! ## Closing delimiters behind other atoms -/

/-- A pattern is not at the front if its first atom is not. -/
theorem splitAround?_cons {a b : Atom} (h : a ≠ b) (pattern bs : List Atom) :
    splitAround? (a :: pattern) (b :: bs) =
      (splitAround? (a :: pattern) bs).map fun (body, rest) => (b :: body, rest) := by
  rw [splitAround?, if_neg]
  simp [h]

/-- A pattern is not found if its first atom is missing. -/
theorem splitAround?_of_notMem {a : Atom} {as : List Atom} (h : a ∉ as) (pattern : List Atom) :
    splitAround? (a :: pattern) as = none := by
  induction as with
  | nil => rfl
  | cons b as ih =>
      obtain ⟨hb, has⟩ := List.ne_and_not_mem_of_not_mem_cons h
      rw [splitAround?_cons hb, ih has]
      rfl

/-- A pattern is found behind atoms that do not have its first one. -/
theorem splitAround?_append {a : Atom} {body : List Atom} (h : a ∉ body)
    (pattern rest : List Atom) :
    splitAround? (a :: pattern) (body ++ a :: pattern ++ rest) = some (body, rest) := by
  induction body with
  | nil => simp [splitAround?]
  | cons b body ih =>
      obtain ⟨hb, hbody⟩ := List.ne_and_not_mem_of_not_mem_cons h
      rw [List.cons_append, List.cons_append, splitAround?_cons hb, ih hbody]
      rfl

/-- Nor is a closing delimiter. -/
theorem closedBy?_of_notMem {a : Atom} {as : List Atom} (h : a ∉ as) (pattern : List Atom) :
    closedBy? (a :: pattern) as = none := by
  cases as with
  | nil => rfl
  | cons b as =>
      rw [closedBy?, splitAround?_of_notMem (List.ne_and_not_mem_of_not_mem_cons h).2]
      rfl

/-- A closing delimiter is found behind a body without its first atom. -/
theorem closedBy?_append {a : Atom} {body : List Atom} (h : a ∉ body) (hne : body ≠ [])
    (pattern rest : List Atom) :
    closedBy? (a :: pattern) (body ++ a :: pattern ++ rest) = some (body, rest) := by
  obtain ⟨b, body, rfl⟩ := List.exists_cons_of_ne_nil hne
  have hfound := splitAround?_append (List.ne_and_not_mem_of_not_mem_cons h).2 pattern rest
  rw [List.cons_append, List.cons_append, closedBy?, hfound]
  rfl

/-- A closing tag balances if no tag of its environment begins before it. -/
theorem balancedBy?_append {opening closing body rest : List Atom} (hne : closing ≠ [])
    (h : ∀ bs, bs <:+ body → bs ≠ [] →
      ¬ opening <+: bs ++ closing ++ rest ∧ ¬ closing <+: bs ++ closing ++ rest) :
    balancedBy? opening closing 0 (body ++ closing ++ rest) = some (body, rest) := by
  -- along the body, at depth zero: neither tag starts in it
  induction body with
  | nil =>
      obtain ⟨a, as, rfl⟩ := List.exists_cons_of_ne_nil hne
      simp [balancedBy?]
  | cons b body ih =>
      obtain ⟨hopening, hclosing⟩ := h (b :: body) List.suffix_rfl (List.cons_ne_nil b body)
      rw [List.cons_append, List.cons_append, ← List.isPrefixOf_iff_prefix] at hopening hclosing
      have hbody := ih fun bs hbs => h bs (hbs.trans (List.suffix_cons b body))
      rw [List.cons_append, List.cons_append, balancedBy?, if_neg hclosing, if_neg hopening]
      simp only [hbody, Option.map_some]

/-- A name is read up to the brace behind it. -/
theorem nameRun_append {name : Text} (h : ∀ c ∈ name, isNameCharacter c = true)
    (rest : List Atom) :
    nameRun (name.map .plain ++ .plain '}' :: rest) = (name, .plain '}' :: rest) := by
  induction name with
  | nil => rfl
  | cons c name ih =>
      obtain ⟨hc, hname⟩ := List.forall_mem_cons.1 h
      rw [List.map_cons, List.cons_append, nameRun, if_pos hc, ih hname]

/-- A closing delimiter behind a body ends a match. -/
theorem conclude_of_ne_nil {body : List Atom} (hne : body ≠ []) (d : Delimiters)
    (rest : List Atom) : conclude more d (some (body, rest)) = .found ⟨d, body, rest⟩ := by
  obtain ⟨a, body, rfl⟩ := List.exists_cons_of_ne_nil hne
  rfl

/-! ## Delimiters around calm atoms -/

/-- Calm atoms between the tags of an environment do not balance before the closing tag. -/
theorem balancedBy?_of_calm {name : Text} (hname : ∀ c ∈ name, c ≠ '\\' ∧ c ≠ '%')
    {body : List Atom} (h : Calm body) (rest : List Atom) :
    balancedBy? (atoms (Environment.openingTag name)) (atoms (Environment.closingTag name)) 0
      (body ++ atoms (Environment.closingTag name) ++ rest) = some (body, rest) := by
  -- either tag starts like all tags of its sort do, which calm atoms rule out
  have hopening : atoms Environment.openingStart <+: atoms (Environment.openingTag name) := by
    rw [atoms_openingTag hname, List.append_assoc]
    exact List.prefix_append _ _
  have hclosing : atoms Environment.closingStart <+: atoms (Environment.closingTag name) := by
    rw [atoms_closingTag hname, atoms_closingStart, List.append_assoc, List.map_append]
    exact List.prefix_append _ _
  have hfirm : Firm (atoms (Environment.closingTag name) ++ rest) := by
    rw [atoms_closingTag hname]
    rintro a ⟨⟩
    exact .inr ⟨_, rfl⟩
  apply balancedBy?_append
  · simp [atoms_closingTag hname]
  · intro bs hbs hne
    rw [List.append_assoc]
    exact ⟨fun hp => not_openingStart_append (h.of_suffix hbs) hfirm hne (hopening.trans hp),
      fun hp => not_closingStart_append (h.of_suffix hbs) hfirm hne (hclosing.trans hp)⟩

/-- **Math at the front.** Calm atoms between delimiters are what a look at the opening delimiter
finds. -/
theorem matchHead_delimited {d : Delimiters} (hd : Named accepts d) {body : List Atom}
    (h : Calm body) (hne : body ≠ []) (rest : List Atom) :
    matchHead accepts more (atoms d.opening ++ (body ++ atoms d.closing ++ rest)) =
      .found ⟨d, body, rest⟩ := by
  cases d with
  | displayDollar =>
      rw [atoms_displayDollar.1, atoms_displayDollar.2, List.cons_append, List.singleton_append,
        matchHead_dollars, closedBy?_append h.dollar hne, conclude_of_ne_nil hne]
  | inlineDollar =>
      obtain ⟨a, body, rfl⟩ := List.exists_cons_of_ne_nil hne
      have ha : a ≠ .plain '$' := (List.ne_and_not_mem_of_not_mem_cons h.dollar).1.symm
      have hfound := splitAround?_append h.dollar [] rest
      rw [List.cons_append, List.cons_append] at hfound
      rw [atoms_inlineDollar.1, atoms_inlineDollar.2, List.singleton_append, List.cons_append,
        List.cons_append, matchHead_dollar ha, hfound, conclude_of_ne_nil hne]
  | displayBracket =>
      rw [atoms_displayBracket.1, atoms_displayBracket.2, List.singleton_append,
        matchHead_bracket, closedBy?_append (h.sign ']' (by simp)) hne, conclude_of_ne_nil hne]
  | inlineParen =>
      rw [atoms_inlineParen.1, atoms_inlineParen.2, List.singleton_append,
        matchHead_paren, closedBy?_append (h.sign ')' (by simp)) hne, conclude_of_ne_nil hne]
  | environment name =>
      obtain ⟨hname, haccepts⟩ := hd name rfl
      have hplain := plain_of_isNameCharacter hname
      rw [Delimiters.opening, Delimiters.closing, atoms_openingTag hplain, atoms_openingStart,
        List.append_assoc, List.append_assoc, List.cons_append, matchHead_environment,
        List.singleton_append, matchEnvironment_brace (nameRun_append hname _), if_pos haccepts,
        balancedBy?_of_calm hplain h, conclude_of_ne_nil hne]

/-! ## Closing delimiters open nothing -/

/-- A dollar in front of calm atoms finds no other one. -/
theorem matchHead_dollar_of_calm {as : List Atom} (h : Calm as) :
    matchHead accepts false (.plain '$' :: as) = .absent := by
  cases as with
  | nil => exact matchHead_of_cutShort (cutShort_iff.2 (by simp))
  | cons a as =>
      have ha : a ≠ .plain '$' := (List.ne_and_not_mem_of_not_mem_cons h.dollar).1.symm
      rw [matchHead_dollar ha, splitAround?_of_notMem h.dollar]
      rfl

/-- Two dollars before calm atoms open nothing. -/
theorem matchHead_dollars_of_calm {as : List Atom} (h : Calm as) :
    matchHead accepts false (.plain '$' :: .plain '$' :: as) = .absent := by
  rw [matchHead_dollars, closedBy?_of_notMem h.dollar]
  rfl

/-- Atoms that are neither dollars nor the escapes that open math are passed over. -/
theorem regions_append_of_ne {as : List Atom}
    (h : ∀ a ∈ as, a ≠ .plain '$' ∧ ∀ c ∈ ['b', '[', '('], a ≠ .escape c) (rest : List Atom)
    (position : Nat) :
    regions accepts position (as ++ rest) =
      regions accepts (position + Text.width (Atom.join as)) rest := by
  apply regions_append_of_not_opens
  intro bs hbs hne hopens
  obtain ⟨a, bs, rfl⟩ := List.exists_cons_of_ne_nil hne
  obtain ⟨hdollar, hescape⟩ := h a (hbs.subset List.mem_cons_self)
  rw [List.cons_append, opens_iff] at hopens
  rcases hopens with rfl | rfl | rfl | htag
  · exact hdollar rfl
  · exact hescape '[' (by simp) rfl
  · exact hescape '(' (by simp) rfl
  · rw [atoms_openingStart, List.cons_prefix_cons] at htag
    exact hescape 'b' (by simp) htag.1.symm

/-- There is no math behind the content of math. -/
theorem regions_closing {d : Delimiters} (hd : Named accepts d) {rest : List Atom} (h : Calm rest)
    (position : Nat) : regions accepts position (atoms d.closing ++ rest) = [] := by
  cases d with
  | displayDollar =>
      rw [atoms_displayDollar.2, List.cons_append, List.singleton_append,
        regions_of_absent (matchHead_dollars_of_calm h),
        regions_of_absent (matchHead_dollar_of_calm h), regions_of_calm h]
  | inlineDollar =>
      rw [atoms_inlineDollar.2, List.singleton_append,
        regions_of_absent (matchHead_dollar_of_calm h), regions_of_calm h]
  | displayBracket =>
      rw [atoms_displayBracket.2, regions_append_of_ne (by simp), regions_of_calm h]
  | inlineParen =>
      rw [atoms_inlineParen.2, regions_append_of_ne (by simp), regions_of_calm h]
  | environment name =>
      have hname := (hd name rfl).1
      have hdollar : '$' ∉ name := fun hc => ne_of_isNameCharacter (hname '$' hc) (by decide) rfl
      rw [Delimiters.closing, atoms_closingTag (plain_of_isNameCharacter hname),
        regions_append_of_ne, regions_of_calm h]
      simp only [List.forall_mem_cons, List.mem_map]
      refine ⟨by simp, ?_⟩
      rintro _ ⟨c, hc, rfl⟩
      refine ⟨?_, by simp⟩
      rintro ⟨⟩
      simp [hdollar] at hc

/-- **No math behind a cut.** Behind a place in the content of math there is none. -/
theorem regions_cut {d : Delimiters} (hd : Named accepts d) {body rest : List Atom}
    (hbody : Calm body) (hrest : Calm rest) (position : Nat) :
    regions accepts position (body ++ (atoms d.closing ++ rest)) = [] := by
  rw [regions_append_of_calm hbody ((delimiting_closing hd).firm_append rest),
    regions_closing hd hrest]

/-- **The only region.** Calm atoms between delimiters are the only region among calm atoms. -/
theorem regions_delimited {d : Delimiters} (hd : Named accepts d) {front body rest : List Atom}
    (hfront : Calm front) (hbody : Calm body) (hne : body ≠ []) (hrest : Calm rest)
    (position : Nat) :
    regions accepts position (front ++ (atoms d.opening ++ (body ++ atoms d.closing ++ rest))) =
      [⟨position + Text.width (Atom.join front), d, Atom.join body⟩] := by
  have hfound : matchHead accepts false (atoms d.opening ++ (body ++ atoms d.closing ++ rest)) =
      .found ⟨d, body, rest⟩ := matchHead_delimited hd hbody hne rest
  rw [regions_append_of_calm hfront ((delimiting_opening hd).firm_append _)]
  obtain ⟨a, tail, hopening, -⟩ := delimiting_opening hd
  rw [hopening, List.cons_append] at hfound ⊢
  rw [regions_of_found hfound, regions_of_calm hrest]
  rfl

/-! ## The document -/

/-- The atoms of a document are those of two parts if none of the first part is open. -/
theorem atoms_append_of_forall {s : Text} (h : ∀ a ∈ atoms s, a.isOpen = false) (t : Text) :
    atoms (s ++ t) = atoms s ++ atoms t :=
  atoms_append (fun a ha => h a (List.mem_of_getLast? ha)) t

/-- Math between calm texts has its atoms between theirs. -/
theorem atoms_delimited {d : Delimiters} (hd : Named accepts d) {p c : Text}
    (hp : Calm (atoms p)) (hc : Calm (atoms c)) (s : Text) :
    atoms (p ++ d.opening ++ c ++ d.closing ++ s) =
      atoms p ++ (atoms d.opening ++ (atoms c ++ atoms d.closing ++ atoms s)) := by
  simp only [List.append_assoc]
  rw [atoms_append_of_forall hp.isOpen,
    atoms_append_of_forall fun a ha => ((delimiting_opening hd).forall_mem a ha).1,
    atoms_append_of_forall hc.isOpen,
    atoms_append_of_forall fun a ha => ((delimiting_closing hd).forall_mem a ha).1]

/-! ## Cuts in the document -/

/-- Behind an atom that no delimiter has, a cut between the start of the one and the end of the
other lies in the body. -/
theorem suffix_of_cut {opening body closing front back : List Atom} {a : Atom}
    (h : opening ++ (body ++ closing) = front ++ back) (ha : front.getLast? = some a)
    (hopening : a ∉ opening) (hclosing : a ∉ closing) :
    ∃ rest, rest <:+ body ∧ back = rest ++ closing := by
  rcases List.append_eq_append_iff.1 h with ⟨mid, rfl, hmid⟩ | ⟨mid, rfl, rfl⟩
  · rcases List.append_eq_append_iff.1 hmid with ⟨last, rfl, rfl⟩ | ⟨rest, rfl, rfl⟩
    · cases last using List.reverseRecOn with
      | nil => exact ⟨[], List.nil_suffix, rfl⟩
      | append_singleton last b =>
          -- the atom would be one of the closing delimiter
          rw [← List.append_assoc, ← List.append_assoc, List.getLast?_concat] at ha
          obtain rfl := Option.some.inj ha
          exact absurd (by simp) hclosing
    · exact ⟨rest, List.suffix_append mid rest, rfl⟩
  · exact absurd (List.mem_append_left mid (List.mem_of_getLast? ha)) hopening

/-- A paragraph that starts inside of math starts in its content. -/
theorem exists_suffix_of_endsParagraph {d : Delimiters} (hd : Named accepts d)
    {p c s before after : Text} (hp : Calm (atoms p)) (hc : Calm (atoms c))
    (ht : p ++ d.opening ++ c ++ d.closing ++ s = before ++ after) (hbefore : EndsParagraph before)
    (hstart : Text.width p < Text.width before)
    (hstop : Text.width before ≤ Text.width (p ++ d.opening ++ c ++ d.closing)) :
    ∃ rest, rest <:+ atoms c ∧ atoms after = rest ++ (atoms d.closing ++ atoms s) := by
  have hatoms : atoms before ++ atoms after =
      atoms p ++ (atoms d.opening ++ (atoms c ++ atoms d.closing ++ atoms s)) := by
    rw [← atoms_append_of_endsParagraph hbefore, ← ht, atoms_delimited hd hp hc]
  obtain ⟨mid, hmid, hrest⟩ := exists_append_of_width_le hatoms
    (by simpa only [join_atoms] using Nat.le_of_lt hstart)
  have hwidth : Text.width before = Text.width p + Text.width (Atom.join mid) := by
    rw [← join_atoms before, hmid, Atom.join_append, Text.width_append, join_atoms]
  rw [← List.append_assoc] at hrest
  obtain ⟨back, hback, hafter⟩ := exists_append_of_width_le hrest (by
    simp only [Text.width_append, Atom.join_append, join_atoms] at hstop ⊢
    omega)
  have hlast : mid.getLast? = some (.plain '\n') := by
    have hne : mid ≠ [] := by
      rintro rfl
      simp only [Atom.join_nil, Text.width, Text.measure_nil] at hwidth
      simp only [Text.width] at hstart
      omega
    rw [← getLast?_atoms_of_endsParagraph hbefore, hmid, List.getLast?_append_of_ne_nil _ hne]
  obtain ⟨rest, hrest, rfl⟩ := suffix_of_cut hback hlast
    (fun h => ((delimiting_opening hd).forall_mem _ h).2 rfl)
    (fun h => ((delimiting_closing hd).forall_mem _ h).2 rfl)
  exact ⟨rest, hrest, by rw [hafter, List.append_assoc]⟩

/-- A document is answered with its first region that contains the offset, if no region is found
behind a paragraph start that lies in one. -/
theorem locate?_of_regions_cut {r : Recognition} {t : Text} {offset : Nat}
    (hlen : offset ≤ Text.width t)
    (h : ∀ before after, t = before ++ after → EndsParagraph before →
      ∀ s ∈ regions r.accepts 0 (atoms t), s.start < Text.width before →
        Text.width before < s.stop → regions r.accepts (Text.width before) (atoms after) = []) :
    locate? r t offset = (regions r.accepts 0 (atoms t)).find? (·.contains offset) := by
  rw [locate?, if_neg (Nat.not_lt.2 hlen), toOption_search_whole]
  cases hw : Window.around? r.window offset t with
  | none => rfl
  | some w =>
      rw [Option.bind_some]
      cases hsearch : (w.search r offset).toOption with
      | none => rfl
      | some region =>
          have hfound := Search.toOption_eq_some_iff.1 hsearch
          refine (find?_regions_of_search hw ?_ hfound).symm
          rintro s hs ⟨hlt, hgt⟩
          obtain ⟨before, after, ht, hstart, hafter, hbefore⟩ := around?_spec hw
          rw [List.append_assoc] at ht
          rcases hbefore with rfl | ⟨hbefore, -⟩
          · simp only [hstart, Text.width, Text.measure_nil] at hlt
            omega
          · -- the window would hold a region behind its start
            rw [hstart] at hlt hgt
            have hnone := h before _ ht hbefore s hs hlt hgt
            have hregion := findContaining_of_search hafter hfound
            rw [← Search.toOption_eq_some_iff, toOption_findContaining, hstart, hnone] at hregion
            simp at hregion

/-- **Math between neutral texts.** Math is found at every offset of its span, whatever the window,
and nothing is found at any other offset. -/
theorem locate?_between_neutral {r : Recognition} {d : Delimiters} (hd : Named r.accepts d)
    {p c s : Text} (hp : Neutral p) (hc : Neutral c) (hne : c ≠ []) (hs : Neutral s)
    (offset : Nat) :
    locate? r (p ++ d.opening ++ c ++ d.closing ++ s) offset =
      if Text.width p ≤ offset ∧ offset ≤ Text.width (p ++ d.opening ++ c ++ d.closing) then
        some ⟨Text.width p, d, c⟩
      else none := by
  have hbody : atoms c ≠ [] := by
    intro hnil
    rw [← join_atoms c, hnil] at hne
    exact hne rfl
  -- the text has this one region, and any cut that falls into it leaves no region
  have hregions : regions r.accepts 0 (atoms (p ++ d.opening ++ c ++ d.closing ++ s)) =
      [⟨Text.width p, d, c⟩] := by
    rw [atoms_delimited hd hp.calm hc.calm,
      regions_delimited hd hp.calm hc.calm hbody hs.calm, join_atoms, join_atoms, Nat.zero_add]
  have hstop : (⟨Text.width p, d, c⟩ : Region).stop =
      Text.width (p ++ d.opening ++ c ++ d.closing) := by
    simp only [stop, text, Text.width_append]
    omega
  by_cases hlen : offset ≤ Text.width (p ++ d.opening ++ c ++ d.closing ++ s)
  · rw [locate?_of_regions_cut hlen, hregions, List.find?_singleton, ← hstop]
    · simp only [contains_iff]
    · intro before after ht hbefore region hregion hstart hlt
      rw [hregions, List.mem_singleton] at hregion
      subst hregion
      obtain ⟨rest, hrest, hafter⟩ := exists_suffix_of_endsParagraph hd hp.calm hc.calm ht hbefore
        hstart (hstop ▸ Nat.le_of_lt hlt)
      rw [hafter, regions_cut hd (hc.calm.of_suffix hrest) hs.calm]
  · rw [Text.width_append] at hlen
    rw [locate?, if_pos (by rw [Text.width_append]; omega), if_neg (by omega)]

/-- The window starts behind a blank line in the content, and the whole document has the answer. -/
theorem locate?_between_neutral_blank_line :
    Neutral "a ".toList ∧ Neutral "b\n\n\\$ c".toList ∧ Neutral " \\% d".toList ∧
      locate? ⟨["align".toList], false, 1⟩
        "a \\begin\x7balign\x7db\n\n\\$ c\\end\x7balign\x7d \\% d".toList 22 =
          some ⟨2, .environment "align".toList, "b\n\n\\$ c".toList⟩ := by
  have hp : Neutral "a ".toList := by decide +kernel
  have hc : Neutral "b\n\n\\$ c".toList := by decide +kernel
  have hs : Neutral " \\% d".toList := by decide +kernel
  have hd : Named (Recognition.accepts ⟨["align".toList], false, 1⟩)
      (.environment "align".toList) := by
    rintro _ ⟨⟩
    exact ⟨List.all_eq_true.1 (by decide +kernel), by decide +kernel⟩
  have ht : "a \\begin\x7balign\x7db\n\n\\$ c\\end\x7balign\x7d \\% d".toList =
      "a ".toList ++ (Delimiters.environment "align".toList).opening ++ "b\n\n\\$ c".toList ++
        (Delimiters.environment "align".toList).closing ++ " \\% d".toList := by decide +kernel
  have hwidth : Text.width "a ".toList = 2 := by decide +kernel
  refine ⟨hp, hc, hs, ?_⟩
  rw [ht, locate?_between_neutral hd hp hc (by decide) hs, if_pos (by decide +kernel), hwidth]

end MathEdit.Region
