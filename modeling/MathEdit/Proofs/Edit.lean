import MathEdit.Proofs.Equation.Turns
import MathEdit.Proofs.Region.Located

/-! # Splits in a document

Splitting an equation replaces the math around an offset by an environment. In the document after
the edit the environment is found where the math was, whatever stands around it.

* **`Edit.apply_append`**: what an edit does to a text that is given in parts.
* **`matchHead_block`**: what is found at the opening tag of a split equation.
* **`located_of_splitAt?`**: the split equation is located at all its offsets. -/

namespace MathEdit

open Region

/-! ## Edits -/

/-- The text that an edit replaces. -/
def Edit.replaced (e : Edit) (t : Text) : Text := Text.dropBytes e.start (Text.takeBytes e.stop t)

section

variable (replacement before replaced after : Text)

/-- An edit between two boundaries replaces what stands between them. -/
theorem Edit.apply_append :
    Edit.apply ⟨Text.width before, Text.width (before ++ replaced), replacement⟩
      (before ++ replaced ++ after) = before ++ replacement ++ after := by
  rw [Edit.apply, Text.dropBytes_width_append, List.append_assoc before,
    Text.takeBytes_width_append]

/-- An edit between two texts replaces what stands between them. -/
theorem Edit.replaced_append :
    Edit.replaced ⟨Text.width before, Text.width (before ++ replaced), replacement⟩
      (before ++ replaced ++ after) = replaced := by
  rw [Edit.replaced, Text.takeBytes_width_append, Text.dropBytes_width_append]

end

namespace Region

variable {accepts : Text → Bool}

/-- A name of an environment is made of the characters for names. -/
theorem isNameCharacter_of_isName {name : Text} (h : Environment.isName name = true) :
    ∀ c ∈ name, isNameCharacter c = true := by
  simp only [Environment.isName, Bool.and_eq_true, List.all_eq_true] at h
  intro c hc
  rcases Environment.eq_base_or_eq_append name with hbase | hbase
  · rw [hbase] at hc
    simp [isNameCharacter, Char.isAlphanum, h.2 c hc]
  · rw [hbase, List.mem_append, List.mem_singleton] at hc
    rcases hc with hc | rfl
    · simp [isNameCharacter, Char.isAlphanum, h.2 c hc]
    · rfl

section

variable {name : Text} (hd : Named accepts (.environment name))
include hd

/-- The atoms of an environment are those of its tags and of what stands between them. -/
theorem atoms_block {body : Text} (hlive : Live body) :
    atoms (Environment.openingTag name ++ body ++ Environment.closingTag name) =
      atoms (Environment.openingTag name) ++
        (atoms body ++ atoms (Environment.closingTag name)) := by
  have hopening := fun a ha => ((delimiting_opening hd).forall_mem a ha).1
  rw [List.append_assoc, ← hlive.atoms_append]
  exact atoms_append_of_forall hopening _

/-- An environment ends in a closing brace. -/
theorem getLast?_atoms_block {body : Text} (hlive : Live body) :
    (atoms (Environment.openingTag name ++ body ++ Environment.closingTag name)).getLast? =
      some (.plain '}') := by
  have hne : atoms (Environment.closingTag name) ≠ [] := (delimiting_closing hd).ne_nil
  rw [atoms_block hd hlive, ← List.append_assoc, List.getLast?_append_of_ne_nil _ hne,
    (getLast?_atoms_tags (hd name rfl).1).2]

/-- **At the opening tag** of an environment without tags of its own in it the environment is
found. -/
theorem matchHead_block {body : List Atom} (hne : body ≠ [])
    (hturns : (Delimiters.environment name).turns body = []) (rest : List Atom) :
    matchHead accepts false (atoms (Environment.openingTag name) ++
        (body ++ atoms (Environment.closingTag name) ++ rest)) =
      .found ⟨.environment name, body, rest⟩ := by
  have hopening := (delimiting_opening hd).ne_nil
  have hclosing := (delimiting_closing hd).ne_nil
  obtain ⟨hnone, hnone'⟩ := (turns_eq_nil_iff_absent hopening hclosing).1 hturns
  have hfirst := atoms_closingTag (plain_of_isNameCharacter (hd name rfl).1)
  -- no tag reaches into the closing one, which starts with an escape
  have hreach {tag bs : List Atom} (htag : Delimiting tag) (hbs : bs ≠ [])
      (h : tag <+: bs ++ atoms (Environment.closingTag name) ++ rest) : tag <+: bs := by
    rw [hfirst, List.append_assoc, List.cons_append, ← List.isPrefixOf_iff_prefix,
      isPrefixOf_append_of_notMem (Delimiters.escape_notMem_tail htag 'e') hbs,
      List.isPrefixOf_iff_prefix] at h
    exact h
  have hclose : (Delimiters.environment name).close?
      (body ++ atoms (Environment.closingTag name) ++ rest) = some (body, rest) := by
    refine balancedBy?_append hclosing fun bs hbs hne => ⟨fun h => ?_, fun h => ?_⟩
    · exact hnone ((hreach (delimiting_opening hd) hne h).isInfix.trans hbs.isInfix)
    · exact hnone' ((hreach (delimiting_closing hd) hne h).isInfix.trans hbs.isInfix)
  have hopens : OpensWith accepts (.environment name)
      (atoms (Environment.openingTag name) ++
        (body ++ atoms (Environment.closingTag name) ++ rest))
      (body ++ atoms (Environment.closingTag name) ++ rest) := ⟨rfl, hd, by simp⟩
  rw [matchHead_opening hopens, hclose, conclude_of_ne_nil hne]

/-- **An environment in the place of math** covers it, if the environment makes the turns of the
equation in the math, which has no tag of the environment. -/
theorem covers_block {d₀ : Delimiters} (hd₀ : Named accepts d₀) {content inner : List Atom}
    (hinner : inner = content ∧ (∀ m, d₀ ≠ .environment m) ∨
      inner = atoms d₀.opening ++ (content ++ atoms d₀.closing))
    {body : Text} (hlive : Live body)
    (hturns : ∀ d, Named accepts d → d.turns (atoms body) = d.turns inner)
    (hnone : (Delimiters.environment name).turns inner = []) (rest : List Atom) :
    Covers accepts (atoms d₀.opening ++ (content ++ (atoms d₀.closing ++ rest)))
      (atoms (Environment.openingTag name ++ body ++ Environment.closingTag name) ++ rest) := by
  have hname := (hd name rfl).1
  have hplain := plain_of_isNameCharacter hname
  apply covers_of_turns hd₀ hinner ?_ (getLast?_atoms_block hd hlive)
  · intro d hd'
    -- the block turns as the inside does, with the two tags around it
    have hsplit : d.turns (atoms (Environment.openingTag name ++ body ++
        Environment.closingTag name)) =
          d.turns (atoms (Environment.openingTag name)) ++
            (d.turns inner ++ d.turns (atoms (Environment.closingTag name))) := by
      rw [atoms_block hd hlive, Delimiters.turns_append_of_brace hd' (getLast?_atoms_tags hname).1,
        atoms_closingTag hplain, Delimiters.turns_append_escape hd', hturns d hd']
    obtain ⟨htag, htag'⟩ := Delimiters.turns_tags hd' hname
    rw [hsplit, htag, htag']
    -- for the environment itself the tags make up a pair, and inside nothing opens or closes it
    by_cases heq : d = .environment name
    · subst heq
      simp [hnone]
    · simp [heq]
  · rw [atoms_block hd hlive, atoms_openingTag_eq_cons hplain]
    exact ⟨_, rfl⟩

end

/-- The atoms of the equation in a match are those of its body, or of the whole match. -/
theorem Match.Delimits.atoms_inner {t : Text} {front back : List Atom} {m : Match}
    (hm : m.Delimits accepts back) (ht : atoms t = front ++ back) {position : Nat}
    (h : (m.region position).SelfDelimited) :
    atoms (Equation.inner (m.region position).text) = m.body ∧
        (∀ name, m.delimiters ≠ .environment name) ∨
      atoms (Equation.inner (m.region position).text) =
        atoms m.delimiters.opening ++ (m.body ++ atoms m.delimiters.closing) := by
  rcases inner_eq_content_or_text h with ⟨hinner, hsign⟩ | hinner
  · rw [hinner]
    exact .inl ⟨hm.atoms_content ht, hsign⟩
  · rw [hinner]
    exact .inr (hm.atoms_text ht position).1

/-- An equation in a region has only tags that the region has. -/
theorem turns_inner_eq_nil {name : Text} {region : Region} (h : region.SelfDelimited)
    (hd : Named accepts (.environment name))
    (hopening : ¬ Environment.openingTag name <:+: region.text)
    (hclosing : ¬ Environment.closingTag name <:+: region.text) :
    (Delimiters.environment name).turns (atoms (Equation.inner region.text)) = [] := by
  have hin : Equation.inner region.text <:+: region.text := by
    rcases inner_eq_content_or_text h with ⟨hinner, -⟩ | hinner
    · rw [hinner]
      exact ⟨_, _, rfl⟩
    · rw [hinner]
  -- a tag among the atoms is a tag in the text
  have hpart {tag u : Text} (htag : atoms tag <:+: atoms u) : tag <:+: u := by
    obtain ⟨as, bs, hsplit⟩ := htag
    refine ⟨Atom.join as, Atom.join bs, ?_⟩
    rw [← join_atoms u, ← hsplit, Atom.join_append, Atom.join_append, join_atoms]
  refine (turns_eq_nil_iff_absent (delimiting_opening hd).ne_nil
    (delimiting_closing hd).ne_nil).2 ⟨fun htag => ?_, fun htag => ?_⟩
  · exact hopening ((hpart htag).trans hin)
  · exact hclosing ((hpart htag).trans hin)

end Region

namespace Equation

/-- A split is the layout of the sides of an equation with a break. -/
theorem eq_layOut_of_split? {style : RowStyle} {t rows : Text} (h : split? style t = some rows) :
    ∃ left right further, segmentsOf (scan (inner t)) = (left, right :: further) ∧
      rows = layOut style ((sides left right further).map Sides.row) := by
  have hbreaks : breaks (inner t) ≠ [] := by
    intro hnil
    rw [split?_eq_none hnil] at h
    cases h
  obtain ⟨left, right, further, hsegments⟩ := exists_segmentsOf hbreaks
  rw [split?_eq_layOut hsegments] at h
  exact ⟨left, right, further, hsegments, (Option.some.inj h).symm⟩

end Equation

namespace Region

section

variable {accepts : Text → Bool} {t : Text} {front back : List Atom} {m : Match}

/-- **The walk meets an environment** in the place of a match that it met there. -/
theorem Match.Delimits.mem_regions_block {name : Text} (hd : Named accepts (.environment name))
    (hm : m.Delimits accepts back) (ht : atoms t = front ++ back)
    (hself : (m.region (Text.width (Atom.join front))).SelfDelimited)
    (hmem : m.region (Text.width (Atom.join front)) ∈ regions accepts 0 (atoms t))
    (hdollar : (Atom.join front).getLast? ≠ some '$') {inner body : Text}
    (hinner : inner = Equation.inner (m.region (Text.width (Atom.join front))).text)
    (hlive : Live body) (hne : body ≠ [])
    (hturns : ∀ d, Named accepts d → d.turns (atoms body) = d.turns (atoms inner))
    (hnone : (Delimiters.environment name).turns (atoms inner) = []) :
    ⟨Text.width (Atom.join front), .environment name, body⟩ ∈ regions accepts 0
      (atoms (Atom.join front ++
        (Environment.openingTag name ++ body ++ Environment.closingTag name) ++
          Atom.join m.rest)) := by
  subst hinner
  have hcovers := covers_block hd hm.named (hm.atoms_inner ht hself) hlive hturns hnone m.rest
  have hbody : atoms body ≠ [] := fun hnil => hne (by rw [← join_atoms body, hnil, Atom.join_nil])
  have hfound := matchHead_block hd hbody (by rw [hturns _ hd, hnone]) m.rest
  have hblock := atoms_block hd hlive
  have hlast : Live (Environment.openingTag name ++ body ++ Environment.closingTag name) := by
    rw [live_iff_closed, Closed, getLast?_atoms_block hd hlive]
    rintro a ⟨⟩
    rfl
  generalize Environment.openingTag name ++ body ++ Environment.closingTag name = block
    at hcovers hblock hlast ⊢
  have hback : back = atoms m.delimiters.opening ++
      (m.body ++ (atoms m.delimiters.closing ++ m.rest)) := by
    rw [hm.append_eq]
    simp only [List.append_assoc]
  -- the cuts on both sides of the block are live, so the document has its atoms in parts
  have hatoms : atoms (Atom.join front ++ block ++ Atom.join m.rest) =
      front ++ (atoms block ++ m.rest) := by
    rw [List.append_assoc, (hm.live_opening ht).atoms_append, hlast.atoms_append,
      (atoms_join_of_append ht).1, (hm.atoms_text ht 0).2]
  have hfront : front.getLast? ≠ some (.plain '$') := by
    intro hfront
    obtain ⟨front, rfl⟩ := List.getLast?_eq_some_iff.1 hfront
    exact hdollar (by simp [Atom.text])
  have hmatch : matchHead accepts false (atoms block ++ m.rest) =
      .found ⟨.environment name, atoms body, m.rest⟩ := by
    rw [hblock, List.append_assoc, hfound]
  -- the walk comes by the front, and there it finds the block
  have hnew := hcovers.mem_regions hfront (hback ▸ ht ▸ hmem) rfl hmatch
  rwa [Match.region, join_atoms, ← hatoms] at hnew

/-- **The walk meets a split equation** in the place of the math that it met there. -/
theorem Match.Delimits.mem_regions_of_split? {style : RowStyle}
    (hd : Named accepts (.environment style.environment)) (hm : m.Delimits accepts back)
    (ht : atoms t = front ++ back) {region : Region}
    (hregion : region = m.region (Text.width (Atom.join front))) (hself : region.SelfDelimited)
    (hmem : region ∈ regions accepts 0 (atoms t)) {rows : Text}
    (hsplit : Equation.split? style region.text = some rows) (hcomment : '%' ∉ region.text)
    (hopening : ¬ Environment.openingTag style.environment <:+: region.text)
    (hclosing : ¬ Environment.closingTag style.environment <:+: region.text)
    (hdollar : (Atom.join front).getLast? ≠ some '$') :
    ∃ new ∈ regions accepts 0 (atoms (Atom.join front ++ rows ++ Atom.join m.rest)),
      new.start = region.start ∧ new.delimiters = .environment style.environment ∧
        new.text = rows := by
  subst hregion
  obtain ⟨left, right, further, hsegments, rfl⟩ := Equation.eq_layOut_of_split? hsplit
  have hinner : '%' ∉ Equation.inner (m.region (Text.width (Atom.join front))).text := by
    rcases inner_eq_content_or_text hself with ⟨hinner, -⟩ | hinner
    · rw [hinner]
      exact fun hmem => hcomment (by rw [Region.text]; simp [hmem])
    · rwa [hinner]
  obtain ⟨body, hblock, hlive, hne, hturns⟩ :=
    Equation.turns_layOut style hinner hsegments
  rw [hblock]
  exact ⟨_, hm.mem_regions_block hd ht hself hmem hdollar rfl hlive hne (hturns accepts)
    (turns_inner_eq_nil hself hd hopening hclosing), rfl, rfl, rfl⟩

end

end Region

/-! ## Splits -/

/-- **A split equation is found again.** Without a window, the edit that splits an equation puts an
environment into the document that is located at every offset of its span, with the rows as its
text, if the math before had no comment and no tag of that environment in it, and no dollar stands
right before it. -/
theorem located_of_splitAt? {s : Session} (hwindow : s.config.recognition.window = 0)
    (hname : Environment.isName s.config.rows.environment = true)
    (haccepts : s.config.recognition.accepts s.config.rows.environment = true)
    {t : Text} {offset : Nat} {e : Edit} (h : s.splitAt? t offset = some e)
    (hcomment : '%' ∉ e.replaced t)
    (hopening : ¬ Environment.openingTag s.config.rows.environment <:+: e.replaced t)
    (hclosing : ¬ Environment.closingTag s.config.rows.environment <:+: e.replaced t)
    (hdollar : (Text.takeBytes e.start t).getLast? ≠ some '$') :
    ∃ region : Region, region.start = e.start ∧
      region.delimiters = .environment s.config.rows.environment ∧
      region.text = e.replacement ∧
      ∀ place, e.start < place → place ≤ e.start + Text.width e.replacement →
        s.locate? (e.apply t) place = some region := by
  obtain ⟨region, hlocate, h⟩ := Option.bind_eq_some_iff.1 h
  obtain ⟨rows, hsplit, h⟩ := Option.bind_eq_some_iff.1 h
  obtain rfl := Option.some.inj h
  -- the region that was split is a match between two texts
  have hself := selfDelimited_of_locate? hlocate
  have hmem := (located_iff_mem_regions (.inl hwindow)).1 ⟨offset, hlocate⟩
  obtain ⟨front, m, back, ht, hm, hregion⟩ := exists_match_of_locate? hlocate
  have hstart : region.start = Text.width (Atom.join front) := by rw [hregion]; rfl
  obtain ⟨htext, hstop⟩ : t = Atom.join front ++ region.text ++ Atom.join m.rest ∧
      region.stop = Text.width (Atom.join front ++ region.text) := by
    rw [hregion]
    exact ⟨hm.text_eq ht _, by rw [stop, Text.width_append]; rfl⟩
  have hnamed : Named s.config.recognition.accepts (.environment s.config.rows.environment) := by
    rintro _ ⟨⟩
    exact ⟨isNameCharacter_of_isName hname, haccepts⟩
  -- the edit stands for that region
  have hreplaced : Edit.replaced ⟨region.start, region.stop, rows⟩ t = region.text := by
    rw [htext, hstart, hstop, Edit.replaced_append]
  have happly : Edit.apply ⟨region.start, region.stop, rows⟩ t =
      Atom.join front ++ rows ++ Atom.join m.rest := by
    rw [htext, hstart, hstop, Edit.apply_append]
  have hbefore : Text.takeBytes region.start t = Atom.join front := by
    rw [htext, hstart, List.append_assoc, Text.takeBytes_width_append]
  rw [hreplaced] at hcomment hopening hclosing
  rw [hbefore] at hdollar
  obtain ⟨new, hnew, hnewStart, hdelimiters, hrows⟩ := hm.mem_regions_of_split? hnamed ht hregion
    hself hmem hsplit hcomment hopening hclosing hdollar
  refine ⟨new, hnewStart, hdelimiters, hrows, fun place hlt hle => ?_⟩
  rw [happly]
  refine locate?_of_mem_regions (.inl hwindow) hnew (hnewStart ▸ hlt) ?_
  rwa [stop, hnewStart, hrows]

/-- An opening tag before the math stays open: the tags of the split equation do not close it. -/
theorem located_of_splitAt?_behind_open_tag :
    ∃ region : Region, region.start = 14 ∧ region.stop = 50 ∧
      region.text = "\\begin\x7balign\x7d\n    a &= b\n\\end\x7balign\x7d".toList ∧
      ∀ place, 14 < place → place ≤ 50 →
        (Session.new ⟨⟨Recognition.mathEnvironments, false, 0⟩, .standard, true⟩).locate?
          ("\\begin\x7balign\x7d ".toList ++ region.text) place = some region := by
  have hsplit : (Session.new ⟨⟨Recognition.mathEnvironments, false, 0⟩, .standard, true⟩).splitAt?
      "\\begin\x7balign\x7d $a = b$".toList 16 =
        some ⟨14, 21, "\\begin\x7balign\x7d\n    a &= b\n\\end\x7balign\x7d".toList⟩ := by
    decide +kernel
  obtain ⟨region, hstart, -, htext, hplaces⟩ := located_of_splitAt? rfl (by decide +kernel)
    (by decide +kernel) hsplit (by decide +kernel) (by decide +kernel) (by decide +kernel)
    (by decide +kernel)
  dsimp only at hstart htext hplaces
  have hstop : region.stop = 50 := by
    rw [stop, hstart, htext]
    decide +kernel
  have happly (rows : Text) : Edit.apply ⟨14, 21, rows⟩ "\\begin\x7balign\x7d $a = b$".toList =
      "\\begin\x7balign\x7d ".toList ++ rows := by
    have h := Edit.apply_append rows "\\begin\x7balign\x7d ".toList "$a = b$".toList []
    rwa [List.append_nil, List.append_nil] at h
  rw [happly, ← htext, ← hstart] at hplaces
  refine ⟨region, hstart, hstop, htext, fun place hlt hle => hplaces place (hstart ▸ hlt) ?_⟩
  rwa [← stop, hstop]

end MathEdit
