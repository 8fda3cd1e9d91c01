import MathEdit.Proofs.Tags
import MathEdit.References
import Mathlib.Data.List.Infix

/-! # The numbered environments of a document

`NumberedTag.ofLine` reads the tags of numbered environments off a line, and `NumberedTag.Nested`
says that tags are properly nested by name. A survey knows nothing of names: with no environment
open, an opening tag opens one, and then the first line with any closing tag ends it. What is open
after some lines is therefore a fold over them, `openLines`, and the lines that make up the content
of a label, `contentLines`, are those that are open after its own line together with the lines up
to the next closing tag.

For an outermost environment, `Outermost`, these are all of its lines exactly if no tag stands
between its own two and the label comes before its last line.
-/

namespace MathEdit

/-- The labels that a line defines. -/
def labelsOf (line : Text) : List Text := Tag.label.arguments (Survey.stripComment line)

/-- Whether a line opens a numbered environment that it does not close. -/
def opens (line : Text) : Bool :=
  match afterOpenings (Survey.stripComment line) with
  | [] => false
  | rest :: _ => !hasClosing rest

/-- Whether a line has a closing tag of a numbered environment. -/
def closes (line : Text) : Bool := hasClosing (Survey.stripComment line)

/-! ## Tags -/

/-- An opening or closing tag of an environment. -/
inductive NumberedTag where
  | opening (name : Text)
  | closing (name : Text)
  deriving DecidableEq, Repr

/-- The texts after patterns are the suffixes that have a pattern in front of them. -/
theorem mem_textsAfter {patterns : List Text} (h : [] ∉ patterns) {rest t : Text} :
    rest ∈ textsAfter patterns t ↔ ∃ p ∈ patterns, p ++ rest <:+ t := by
  induction t with
  | nil =>
      simp only [textsAfter, List.not_mem_nil, List.suffix_nil, List.append_eq_nil_iff, false_iff]
      rintro ⟨p, hp, rfl, -⟩
      exact h hp
  | cons c t ih =>
      simp only [textsAfter, List.mem_append, List.mem_filterMap, ih, List.suffix_cons_iff,
        Text.dropPrefix?_eq_some_iff, eq_comm (a := c :: t), and_or_left, exists_or]

namespace NumberedTag

variable {tag : NumberedTag} {tags : List NumberedTag} {name code rest line : Text}

/-- How a tag is written. -/
def text : NumberedTag → Text
  | opening name => Environment.openingTag name
  | closing name => Environment.closingTag name

/-- The tags of the numbered environments. -/
def all : List NumberedTag := numberedNames.flatMap fun name => [opening name, closing name]

/-- The tags in a text, from left to right. -/
def allIn (code : Text) : List NumberedTag :=
  code.tails.flatMap fun rest => all.filter (·.text.isPrefixOf rest)

/-- The tags of a line outside its comment. -/
def ofLine (line : Text) : List NumberedTag := allIn (Survey.stripComment line)

/-- The tags in a text are those that occur in it. -/
theorem mem_allIn : tag ∈ allIn code ↔ tag ∈ all ∧ tag.text <:+: code := by
  simp only [allIn, List.mem_flatMap, List.mem_tails, List.mem_filter, List.isPrefixOf_iff_prefix,
    List.infix_iff_prefix_suffix]
  tauto

/-- Exactly the numbered environments have opening tags. -/
theorem opening_mem_all : opening name ∈ all ↔ name ∈ numberedNames := by simp [all]

/-- And closing tags. -/
theorem closing_mem_all : closing name ∈ all ↔ name ∈ numberedNames := by simp [all]

/-- Every text after an opening tag has the tag in front of it. -/
theorem mem_afterOpenings : rest ∈ afterOpenings code ↔
    ∃ name ∈ numberedNames, Environment.openingTag name ++ rest <:+ code := by
  rw [afterOpenings, mem_textsAfter (by simp [Environment.openingTag])]
  simp

/-- A text has a closing tag if one is among its tags. -/
theorem hasClosing_iff : hasClosing code ↔ ∃ name, closing name ∈ allIn code := by
  have hpatterns : [] ∉ numberedNames.map Environment.closingTag := by
    simp [Environment.closingTag]
  simp only [hasClosing, decide_eq_true_eq, ne_eq, List.eq_nil_iff_forall_not_mem, not_forall,
    not_not, mem_textsAfter hpatterns, List.mem_map, mem_allIn, closing_mem_all, text,
    exists_exists_and_eq_and]
  constructor
  · rintro ⟨rest, name, hname, front, hrest⟩
    exact ⟨name, hname, front, rest, by rw [← hrest, List.append_assoc]⟩
  · rintro ⟨name, hname, front, rest, hrest⟩
    exact ⟨rest, name, hname, front, by rw [← hrest, List.append_assoc]⟩

/-- So has a line, outside its comment. -/
theorem closes_iff : closes line ↔ ∃ name, closing name ∈ ofLine line := hasClosing_iff

/-- An opening tag opens an environment if there are no other tags on its line. -/
theorem opens_of_ofLine_eq (h : ofLine line = [opening name]) : opens line := by
  obtain ⟨hname, front, rest, hcode⟩ := mem_allIn.1 (h ▸ List.mem_singleton_self (opening name))
  have hrest : rest ∈ afterOpenings (Survey.stripComment line) :=
    mem_afterOpenings.2 ⟨name, opening_mem_all.1 hname, front, by
      rw [← hcode, List.append_assoc]; rfl⟩
  unfold opens
  split
  · next hnil => exact absurd (hnil ▸ hrest) List.not_mem_nil
  · next rest _ heq =>
      -- a closing tag behind the opening one would be a second tag of the line
      rw [Bool.not_eq_true', ← Bool.not_eq_true, hasClosing_iff]
      rintro ⟨closed, hclosed⟩
      obtain ⟨name', -, hsuffix⟩ := mem_afterOpenings.1 (heq ▸ List.mem_cons_self)
      obtain ⟨hall, hinfix⟩ := mem_allIn.1 hclosed
      have hmem : closing closed ∈ ofLine line := mem_allIn.2
        ⟨hall, hinfix.trans ((List.suffix_append _ rest).trans hsuffix).isInfix⟩
      simp [h] at hmem

/-- A line that opens an environment has an opening tag. -/
theorem exists_opening_of_opens (h : opens line) : ∃ name, opening name ∈ ofLine line := by
  unfold opens at h
  split at h
  · exact absurd h (by simp)
  · next rest _ heq =>
      obtain ⟨name, hname, front, hcode⟩ := mem_afterOpenings.1 (heq ▸ List.mem_cons_self)
      exact ⟨name, mem_allIn.2 ⟨opening_mem_all.2 hname, front, rest, by
        rw [← hcode, List.append_assoc]; rfl⟩⟩

/-- A line without its comment has no characters but those of the line. -/
theorem mem_of_mem_stripComment {c : Char} (h : c ∈ Survey.stripComment line) : c ∈ line := by
  obtain ⟨l, hl, hc⟩ := List.mem_flatMap.1 h
  rw [← join_lex line]
  exact List.mem_flatMap.2 ⟨l, (List.takeWhile_sublist _).mem hl, hc⟩

/-- A line with a tag is not blank. -/
theorem exists_not_blank (h : tag ∈ ofLine line) : ∃ c ∈ line, Text.isBlank c = false := by
  have hmem : '\\' ∈ tag.text := by
    cases tag <;> simp [text, Environment.openingTag_eq, Environment.closingTag_eq]
  exact ⟨'\\', mem_of_mem_stripComment ((mem_allIn.1 h).2.subset hmem), by decide⟩

/-- Properly nested tags: each opening tag has a closing tag of its name, and the tags between the
two are nested. -/
inductive Nested : List NumberedTag → Prop
  | nil : Nested []
  | pair {name : Text} {inside after : List NumberedTag} :
      Nested inside → Nested after → Nested (opening name :: inside ++ closing name :: after)

/-- Nested tags end with a closing tag. -/
theorem Nested.eq_nil_or_eq_append (h : Nested tags) :
    tags = [] ∨ ∃ front name, tags = front ++ [closing name] := by
  induction h with
  | nil => exact .inl rfl
  | @pair name inside after _ _ _ ihafter =>
      refine .inr ?_
      obtain rfl | ⟨front, name', rfl⟩ := ihafter
      · exact ⟨opening name :: inside, name, rfl⟩
      · exact ⟨opening name :: inside ++ closing name :: front, name', by simp⟩

end NumberedTag

open NumberedTag

/-! ## The lines of an environment -/

variable {before inside after lines ls : List Text} {line first last : Text}

/-- The lines of the environment that is open after a line, from those of the one before it. -/
def openAfter (opened : Option (List Text)) (line : Text) : Option (List Text) :=
  match opened with
  | none => if opens line then some [line] else none
  | some lines => if closes line then none else some (lines ++ [line])

/-- The lines of the environment that is open after lines of a document. -/
def openLines (lines : List Text) : Option (List Text) := lines.foldl openAfter none

/-- The first lines up to one with a closing tag. -/
def untilClosing : List Text → Option (List Text)
  | [] => none
  | line :: lines => if closes line then some [line] else (untilClosing lines).map (line :: ·)

/-- The lines that make up the content of a label: those of the environment that is open after the
line of the label, if it ends, or else just this line. -/
def contentLines (before : List Text) (line : Text) (after : List Text) : List Text :=
  match openLines (before ++ [line]) with
  | none => [line]
  | some opened => (untilClosing after).elim [line] (opened ++ ·)

/-- A label outside of environments has its line for the content. -/
theorem contentLines_of_openLines_eq_none (h : openLines (before ++ [line]) = none)
    (after : List Text) : contentLines before line after = [line] := by
  rw [contentLines, h]

/-- In an environment it has the lines up to the closing tag, if there is one. -/
theorem contentLines_of_openLines_eq_some {opened : List Text}
    (h : openLines (before ++ [line]) = some opened) (after : List Text) :
    contentLines before line after = (untilClosing after).elim [line] (opened ++ ·) := by
  rw [contentLines, h]

/-- Further lines go on from the environment that is open. -/
theorem openLines_append : openLines (before ++ after) = after.foldl openAfter (openLines before) :=
  List.foldl_append

/-- So does one more line. -/
theorem openLines_concat : openLines (before ++ [line]) = openAfter (openLines before) line :=
  openLines_append

/-- An environment stays open over lines without closing tags. -/
theorem foldl_openAfter_some (h : ∀ l ∈ after, closes l = false) (lines : List Text) :
    after.foldl openAfter (some lines) = some (lines ++ after) := by
  induction after generalizing lines with
  | nil => simp
  | cons l after ih =>
      rw [List.foldl_cons, openAfter, if_neg (by simp [h l]), ih fun m hm => h m (.tail l hm)]
      simp

/-- A line is part of the environment that it leaves open. -/
theorem mem_of_openAfter_eq_some {opened : Option (List Text)}
    (h : openAfter opened line = some lines) : line ∈ lines := by
  cases opened <;> simp only [openAfter, Option.ite_none_left_eq_some,
    Option.ite_none_right_eq_some, Option.some.injEq] at h <;> simp [← h.2]

/-- Only labels of a line get into an environment with it. -/
theorem not_mem_of_openAfter {opened : Option (List Text)} {x : Text}
    (h : ∀ lines ∈ opened, x ∉ lines.flatMap labelsOf) (hx : x ∉ labelsOf line) :
    ∀ lines ∈ openAfter opened line, x ∉ lines.flatMap labelsOf := by
  cases opened with
  | none =>
      rw [openAfter]
      split <;> simp [hx]
  | some lines =>
      have hlines := h lines rfl
      rw [openAfter]
      split
      · simp
      · rintro _ ⟨⟩
        simpa [hx] using hlines

/-- Over one more line an environment grows by it, or ends, or starts with it. -/
theorem openAfter_sublist (opened : Option (List Text)) (line : Text) :
    ((openAfter opened line).getD []).Sublist (opened.getD [] ++ [line]) := by
  cases opened <;> simp only [openAfter] <;> split <;> simp

/-- A closing tag leaves at most its own line open. -/
theorem length_openAfter_of_closes (h : closes line) (opened : Option (List Text)) :
    ((openAfter opened line).getD []).length ≤ 1 := by
  cases opened with
  | none => simp only [openAfter]; split <;> simp
  | some lines => simp [openAfter, h]

/-- The lines of an environment are lines that have been read. -/
theorem foldl_openAfter_sublist {opened : Option (List Text)}
    (h : after.foldl openAfter opened = some lines) :
    lines.Sublist (opened.getD [] ++ after) := by
  induction after generalizing opened with
  | nil =>
      obtain rfl : opened = some lines := h
      simp
  | cons l after ih =>
      have hl := (openAfter_sublist opened l).append_right after
      rw [List.append_assoc] at hl
      exact (ih h).trans hl

/-- Lines with a closing tag among them do not all stay open. -/
theorem length_foldl_openAfter_of_exists {opened : Option (List Text)}
    (h : after.foldl openAfter opened = some lines) (hcloses : ∃ l ∈ after, closes l) :
    lines.length ≤ after.length := by
  obtain ⟨l, hl, hcloses⟩ := hcloses
  obtain ⟨a, b, rfl⟩ := List.append_of_mem hl
  rw [List.foldl_append, List.foldl_cons] at h
  have hcut := length_openAfter_of_closes hcloses (a.foldl openAfter opened)
  have hrest := (foldl_openAfter_sublist h).length_le
  rw [List.length_append] at hrest ⊢
  rw [List.length_cons]
  omega

/-- The lines up to the first closing tag are found. -/
theorem untilClosing_append_of_forall (h : ∀ l ∈ lines, closes l = false) (hlast : closes last)
    (after : List Text) : untilClosing (lines ++ last :: after) = some (lines ++ [last]) := by
  induction lines with
  | nil => simp [untilClosing, hlast]
  | cons l lines ih =>
      rw [List.cons_append, untilClosing, if_neg (by simp [h l]), ih fun m hm => h m (.tail l hm)]
      rfl

/-- A closing tag is not passed over. -/
theorem length_untilClosing (h : untilClosing (lines ++ after) = some ls)
    (hcloses : ∃ l ∈ lines, closes l) : ls.length ≤ lines.length := by
  induction lines generalizing ls with
  | nil => simp at hcloses
  | cons l lines ih =>
      rw [List.cons_append, untilClosing] at h
      split at h
      · obtain rfl := Option.some.inj h
        simp
      · next hl =>
          obtain ⟨rest, hrest, rfl⟩ := Option.map_eq_some_iff.1 h
          simpa using ih hrest (by simpa [hl] using hcloses)

/-- They are among the lines of the document. -/
theorem untilClosing_sublist (h : untilClosing lines = some ls) : ls.Sublist lines := by
  induction lines generalizing ls with
  | nil => simp [untilClosing] at h
  | cons l lines ih =>
      rw [untilClosing] at h
      split at h
      · obtain rfl := Option.some.inj h
        simp
      · obtain ⟨rest, hrest, rfl⟩ := Option.map_eq_some_iff.1 h
        exact (ih hrest).cons_cons l

/-- A content is made up of lines of the document. -/
theorem contentLines_sublist (before : List Text) (line : Text) (after : List Text) :
    (contentLines before line after).Sublist (before ++ line :: after) := by
  have hline : [line].Sublist (before ++ line :: after) := by simp
  cases hopened : openLines (before ++ [line]) with
  | none => rwa [contentLines_of_openLines_eq_none hopened]
  | some opened =>
      rw [contentLines_of_openLines_eq_some hopened]
      cases hrest : untilClosing after with
      | none => exact hline
      | some rest =>
          rw [List.append_cons]
          exact (foldl_openAfter_sublist hopened).append (untilClosing_sublist hrest)

/-! ## An outermost environment -/

/-- The environment from the line `first` to the line `last` is an outermost one. -/
structure Outermost (before : List Text) (first : Text) (inside : List Text) (last : Text) :
    Prop where
  length_le : ∀ l ∈ before ++ inside, (ofLine l).length ≤ 1
  before : Nested (before.flatMap ofLine)
  inside : Nested (inside.flatMap ofLine)
  ends : ∃ name, ofLine first = [opening name] ∧ ofLine last = [closing name]

/-- A line without tags opens nothing. -/
theorem openAfter_of_ofLine_eq_nil (h : ofLine line = []) : openAfter none line = none := by
  rw [openAfter, if_neg]
  intro hopens
  obtain ⟨name, hname⟩ := exists_opening_of_opens hopens
  exact absurd (h ▸ hname) List.not_mem_nil

/-- After a line with a closing tag only, no environment is open. -/
theorem openAfter_of_ofLine_eq_closing {name : Text} (h : ofLine line = [closing name])
    (opened : Option (List Text)) : openAfter opened line = none := by
  cases opened with
  | none =>
      rw [openAfter, if_neg]
      intro hopens
      obtain ⟨name', hname⟩ := exists_opening_of_opens hopens
      simp [h] at hname
  | some lines => rw [openAfter, if_pos (closes_iff.2 ⟨name, by simp [h]⟩)]

/-- If the tags come one on a line and the last one is a closing tag, no environment is open at the
end. -/
theorem openLines_eq_none (hlength : ∀ l ∈ lines, (ofLine l).length ≤ 1)
    (h : lines.flatMap ofLine = [] ∨
      ∃ front name, lines.flatMap ofLine = front ++ [closing name]) : openLines lines = none := by
  -- from the end: untagged lines leave it to those before them, and a tagged one decides
  induction lines using List.reverseRecOn with
  | nil => rfl
  | append_singleton lines l ih =>
      rw [openLines_concat]
      rw [List.flatMap_append, List.flatMap_singleton] at h
      rcases hl : ofLine l with _ | ⟨tag, _ | ⟨tag', tags⟩⟩
      · rw [ih (fun m hm => hlength m (by simp [hm])) (by simpa [hl] using h)]
        exact openAfter_of_ofLine_eq_nil hl
      · obtain h | ⟨front, name, h⟩ := h
        · simp [hl] at h
        · rw [hl] at h
          obtain ⟨-, htag⟩ := List.append_inj' h rfl
          exact openAfter_of_ofLine_eq_closing (hl.trans htag) _
      · exact absurd (hlength l (by simp)) (by simp [hl])

namespace Outermost

variable (h : Outermost before first inside last)
include h

/-- The last line of an outermost environment has its closing tag. -/
theorem closes_last : closes last := by
  obtain ⟨name, -, hlast⟩ := h.ends
  exact closes_iff.2 ⟨name, by simp [hlast]⟩

/-- The environment opens with its first line. -/
theorem openLines_append (m : List Text) :
    openLines (before ++ first :: m) = m.foldl openAfter (some [first]) := by
  obtain ⟨name, hfirst, -⟩ := h.ends
  rw [MathEdit.openLines_append, openLines_eq_none (fun l hl => h.length_le l (by simp [hl]))
    h.before.eq_nil_or_eq_append, List.foldl_cons, openAfter, if_pos (opens_of_ofLine_eq hfirst)]

/-- There are tags inside only if an inner line has a closing one. -/
theorem exists_closes_iff : (∃ l ∈ inside, closes l) ↔ inside.flatMap ofLine ≠ [] := by
  constructor
  · rintro ⟨l, hl, hcloses⟩
    obtain ⟨name, hname⟩ := closes_iff.1 hcloses
    exact List.ne_nil_of_mem (List.mem_flatMap.2 ⟨l, hl, hname⟩)
  · intro hne
    obtain hnil | ⟨front, name, htags⟩ := h.inside.eq_nil_or_eq_append
    · exact absurd hnil hne
    · obtain ⟨l, hl, hname⟩ := List.mem_flatMap.1
        (htags ▸ List.mem_concat_self : closing name ∈ inside.flatMap ofLine)
      exact ⟨l, hl, closes_iff.2 ⟨name, hname⟩⟩

/-- The last line is not part of what is open after it. -/
theorem contentLines_last (m : List Text) : contentLines (before ++ m) last after = [last] := by
  obtain ⟨name, -, hlast⟩ := h.ends
  exact contentLines_of_openLines_eq_none
    (openLines_concat.trans (openAfter_of_ofLine_eq_closing hlast _)) after

/-- What is open after the first line or an inner one, in terms of the inner lines up to it. -/
theorem exists_openLines_eq {u v : List Text} (hu : u ++ line :: v = first :: inside) :
    ∃ m, u ++ [line] = first :: m ∧ inside = m ++ v ∧
      openLines (before ++ u ++ [line]) = m.foldl openAfter (some [first]) := by
  rw [List.append_cons, List.append_eq_cons_iff] at hu
  obtain ⟨hnil, -⟩ | ⟨m, hm, hinside⟩ := hu
  · simp at hnil
  · exact ⟨m, hm, hinside, by rw [List.append_assoc, hm, h.openLines_append]⟩

/-- Without tags inside, what is open after a line is continued by the rest of the environment. -/
theorem contentLines_eq {u v : List Text} (hu : u ++ line :: v = first :: inside)
    (hinside : inside.flatMap ofLine = []) (after : List Text) :
    contentLines (before ++ u) line (v ++ last :: after) = first :: inside ++ [last] := by
  obtain ⟨m, -, rfl, hopen⟩ := h.exists_openLines_eq hu
  have hcloses : ∀ l ∈ m ++ v, closes l = false := by
    simpa using mt h.exists_closes_iff.1 (not_not_intro hinside)
  rw [foldl_openAfter_some fun l hl => hcloses l (List.mem_append_left v hl)] at hopen
  rw [contentLines_of_openLines_eq_some hopen, untilClosing_append_of_forall
    (fun l hl => hcloses l (List.mem_append_right m hl)) h.closes_last]
  simp

/-- With tags inside, a closing one cuts the environment short. -/
theorem length_contentLines_lt {u v : List Text} (hu : u ++ line :: v = first :: inside)
    (hinside : inside.flatMap ofLine ≠ []) (after : List Text) :
    (contentLines (before ++ u) line (v ++ last :: after)).length < inside.length + 2 := by
  obtain ⟨m, -, rfl, hopen⟩ := h.exists_openLines_eq hu
  obtain ⟨k, hk, hcloses⟩ := h.exists_closes_iff.2 hinside
  cases hopened : openLines (before ++ u ++ [line]) with
  | none => simp [contentLines_of_openLines_eq_none hopened]
  | some opened =>
      rw [contentLines_of_openLines_eq_some hopened]
      rw [hopen] at hopened
      cases hrest : untilClosing (v ++ last :: after) with
      | none => simp
      | some rest =>
          -- the closing line cuts off what is open if it comes before the label, or else the rest
          have hlast : rest.length ≤ (v ++ [last]).length :=
            length_untilClosing (by rwa [List.append_assoc]) ⟨last, by simp, h.closes_last⟩
          simp only [Option.elim_some, List.length_append, List.length_singleton] at hlast ⊢
          obtain hk | hk := List.mem_append.1 hk
          · have hcut := length_foldl_openAfter_of_exists hopened ⟨k, hk, hcloses⟩
            omega
          · have hcut := length_untilClosing hrest ⟨k, hk, hcloses⟩
            have hall := (foldl_openAfter_sublist hopened).length_le
            rw [Option.getD_some, List.length_append, List.length_singleton] at hall
            omega

end Outermost

end MathEdit
