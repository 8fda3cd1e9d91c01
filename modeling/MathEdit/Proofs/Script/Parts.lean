import MathEdit.Proofs.Edit
import MathEdit.Proofs.Script.Detected

/-! # The parts of a line around a script

A script that is found cuts its line into what comes before the marker, the marker, the content and
what follows. There is at most one way to cut a line so at an offset, and whether there is one does
not depend on how the script is looked for. The edit keeps all parts and adds two braces.

* **`Script.Parts.Cut`**: the parts into which a script cuts a line.
* **`Script.Parts.Cut.eq`**: no line has two of them at one offset.
* **`Script.edit_apply_append`**: the edited line in parts.
* **`Script.isSome_detect?_iff_cut`**: which scripts are found, and what becomes of their lines. -/

namespace MathEdit.Script

/-- What comes before a script marker, the marker, what stands behind it up to an offset, and what
follows. -/
structure Parts where
  before : Text
  marker : Char
  content : Text
  after : Text
  deriving DecidableEq, Repr

/-- The text up to the offset. -/
def Parts.head (p : Parts) : Text := p.before ++ p.marker :: p.content

/-- Whether a line is cut into these parts at an offset, and they are those of a script: the marker
is not escaped, and at least two characters stand behind it, none of them whitespace, a brace or
another marker. -/
structure Parts.Cut (p : Parts) (line : Text) (stop : Nat) : Prop where
  splitAt?_eq : Text.splitAt? Char.utf8Size stop line = some (p.head, p.after)
  marker_eq : p.marker = '^' ∨ p.marker = '_'
  not_escaped : p.before.getLast? ≠ some '\\'
  two_le_length : 2 ≤ p.content.length
  plain : ∀ c ∈ p.content, Text.isBlank c = false ∧ c ∉ ['{', '}', '^', '_']

variable {line : Text} {stop : Nat} {s : Script}

/-! ## Cutting a line -/

namespace Parts.Cut

variable {p q : Parts}

/-- Where a line is cut into the parts of a script, this script is found. -/
theorem detect?_eq (h : p.Cut line stop) :
    detect? line stop = some ⟨Text.width p.before, p.content⟩ := by
  obtain ⟨hline, hstop⟩ := Text.splitAt?_eq_some_iff.1 h.splitAt?_eq
  refine detect?_eq_some_iff.2 ⟨p.head, p.after, hline.symm, hstop.symm, p.before, p.marker, rfl,
    isMarker_iff.2 h.marker_eq, h.not_escaped, h.two_le_length, ?_, rfl⟩
  exact fun c hc => isDelimiter_eq_false_iff.2 (h.plain c hc)

/-- The marker of a script is the last delimiter before the offset, so there is one cut at most. -/
theorem eq (hp : p.Cut line stop) (hq : q.Cut line stop) : p = q := by
  have hcut := hp.splitAt?_eq.symm.trans hq.splitAt?_eq
  obtain ⟨hhead, hafter⟩ := Prod.mk.inj (Option.some.inj hcut)
  have delimiter {r : Parts} (hr : r.Cut line stop) : isDelimiter r.marker = true :=
    isDelimiter_of_isMarker (isMarker_iff.2 hr.marker_eq)
  have none {r : Parts} (hr : r.Cut line stop) : ∀ c ∈ r.content, isDelimiter c = false :=
    fun c hc => isDelimiter_eq_false_iff.2 (hr.plain c hc)
  -- the marker is the last delimiter in front of the offset in both cuts
  obtain ⟨hbefore, hmarker, hcontent⟩ :=
    eq_of_append_cons_eq hhead (delimiter hp) (delimiter hq) (none hp) (none hq)
  obtain ⟨before, marker, content, after⟩ := p
  obtain ⟨before', marker', content', after'⟩ := q
  dsimp only at *
  subst hbefore hmarker hcontent hafter
  rfl

end Parts.Cut

/-- A script that is found cuts its line. -/
theorem exists_cut_of_detect? (h : detect? line stop = some s) : ∃ p : Parts, p.Cut line stop := by
  obtain ⟨_, after, hline, hstop, before, marker, rfl, hmarker, hbefore, hlength, hcontent, -⟩ :=
    detect?_eq_some_iff.1 h
  refine ⟨⟨before, marker, s.content, after⟩, ?_, isMarker_iff.1 hmarker, hbefore, hlength, ?_⟩
  · exact Text.splitAt?_eq_some_iff.2 ⟨hline.symm, hstop.symm⟩
  · exact fun c hc => isDelimiter_eq_false_iff.1 (hcontent c hc)

/-! ## Bracing a script -/

section

variable {m : Char} (hm : isMarker m = true) (a w u : Text)
include hm

/-- The edit of a script replaces its content. -/
theorem edit_eq : edit ⟨Text.width a, w⟩ =
    ⟨Text.width (a ++ [m]), Text.width (a ++ [m] ++ w), '{' :: w ++ ['}']⟩ := by
  simp [edit, start, stop, braced, (startsLexeme_of_isMarker hm).2.2, Nat.add_assoc]

/-- The edit of a script puts its content in braces and leaves the rest of the line. -/
theorem edit_apply_append : (edit ⟨Text.width a, w⟩).apply (a ++ m :: w ++ u) =
    a ++ [m] ++ '{' :: w ++ '}' :: u := by
  have h := Edit.apply_append ('{' :: w ++ ['}']) (a ++ [m]) w u
  rw [edit_eq hm]
  simpa using h

/-- The cursor goes right before the closing brace. -/
theorem cursor_eq : cursor ⟨Text.width a, w⟩ = Text.width (a ++ [m] ++ '{' :: w) := by
  have hbrace : Text.width ('{' :: w) = 1 + Text.width w := rfl
  rw [cursor, start, Text.width_append, Text.width_append, hbrace]
  simp [(startsLexeme_of_isMarker hm).2.2]
  omega

end

/-- **Scripts that are found, and their edits.** A script is found at an offset of a line exactly if
the offset is a boundary and cuts the line into the parts of a script. There is only one such cut
then. The script has its marker behind the first part and the content as it is; its edit replaces
what stands between the marker and the offset, so that the line keeps its parts and has the content
in braces; and the cursor goes to the offset of the closing brace. -/
theorem isSome_detect?_iff_cut (line : Text) (stop : Nat) :
    ((detect? line stop).isSome = true ↔ ∃ p : Parts, p.Cut line stop) ∧
    ∀ p : Parts, p.Cut line stop → (∀ q : Parts, q.Cut line stop → q = p) ∧
      ∃ s, detect? line stop = some s ∧ s.marker = Text.width p.before ∧ s.content = p.content ∧
        s.edit.start = Text.width p.before + 1 ∧ s.edit.stop = stop ∧
        s.edit.apply line =
          p.before ++ [p.marker] ++ ['{'] ++ p.content ++ ['}'] ++ p.after ∧
        s.cursor = Text.width (p.before ++ [p.marker] ++ ['{'] ++ p.content) := by
  refine ⟨⟨fun h => ?_, fun ⟨p, h⟩ => by simp [h.detect?_eq]⟩, fun p h => ?_⟩
  · obtain ⟨s, hs⟩ := Option.isSome_iff_exists.1 h
    exact exists_cut_of_detect? hs
  · obtain ⟨hline, hstop⟩ := Text.splitAt?_eq_some_iff.1 h.splitAt?_eq
    have hmarker : isMarker p.marker = true := isMarker_iff.2 h.marker_eq
    refine ⟨fun q hq => hq.eq h, _, h.detect?_eq, rfl, rfl, rfl, ?_, ?_, ?_⟩
    · rw [edit_eq hmarker, ← hstop]
      simp [Parts.head]
    · rw [← hline, Parts.head, edit_apply_append hmarker]
      simp
    · rw [cursor_eq hmarker]
      simp

/-- Behind a marker, a brace and another marker, the last marker counts, and the text behind the
offset stays. -/
theorem isSome_detect?_iff_cut_behind_markers :
    ∃ s, detect? "\\\x7bé_a\\\x7d^αβγ".toList 13 = some s ∧ s.marker = 8 ∧ s.content = "αβ".toList ∧
      s.edit.apply "\\\x7bé_a\\\x7d^αβγ".toList = "\\\x7bé_a\\\x7d^\x7bαβ\x7dγ".toList ∧
      s.cursor = 14 := by
  have hcut : Parts.Cut ⟨"\\\x7bé_a\\\x7d".toList, '^', "αβ".toList, ['γ']⟩
      "\\\x7bé_a\\\x7d^αβγ".toList 13 := by
    refine ⟨by decide +kernel, .inl rfl, by decide +kernel, by decide, ?_⟩
    exact List.forall_mem_cons.2 ⟨by decide, List.forall_mem_singleton.2 (by decide)⟩
  obtain ⟨-, s, hs, hmarker, hcontent, -, -, hedit, hcursor⟩ :=
    (isSome_detect?_iff_cut "\\\x7bé_a\\\x7d^αβγ".toList 13).2 _ hcut
  exact ⟨s, hs, hmarker, hcontent, hedit, hcursor⟩

end MathEdit.Script
