import Mathlib
import MathEdit.Proofs.Region.Located
import MathEdit.Proofs.Region.Truncation

/-! # Windows

A long document is first searched in a window that starts at a paragraph. The walk over the whole
document comes by the start of a paragraph unless a region lies across it, since no escape and no
comment reaches over the newline of a blank line, and from there on both walks see the same atoms up
to the end of the window.

* **`isParagraphStart_paragraphStart`**: a paragraph starts past the last blank line.
* **`locate?_eq_unbounded`**: the window changes no answer unless a region lies across its start. -/

namespace MathEdit.Region

/-! ## Paragraphs -/

/-- The line that a text ends with is blank so far, and it is not the first line. -/
def OnBlankLine (s : Text) : Prop :=
  ∃ front blanks, s = front ++ '\n' :: blanks ∧ ∀ c ∈ blanks, Text.isBlank c = true

/-- A text ends with the newline of a blank line. -/
def EndsParagraph (s : Text) : Prop := ∃ line, s = line ++ ['\n'] ∧ OnBlankLine line

/-- Right behind a newline the line is blank so far. -/
theorem onBlankLine_newline (s : Text) : OnBlankLine (s ++ ['\n']) := ⟨s, [], rfl, by simp⟩

/-- A line stays blank as long as its characters are. -/
theorem onBlankLine_append {c : Char} (hc : c ≠ '\n') (s : Text) :
    OnBlankLine (s ++ [c]) ↔ OnBlankLine s ∧ Text.isBlank c = true := by
  constructor
  · rintro ⟨front, blanks, hs, hblank⟩
    rcases List.eq_nil_or_concat' blanks with rfl | ⟨blanks, d, rfl⟩
    · -- `c` is no newline
      exact absurd (List.append_inj' hs rfl).2 (by simpa using hc)
    · rw [← List.cons_append, ← List.append_assoc] at hs
      obtain ⟨rfl, hd⟩ := List.append_inj' hs rfl
      obtain rfl := (List.cons.inj hd).1
      exact ⟨⟨front, blanks, rfl, fun e he => hblank e (List.mem_append_left _ he)⟩,
        hblank c (by simp)⟩
  · rintro ⟨⟨front, blanks, rfl, hblank⟩, hc⟩
    refine ⟨front, blanks ++ [c], by simp, ?_⟩
    intro d hd
    rcases List.mem_append.1 hd with hd | hd
    · exact hblank d hd
    · rwa [List.mem_singleton.1 hd]

/-- The newline of a blank line is no part of an escape or a comment. -/
theorem getLast?_atoms_of_endsParagraph {s : Text} (h : EndsParagraph s) :
    (atoms s).getLast? = some (.plain '\n') := by
  obtain ⟨_, rfl, front, blanks, rfl, hblank⟩ := h
  apply getLast?_atoms_newline
  rcases List.eq_nil_or_concat' blanks with rfl | ⟨blanks, d, rfl⟩
  · simp
  · have hd : d ≠ '\\' := by
      rintro rfl
      exact absurd (hblank '\\' (by simp)) (by decide)
    rw [← List.cons_append, ← List.append_assoc, List.getLast?_concat]
    exact fun he => hd (Option.some.inj he)

/-- No atom goes across the end of a paragraph. -/
theorem atoms_append_of_endsParagraph {s : Text} (h : EndsParagraph s) (t : Text) :
    atoms (s ++ t) = atoms s ++ atoms t := by
  apply atoms_append
  rw [getLast?_atoms_of_endsParagraph h]
  intro a ha
  obtain rfl := Option.some.inj ha
  rfl

/-- An offset is the one past the last blank line of a text, or zero if there is none. -/
def IsParagraphStart (s : Text) (n : Nat) : Prop :=
  (n = 0 ∨ ∃ a b, s = a ++ b ∧ EndsParagraph a ∧ n = Text.width a) ∧
    ∀ a b, s = a ++ b → EndsParagraph a → Text.width a ≤ n

/-- Right behind a blank line the last paragraph starts. -/
theorem isParagraphStart_of_ends {s : Text} (h : EndsParagraph s) :
    IsParagraphStart s (Text.width s) := by
  refine ⟨.inr ⟨s, [], by simp, h, rfl⟩, ?_⟩
  rintro a b rfl -
  rw [Text.width_append]
  exact Nat.le_add_right _ _

/-- A character that ends no blank line moves no paragraph. -/
theorem isParagraphStart_append {s : Text} {c : Char} {n : Nat} (h : IsParagraphStart s n)
    (hc : ¬ EndsParagraph (s ++ [c])) : IsParagraphStart (s ++ [c]) n := by
  obtain ⟨heq, hmax⟩ := h
  constructor
  · apply heq.imp_right
    rintro ⟨a, b, rfl, ha, rfl⟩
    exact ⟨a, b ++ [c], List.append_assoc .., ha, rfl⟩
  · intro a b hab ha
    rcases List.eq_nil_or_concat' b with rfl | ⟨b, d, rfl⟩
    · -- the whole text ends no blank line
      rw [List.append_nil] at hab
      exact absurd (hab ▸ ha) hc
    · rw [← List.append_assoc] at hab
      exact hmax a b (List.append_inj' hab rfl).1 ha

/-- What the walk over a text knows when it has passed `s`. -/
structure Walked (s : Text) (blank : Bool) (best : Nat) : Prop where
  blank_iff : blank = true ↔ OnBlankLine s
  best_spec : IsParagraphStart s best

/-- A newline starts a line that is blank so far, and may end a blank line. -/
theorem Walked.newline {s : Text} {blank : Bool} {best : Nat} (h : Walked s blank best) :
    Walked (s ++ ['\n']) true (if blank then Text.width (s ++ ['\n']) else best) := by
  refine ⟨by simp [onBlankLine_newline], ?_⟩
  by_cases hb : blank = true
  · rw [if_pos hb]
    exact isParagraphStart_of_ends ⟨s, rfl, h.blank_iff.1 hb⟩
  · rw [if_neg hb]
    apply isParagraphStart_append h.best_spec
    rintro ⟨line, hline, hblank⟩
    obtain rfl := (List.append_inj' hline rfl).1
    exact hb (h.blank_iff.2 hblank)

/-- Any other character only says whether the line is still blank. -/
theorem Walked.other {s : Text} {blank : Bool} {best : Nat} (h : Walked s blank best) {c : Char}
    (hc : c ≠ '\n') : Walked (s ++ [c]) (blank && Text.isBlank c) best := by
  refine ⟨by rw [Bool.and_eq_true, h.blank_iff, onBlankLine_append hc], ?_⟩
  apply isParagraphStart_append h.best_spec
  rintro ⟨line, hline, -⟩
  exact hc (List.cons.inj (List.append_inj' hline rfl).2).1

/-- The walk over a text finds the start of its last paragraph. -/
theorem Walked.isParagraphStart {s : Text} {blank : Bool} {best : Nat} (h : Walked s blank best)
    (t : Text) :
    IsParagraphStart (s ++ t) (lastParagraph (Text.width s) blank best t) := by
  -- along the text behind, with what is walked in front
  induction t generalizing s blank best with
  | nil =>
      rw [List.append_nil]
      exact h.best_spec
  | cons c t ih =>
      have hnext : Text.width s + c.utf8Size = Text.width (s ++ [c]) := by simp
      rw [lastParagraph, hnext, List.append_cons]
      by_cases hc : c = '\n'
      · subst hc
        exact ih h.newline
      · rw [if_neg hc]
        exact ih (h.other hc)

/-- **Where a paragraph starts.** The last paragraph of a text starts past its last blank line. -/
theorem isParagraphStart_paragraphStart (t : Text) : IsParagraphStart t (paragraphStart t) := by
  refine Walked.isParagraphStart (s := []) ⟨?_, .inl rfl, ?_⟩ t
  · simp [OnBlankLine]
  · intro a b hab ha
    obtain ⟨rfl, -⟩ := List.append_eq_nil_iff.1 hab.symm
    exact Nat.le_refl _

/-! ## What a window shows -/

/-- The start of a window is the start of a paragraph before the offset, and its piece of the
document goes on to the end unless the document is said to go on after it. -/
theorem around?_spec {size offset : Nat} {t : Text} {w : Window}
    (h : Window.around? size offset t = some w) :
    ∃ before after, t = before ++ w.piece ++ after ∧ w.start = Text.width before ∧
      (w.more = false → after = []) ∧
      (before = [] ∨ EndsParagraph before ∧ Text.width before < offset) := by
  unfold Window.around? at h
  split at h
  · simp at h
  next hsize =>
  obtain rfl := Option.some.inj h
  have hpos : size ≠ 0 := by
    rintro rfl
    simp at hsize
  -- what is taken before the paragraph is taken before the end of the window as well
  obtain ⟨c, hc⟩ := Text.takeBytes_prefix_takeBytesUp
    (Nat.le_trans (Nat.sub_le offset size) (Nat.le_add_right offset size)) t
  obtain ⟨after, hafter⟩ := Text.takeBytesUp_prefix (offset + size) t
  have hend : decide (Text.width (Text.takeBytesUp (offset + size) t) < Text.width t) = false →
      after = [] := by
    intro hmore
    by_contra hne
    have := Text.width_pos hne
    have hlt := of_decide_eq_false hmore
    rw [← hafter, Text.width_append, hafter] at hlt
    omega
  rcases (isParagraphStart_paragraphStart (Text.takeBytes (offset - size) t)).1 with
    hzero | ⟨a, b, hab, ha, hwidth⟩
  · -- there is no blank line, and the window starts where the document does
    refine ⟨[], after, ?_, hzero, hend, .inl rfl⟩
    have hdrop := Text.dropBytes_width_append [] (Text.takeBytesUp (offset + size) t)
    simp only [Text.width, Text.measure_nil, List.nil_append] at hdrop
    dsimp only
    rw [hzero, hdrop, List.nil_append, hafter]
  · refine ⟨a, after, ?_, hwidth, hend, .inr ⟨ha, ?_⟩⟩
    · rw [hab, List.append_assoc] at hc
      dsimp only
      rw [hwidth, ← hc, Text.dropBytes_width_append, hc, hafter]
    · have hle := Text.width_takeBytes_le (offset - size) t
      rw [hab, Text.width_append] at hle
      have hne : a ≠ [] := by
        rintro rfl
        obtain ⟨line, hline, -⟩ := ha
        simp at hline
      have := Text.width_pos hne
      omega

/-- No atom lies across the start of a window. -/
theorem atoms_append_of_start {before : Text} (h : before = [] ∨ EndsParagraph before) (t : Text) :
    atoms (before ++ t) = atoms before ++ atoms t := by
  rcases h with rfl | hend
  · rw [atoms_nil, List.nil_append, List.nil_append]
  · exact atoms_append_of_endsParagraph hend t

/-! ## Windowed and unbounded searches -/

/-- The search of the whole document finds the first region that contains the offset. -/
theorem toOption_search_whole (r : Recognition) (t : Text) (offset : Nat) :
    ((Window.whole t).search r offset).toOption =
      (regions r.accepts 0 (atoms t)).find? (·.contains offset) :=
  toOption_findContaining offset 0 (atoms t)

/-- Without a window the whole document is searched. -/
theorem locate?_unbounded (r : Recognition) {t : Text} {offset : Nat}
    (h : offset ≤ Text.width t) :
    locate? { r with window := 0 } t offset =
      (regions r.accepts 0 (atoms t)).find? (·.contains offset) := by
  rw [locate?, if_neg (Nat.not_lt.2 h)]
  exact toOption_search_whole r t offset

/-- What is located without a window is one of the regions of the document. -/
theorem mem_regions_of_locate? {r : Recognition} {t : Text} {offset : Nat} {region : Region}
    (h : locate? { r with window := 0 } t offset = some region) :
    region ∈ regions r.accepts 0 (atoms t) :=
  (located_iff_mem_regions (r := { r with window := 0 }) (.inl rfl)).1 ⟨offset, h⟩

/-- Each region of a document is located at its end, when the search is unbounded. -/
theorem locate?_stop_of_mem_regions {r : Recognition} {t : Text} {region : Region}
    (h : region ∈ regions r.accepts 0 (atoms t)) :
    locate? { r with window := 0 } t region.stop = some region := by
  rw [locate?_of_unwindowed (.inl rfl)]
  exact find?_stop_of_mem (pairwise_regions 0 (atoms t)) h

/-- What is found in a window is found in the document behind the start of the window. -/
theorem findContaining_of_search {r : Recognition} {w : Window} {offset : Nat} {region : Region}
    {after : Text} (hafter : w.more = false → after = []) (h : w.search r offset = .found region) :
    findContaining r.accepts false offset w.start (atoms (w.piece ++ after)) = .found region := by
  cases hmore : w.more with
  | true =>
      rw [Window.search, hmore] at h
      exact findContaining_of_shows (shows_atoms w.piece after) h
  | false =>
      rw [Window.search, hmore] at h
      rwa [hafter hmore, List.append_nil]

/-- What is found in a window is the first region of the document that contains the offset, where
no region lies across the start of the window. -/
theorem find?_regions_of_search {r : Recognition} {t : Text} {offset : Nat} {w : Window}
    {region : Region} (hw : Window.around? r.window offset t = some w)
    (hcross : ∀ s ∈ regions r.accepts 0 (atoms t), ¬ (s.start < w.start ∧ w.start < s.stop))
    (h : w.search r offset = .found region) :
    (regions r.accepts 0 (atoms t)).find? (·.contains offset) = some region := by
  obtain ⟨before, after, ht, hstart, hafter, hbefore⟩ := around?_spec hw
  have hatoms : atoms t = atoms before ++ atoms (w.piece ++ after) := by
    rw [ht, List.append_assoc]
    exact atoms_append_of_start (hbefore.imp_right And.left) _
  have hplace : 0 + Text.width (Atom.join (atoms before)) = w.start := by
    rw [join_atoms, hstart, Nat.zero_add]
  -- the walk over the document comes by the start of the window
  obtain ⟨front, hregions, hstop⟩ : ∃ front, regions r.accepts 0 (atoms t) =
      front ++ regions r.accepts w.start (atoms (w.piece ++ after)) ∧
      ∀ s ∈ front, s.stop ≤ w.start := by
    rw [hatoms] at hcross ⊢
    rw [← hplace] at hcross ⊢
    exact regions_append hcross
  -- the regions before the window end before the offset
  have hfront : front.find? (·.contains offset) = none := by
    rw [List.find?_eq_none]
    intro s hs hc
    have hle := hstop s hs
    have hlt := s.start_lt_stop
    have hoffset := (contains_iff.1 hc).2
    rcases hbefore with rfl | ⟨-, hlt'⟩
    · simp only [Text.width, Text.measure_nil] at hstart
      omega
    · omega
  rw [hregions, List.find?_append, hfront, Option.none_or, ← toOption_findContaining,
    findContaining_of_search hafter h]
  rfl

/-- **Windows change no answer.** Where no region of the document lies across the start of the
window, what is located with a window is what is located without one. -/
theorem locate?_eq_unbounded (r : Recognition) (t : Text) (offset : Nat)
    (h : ∀ w, Window.around? r.window offset t = some w → ∀ place region,
      locate? { r with window := 0 } t place = some region →
        ¬ (region.start < w.start ∧ w.start < region.stop)) :
    locate? r t offset = locate? { r with window := 0 } t offset := by
  by_cases hlen : Text.width t < offset
  · rw [locate?, locate?, if_pos hlen, if_pos hlen]
  rw [locate?_unbounded r (Nat.le_of_not_lt hlen), locate?, if_neg hlen, toOption_search_whole]
  cases hw : Window.around? r.window offset t with
  | none => rfl
  | some w =>
      rw [Option.bind_some]
      -- the window falls back to the whole text when its answer is not conclusive
      cases hs : (w.search r offset).toOption with
      | none => rfl
      | some region =>
          exact (find?_regions_of_search hw
            (fun s hs => h w hw s.stop s (locate?_stop_of_mem_regions hs))
            (Search.toOption_eq_some_iff.1 hs)).symm

/-- In the second of two paragraphs, where the window ends right behind the region. -/
theorem locate?_eq_unbounded_second_paragraph :
    locate? ⟨[], false, 1⟩ "$a$\n\n$b$ c".toList 7 =
      locate? ⟨[], false, 0⟩ "$a$\n\n$b$ c".toList 7 := by
  apply locate?_eq_unbounded ⟨[], false, 1⟩
  intro w hw place region hl
  have hstart : (Window.around? 1 7 "$a$\n\n$b$ c".toList).map Window.start = some 5 := by cbv
  have hfive : w.start = 5 := by
    rw [hw] at hstart
    exact Option.some.inj hstart
  have hmem := mem_regions_of_locate? hl
  have hatoms : atoms "$a$\n\n$b$ c".toList =
      [.plain '$', .plain 'a', .plain '$', .plain '\n', .plain '\n', .plain '$', .plain 'b',
        .plain '$', .plain ' ', .plain 'c'] := by cbv
  rw [hatoms, regions_of_found (m := ⟨.inlineDollar, [.plain 'a'],
      [.plain '\n', .plain '\n', .plain '$', .plain 'b', .plain '$', .plain ' ', .plain 'c']⟩)
      (by cbv),
    regions_of_absent (by cbv), regions_of_absent (by cbv),
    regions_of_found (m := ⟨.inlineDollar, [.plain 'b'], [.plain ' ', .plain 'c']⟩)
      (by cbv)] at hmem
  dsimp only at hmem
  rw [regions_of_absent (by cbv), regions_of_absent (by cbv), regions_nil] at hmem
  rw [hfive]
  clear hl
  revert region
  decide

end MathEdit.Region
