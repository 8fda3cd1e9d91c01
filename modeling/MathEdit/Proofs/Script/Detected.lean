import MathEdit.Proofs.Text.Cuts
import MathEdit.Proofs.Token.Partition
import MathEdit.Proofs.Token.Signs
import MathEdit.Script

/-! # Scripts before the cursor

A script is looked for backwards from the cursor, character by character, and the scan of the line
reads it forwards. Both agree on what a script marker is but for one case: what comes right behind a
row break is taken for escaped when it is read backwards.

* **`Script.ofReverse?_script`**, **`Script.ofReverse?_braced`**: what is found behind a marker, and
  inside of braces.
* **`Script.detect?_eq_some_iff`**: the lines and offsets at which a script is found.
* **`Token.rowBreak_iff_getLast?`**: a backslash right before a sign belongs to a row break.
* **`Script.detect?_of_script`**: every script marker of the scan is found unless a row break ends
  there. -/

namespace MathEdit

namespace Script

variable {a a' w w' typed line back : Text} {m m' c : Char} {stop : Nat} {s : Script}

/-- A script is looked for in the text before the place. -/
theorem detect?_width_append (s u : Text) :
    detect? (s ++ u) (Text.width s) = ofReverse? s.reverse := by
  rw [detect?, Text.splitAt?_width_append]

/-- The character that was typed is the last one of that text. -/
theorem typedAt?_width_append (s u : Text) : typedAt? (s ++ u) (Text.width s) = s.getLast? := by
  rw [typedAt?, Text.splitAt?_width_append]

/-- Blanks are delimiters. -/
theorem isBlank_of_not_isDelimiter (h : isDelimiter c = false) : Text.isBlank c = false := by
  simp only [isDelimiter, Bool.or_eq_false_iff] at h
  exact h.2

/-- So are the markers. -/
theorem isDelimiter_of_isMarker (h : isMarker m = true) : isDelimiter m = true := by
  simp [isDelimiter, h]

/-- What is read back from the end of a text up to the last delimiter. -/
theorem takeWhile_typed {d : Char} (htyped : ∀ x ∈ typed, isDelimiter x = false)
    (hd : isDelimiter d = true) :
    (typed.reverse ++ d :: a.reverse).takeWhile (!isDelimiter ·) = typed.reverse ∧
      (typed.reverse ++ d :: a.reverse).dropWhile (!isDelimiter ·) = d :: a.reverse := by
  have hall : ∀ x ∈ typed.reverse, (!isDelimiter x) = true := by simpa using htyped
  have hstop : ∀ y ∈ (d :: a.reverse).head?, (!isDelimiter y) = false := by simpa using hd
  exact ⟨Text.takeWhile_append_of_all hall hstop, Text.dropWhile_append_of_all hall hstop⟩

/-- The last delimiter of a text is at one place only. -/
theorem eq_of_append_cons_eq (h : a ++ m :: w = a' ++ m' :: w') (hm : isDelimiter m = true)
    (hm' : isDelimiter m' = true) (hw : ∀ c ∈ w, isDelimiter c = false)
    (hw' : ∀ c ∈ w', isDelimiter c = false) : a = a' ∧ m = m' ∧ w = w' := by
  obtain ⟨htake, hdrop⟩ := takeWhile_typed (a := a) hw hm
  obtain ⟨htake', hdrop'⟩ := takeWhile_typed (a := a') hw' hm'
  have hreverse : w.reverse ++ m :: a.reverse = w'.reverse ++ m' :: a'.reverse := by
    simpa using congrArg List.reverse h
  rw [hreverse] at htake hdrop
  obtain ⟨rfl, ha⟩ := List.cons.inj (hdrop.symm.trans hdrop')
  exact ⟨List.reverse_injective ha, rfl, List.reverse_injective (htake.symm.trans htake')⟩

/-! ## What is found -/

/-- Behind a marker that is not escaped, a script of at least two characters is found. -/
theorem ofReverse?_script (hm : isMarker m = true) (ha : a.getLast? ≠ some '\\')
    (htyped : ∀ x ∈ typed, isDelimiter x = false) (hc : isDelimiter c = false) :
    ofReverse? (a ++ m :: typed ++ [c]).reverse =
      if typed = [] then none else some ⟨Text.width a, typed ++ [c]⟩ := by
  have hmd : isDelimiter m = true := isDelimiter_of_isMarker hm
  obtain ⟨htake, hdrop⟩ := takeWhile_typed (a := a) htyped hmd
  have hreverse : (a ++ m :: typed ++ [c]).reverse = c :: (typed.reverse ++ m :: a.reverse) := by
    simp
  rw [hreverse, ofReverse?, htake, hdrop]
  by_cases hne : typed = []
  · simp [hne]
  · simp [hm, ha, hc, hne, Text.width_reverse]

/-- Inside of braces no script is found. -/
theorem ofReverse?_braced (htyped : ∀ x ∈ typed, isDelimiter x = false) :
    ofReverse? (a ++ '{' :: typed ++ [c]).reverse = none := by
  obtain ⟨htake, hdrop⟩ := takeWhile_typed (a := a) (d := '{') htyped rfl
  have hreverse : (a ++ '{' :: typed ++ [c]).reverse =
      c :: (typed.reverse ++ '{' :: a.reverse) := by simp
  rw [hreverse, ofReverse?, htake, hdrop]
  rfl

/-- Whether a text ends in a script: a marker without a backslash before it, and at least two
characters that are no delimiters behind it. -/
def Ends (s : Script) (head : Text) : Prop :=
  ∃ a m, head = a ++ m :: s.content ∧ isMarker m = true ∧ a.getLast? ≠ some '\\' ∧
    2 ≤ s.content.length ∧ (∀ c ∈ s.content, isDelimiter c = false) ∧ s.marker = Text.width a

/-- What is found at the end of a text ends it. -/
theorem ends_of_ofReverse? (h : ofReverse? back = some s) : s.Ends back.reverse := by
  cases back with
  | nil => simp [ofReverse?] at h
  | cons c back =>
      have hback := List.takeWhile_append_dropWhile (p := (!isDelimiter ·)) (l := back)
      have hrun : ∀ x ∈ back.takeWhile (!isDelimiter ·), isDelimiter x = false := fun x hx => by
        simpa using List.mem_takeWhile_imp hx
      rw [ofReverse?] at h
      split at h
      · simp at h
      · next m before hdrop =>
          split at h
          · next hcond =>
              simp only [Bool.and_eq_true, Bool.not_eq_true', decide_eq_true_eq] at hcond
              obtain ⟨⟨⟨hm, hbefore⟩, hc⟩, hne⟩ := hcond
              obtain rfl := Option.some.inj h
              refine ⟨before.reverse, m, ?_, hm, ?_, ?_, ?_, (Text.width_reverse before).symm⟩
              -- back in the order of the line: what is before, the marker and the run
              · have hreverse : back.reverse = (back.dropWhile (!isDelimiter ·)).reverse ++
                    (back.takeWhile (!isDelimiter ·)).reverse := by
                  rw [← List.reverse_append, hback]
                rw [List.reverse_cons, hreverse, hdrop]
                simp
              · rwa [List.getLast?_reverse]
              · have := List.length_pos_iff.2 hne
                simp only [List.length_reverse, List.length_cons]
                omega
              · intro x hx
                rcases List.mem_cons.1 (List.mem_reverse.1 hx) with rfl | hx
                · exact hc
                · exact hrun x hx
          · cases h

/-- **Scripts that are found** are those that the text before the offset ends in. -/
theorem detect?_eq_some_iff :
    detect? line stop = some s ↔
      ∃ head after, line = head ++ after ∧ stop = Text.width head ∧ s.Ends head := by
  constructor
  · intro h
    rw [detect?] at h
    split at h
    · next head after hsplit =>
        obtain ⟨hline, hstop⟩ := Text.splitAt?_eq_some_iff.1 hsplit
        have hends := ends_of_ofReverse? h
        rw [List.reverse_reverse] at hends
        exact ⟨head, after, hline.symm, hstop.symm, hends⟩
    · cases h
  · rintro ⟨head, after, rfl, rfl, a, m, rfl, hm, ha, hlength, hcontent, hmarker⟩
    -- the last character is the one just typed, so the content splits there
    obtain ⟨position, content⟩ := s
    obtain rfl : position = Text.width a := hmarker
    rcases List.eq_nil_or_concat' content with rfl | ⟨typed, c, rfl⟩
    · simp at hlength
    · have hne : typed ≠ [] := by
        rintro rfl
        simp at hlength
      have hfound := ofReverse?_script hm ha (fun x hx => hcontent x (List.mem_append_left _ hx))
        (hcontent c (by simp))
      rw [if_neg hne] at hfound
      rw [detect?_width_append, ← hfound]
      simp

end Script

/-! ## Backslashes before signs -/

namespace Lexeme

variable {l : Lexeme} {u : Text} {c : Char}

/-- The marker of a script is its sign. -/
theorem of_sign?_script {d : Char} (h : sign? d = some (.script c)) :
    d = c ∧ Script.isMarker c = true := by
  unfold sign? at h
  split at h
  case h_7 =>
    obtain rfl : '^' = c := by simpa using h
    exact ⟨rfl, rfl⟩
  case h_8 =>
    obtain rfl : '_' = c := by simpa using h
    exact ⟨rfl, rfl⟩
  case h_10 => split at h <;> simp at h
  all_goals simp at h

/-- A script is written as its marker. -/
theorem Begins.of_kind_script (h : Begins l u) (hkind : l.kind = .script c) :
    l.text = [c] ∧ Script.isMarker c = true := by
  obtain ⟨d, htext, hsign⟩ := h.of_isSign (by rw [hkind]; rfl)
  rw [hkind] at hsign
  obtain ⟨rfl, hmarker⟩ := of_sign?_script hsign
  exact ⟨htext, hmarker⟩

/-- An escape is written as a backslash and its character. -/
theorem Begins.of_kind_escaped (h : Begins l u) (hkind : l.kind = .escaped c) :
    l.text = ['\\', c] := by
  cases h with
  | sign hsign => exact absurd hkind ((ne_of_sign? hsign).2.2 c)
  | escaped =>
      obtain rfl := Token.Kind.escaped.inj hkind
      rfl
  | @word name => exact absurd hkind ((wordKind_ne name).2.2 c)
  | _ => cases hkind

end Lexeme

namespace Token

variable {t : Text} {before after : List Token} {k : Token} {c : Char}

/-- **A backslash right before a sign** belongs to a row break. -/
theorem rowBreak_iff_getLast? (h : scan t = before ++ k :: after) (hk : k.text.head? = some c)
    (hc : StartsLexeme c) (hopen : c ≠ '{') :
    (∃ b ∈ scan t, b.kind = .rowBreak ∧ b.stop = k.position) ↔
      (join before).getLast? = some '\\' := by
  obtain ⟨ht, hposition, -⟩ := of_scan_eq h
  constructor
  · rintro ⟨b, hb, hkind, hstop⟩
    obtain ⟨front, back, htext, -, hwidth, hbegins⟩ := of_mem_scan hb
    rw [List.append_assoc] at ht
    obtain ⟨hjoin, -⟩ := Text.append_inj_of_width_eq (ht.symm.trans htext)
      (hposition.symm.trans (hstop.symm.trans hwidth))
    rw [hjoin, hbegins.of_kind_escaped hkind, List.getLast?_append_of_ne_nil _ (by simp)]
    rfl
  · intro hlast
    rcases List.eq_nil_or_concat' before with rfl | ⟨front, b, rfl⟩
    · simp [join] at hlast
    · have hsplit : scan t = front ++ b :: k :: after := by simpa using h
      obtain ⟨hstop, hb, -⟩ := beside_of_scan_eq hsplit
      have hbegins : Lexeme.Begins b.toLexeme [] := Lexeme.Begins.of_append (u := []) hb
      -- the token goes on up to the sign, so it is no comment and no backslash that is left over
      obtain ⟨s, hs⟩ := List.head?_eq_some_iff.1 hk
      rw [hs, List.cons_append, hbegins.cons_iff hc fun _ => nameGroup?_cons_eq_none hopen] at hb
      refine ⟨b, by rw [hsplit]; simp, ?_, hstop⟩
      have hend : b.text.getLast? = some '\\' := by
        rw [← hlast]
        simp [join, List.getLast?_append_of_ne_nil _ hbegins.text_ne_nil]
      rcases hbegins.of_getLast?_backslash hend with hkind | hbreak | hslash
      · exact absurd hkind hb.1
      · rw [hbreak]
      · exact absurd (congrArg Lexeme.text hslash) hb.2

end Token

/-! ## Markers of the scan -/

namespace Text

/-- What stands between two offsets of a text stands between two parts of it. -/
theorem exists_append_of_slice? {start stop : Nat} {t part : Text}
    (h : slice? start stop t = some part) :
    ∃ front back, t = front ++ part ++ back ∧ width front = start ∧
      width (front ++ part) = stop := by
  obtain ⟨⟨before, back⟩, hbefore, h⟩ := Option.bind_eq_some_iff.1 h
  obtain ⟨⟨front, part'⟩, hfront, h⟩ := Option.bind_eq_some_iff.1 h
  obtain rfl : part' = part := Option.some.inj h
  obtain ⟨rfl, hstop⟩ := splitAt?_eq_some_iff.1 hbefore
  obtain ⟨rfl, hstart⟩ := splitAt?_eq_some_iff.1 hfront
  exact ⟨front, back, rfl, hstart, hstop⟩

end Text

namespace Script

/-- The delimiters are blanks, braces and markers. -/
theorem isDelimiter_eq_false_iff {c : Char} :
    isDelimiter c = false ↔ Text.isBlank c = false ∧ c ∉ ['{', '}', '^', '_'] := by
  simp only [isDelimiter, isMarker, Bool.or_eq_false_iff, decide_eq_false_iff_not, List.mem_cons,
    List.not_mem_nil, or_false, not_or]
  tauto

/-- The markers are the signs of a superscript and of a subscript. -/
theorem isMarker_iff {m : Char} : isMarker m = true ↔ m = '^' ∨ m = '_' := by simp [isMarker]

/-- A marker is a sign of its own, of one byte. -/
theorem startsLexeme_of_isMarker {m : Char} (h : isMarker m = true) :
    StartsLexeme m ∧ m ≠ '{' ∧ m.utf8Size = 1 := by
  rcases isMarker_iff.1 h with rfl | rfl <;> decide

/-- **Markers of the scan.** A script marker with at least two characters behind it, none of them
whitespace, a brace or a marker, is found by looking back from there, unless it stands right behind
a row break. -/
theorem detect?_of_script {line content : Text} {stop : Nat} {k : Token} {marker : Char}
    (hk : k ∈ scan line) (hkind : k.kind = .script marker)
    (hcontent : Text.slice? (k.position + 1) stop line = some content)
    (hlength : 2 ≤ content.length)
    (hplain : ∀ c ∈ content, Text.isBlank c = false ∧ c ∉ ['{', '}', '^', '_']) :
    detect? line stop =
      if ∃ b ∈ scan line, b.kind = .rowBreak ∧ b.stop = k.position then none
      else some ⟨k.position, content⟩ := by
  obtain ⟨before, after, hsplit⟩ := List.append_of_mem hk
  obtain ⟨hline, hposition, hbegins⟩ := Token.of_scan_eq hsplit
  obtain ⟨htext, hmarker⟩ := hbegins.of_kind_script hkind
  obtain ⟨hstarts, hopen, hsize⟩ := startsLexeme_of_isMarker hmarker
  obtain ⟨front, back, hparts, hfront, hstop⟩ := Text.exists_append_of_slice? hcontent
  have hnone : ∀ c ∈ content, isDelimiter c = false := fun c hc =>
    isDelimiter_eq_false_iff.2 (hplain c hc)
  -- the content stands right behind the marker
  obtain rfl : front = Token.join before ++ [marker] := by
    rw [htext] at hline
    rw [List.append_assoc] at hparts
    refine (Text.append_inj_of_width_eq (hparts.symm.trans hline) ?_).1
    rw [hfront, hposition, Text.width_append]
    simp [hsize]
  have hhead : Token.join before ++ [marker] ++ content =
      Token.join before ++ marker :: content := by simp
  rw [hhead] at hparts hstop
  have hbreak := Token.rowBreak_iff_getLast? hsplit (by rw [htext]; rfl) hstarts hopen
  split
  · next h =>
      have hlast := hbreak.1 h
      -- a script that is found here would have the backslash before its marker
      rw [Option.eq_none_iff_forall_ne_some]
      intro s hs
      obtain ⟨head, rest, hline', hstop', a, m, rfl, hm, ha, -, hnone', -⟩ :=
        detect?_eq_some_iff.1 hs
      obtain ⟨heq, -⟩ := Text.append_inj_of_width_eq (hparts.symm.trans hline')
        (hstop.trans hstop')
      obtain ⟨rfl, -⟩ := eq_of_append_cons_eq heq (isDelimiter_of_isMarker hmarker)
        (isDelimiter_of_isMarker hm) hnone hnone'
      exact ha hlast
  · next h =>
      have hlast := mt hbreak.2 h
      exact detect?_eq_some_iff.2 ⟨_, back, hparts, hstop.symm, _, marker, rfl, hmarker, hlast,
        hlength, hnone, hposition⟩

/-- Of two markers behind row breaks, one with a letter between them, the other one is missed. -/
theorem detect?_of_script_behind_row_breaks :
    detect? "\\\\^ab \\\\x_αβ".toList 5 = none ∧
      detect? "\\\\^ab \\\\x_αβ".toList 14 = some ⟨9, "αβ".toList⟩ := by
  have hfirst : (⟨⟨.script '^', ['^']⟩, 2, 0⟩ : Token) ∈ scan "\\\\^ab \\\\x_αβ".toList := by
    decide +kernel
  have hsecond : (⟨⟨.script '_', ['_']⟩, 9, 0⟩ : Token) ∈ scan "\\\\^ab \\\\x_αβ".toList := by
    decide +kernel
  have hbreak : ∃ b ∈ scan "\\\\^ab \\\\x_αβ".toList, b.kind = .rowBreak ∧ b.stop = 2 := by
    decide +kernel
  have hnone : ¬ ∃ b ∈ scan "\\\\^ab \\\\x_αβ".toList, b.kind = .rowBreak ∧ b.stop = 9 := by
    decide +kernel
  have hlatin : Text.slice? 3 5 "\\\\^ab \\\\x_αβ".toList = some "ab".toList := by decide +kernel
  have hgreek : Text.slice? 10 14 "\\\\^ab \\\\x_αβ".toList = some "αβ".toList := by decide +kernel
  have hab : ∀ c ∈ "ab".toList, Text.isBlank c = false ∧ c ∉ ['{', '}', '^', '_'] :=
    List.forall_mem_cons.2 ⟨by decide, List.forall_mem_singleton.2 (by decide)⟩
  have hαβ : ∀ c ∈ "αβ".toList, Text.isBlank c = false ∧ c ∉ ['{', '}', '^', '_'] :=
    List.forall_mem_cons.2 ⟨by decide, List.forall_mem_singleton.2 (by decide)⟩
  constructor
  · rw [detect?_of_script hfirst rfl hlatin (by decide) hab, if_pos hbreak]
  · rw [detect?_of_script hsecond rfl hgreek (by decide) hαβ, if_neg hnone]

/-- Not every script marker of the scan is found. -/
theorem not_forall_script_detected :
    ¬ ∀ (line content : Text) (stop : Nat) (k : Token) (marker : Char), k ∈ scan line →
      k.kind = .script marker → Text.slice? (k.position + 1) stop line = some content →
      2 ≤ content.length →
      (∀ c ∈ content, Text.isBlank c = false ∧ c ∉ ['{', '}', '^', '_']) →
      ∃ s, detect? line stop = some s ∧ s.marker = k.position := by
  intro h
  have hab : ∀ c ∈ "ab".toList, Text.isBlank c = false ∧ c ∉ ['{', '}', '^', '_'] :=
    List.forall_mem_cons.2 ⟨by decide, List.forall_mem_singleton.2 (by decide)⟩
  obtain ⟨s, hs, -⟩ := h "\\\\^ab".toList "ab".toList 5 ⟨⟨.script '^', ['^']⟩, 2, 0⟩ '^'
    (by decide +kernel) rfl (by decide +kernel) (by decide) hab
  have hnone : detect? "\\\\^ab".toList 5 = none := by decide +kernel
  rw [hnone] at hs
  cases hs

end Script

end MathEdit
