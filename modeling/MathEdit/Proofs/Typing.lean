import MathEdit.Proofs.Script.Parts

/-! # Typing a script

An editor that types characters one after the other asks its session after each of them, and puts a
script in braces when the session finds one. So a script that is typed behind its marker gets its
braces once, and what is typed afterwards goes on inside of them.

* **`Typist.press_eq`**: one keystroke, in terms of the text before the cursor.
* **`Typist.press_bare`**, **`Typist.press_braced`**: one keystroke in a script.
* **`Typist.type_bare`**, **`Typist.type_script`**: any number of keystrokes. -/

namespace MathEdit

/-! ## Keystrokes -/

/-- A character that is typed, perhaps after the session was asked to leave it alone. -/
structure Keystroke where
  character : Char
  escaped : Bool
  deriving DecidableEq, Repr

/-- A line that is being typed in. -/
structure Typist where
  session : Session
  line : Text
  cursor : Nat
  /-- The scripts that the session has found so far. -/
  found : List Script
  deriving DecidableEq, Repr

namespace Typist

/-- A keystroke puts its character in at the cursor. If the session then finds a script, this is put
in braces, and the cursor goes where the script has it. -/
def press (e : Typist) (k : Keystroke) : Typist :=
  let session := if k.escaped then e.session.escape else e.session
  let line := Edit.apply ⟨e.cursor, e.cursor, [k.character]⟩ e.line
  let cursor := e.cursor + k.character.utf8Size
  match session.insert line cursor with
  | (some script, session) =>
      ⟨session, script.edit.apply line, script.cursor, e.found ++ [script]⟩
  | (none, session) => ⟨session, line, cursor, e.found⟩

/-- One keystroke after the other. -/
def type (e : Typist) (keys : List Keystroke) : Typist := keys.foldl press e

variable {s : Session} {a post typed head tail : Text} {m : Char} {k : Keystroke}
  {found : List Script}

/-- **A keystroke** of a character that is no whitespace is answered by what stands before the
cursor then, unless it is escaped. -/
theorem press_eq (hauto : s.config.autoBrace = true) (hfresh : s.typing.escapePending = false)
    (hk : Text.isBlank k.character = false) :
    press ⟨s, head ++ tail, Text.width head, found⟩ k =
      match if k.escaped then none else Script.ofReverse? (head ++ [k.character]).reverse with
      | some script =>
          ⟨s, script.edit.apply (head ++ [k.character] ++ tail), script.cursor, found ++ [script]⟩
      | none =>
          ⟨s, head ++ [k.character] ++ tail, Text.width (head ++ [k.character]), found⟩ := by
  have hline : Edit.apply ⟨Text.width head, Text.width head, [k.character]⟩ (head ++ tail) =
      head ++ [k.character] ++ tail := by
    simpa using Edit.apply_append [k.character] head [] tail
  have hcursor : Text.width head + k.character.utf8Size = Text.width (head ++ [k.character]) := by
    simp
  have hinsert (s : Session) : s.insert (head ++ [k.character] ++ tail)
      (Text.width (head ++ [k.character])) =
        s.settle (if s.typing.escapePending then (none, ⟨false⟩)
          else (Script.ofReverse? (head ++ [k.character]).reverse, s.typing)) := by
    rw [Session.insert, Script.Typing.insert, Script.typedAt?_width_append, List.getLast?_concat,
      Option.toList_some, Script.Typing.change, Script.detect?_width_append, if_neg (by simp [hk]),
      if_neg (by simp)]
  -- with nothing pending the session after the keystroke is the one before it
  obtain ⟨config, ⟨pending⟩⟩ := s
  dsimp only at hauto hfresh
  subst hfresh
  rw [press]
  dsimp only
  rw [hline, hcursor, hinsert]
  cases k.escaped with
  | true => simp [Session.settle, Session.escape, Script.Typing.escape]
  | false =>
      cases Script.ofReverse? (head ++ [k.character]).reverse <;> simp [Session.settle, hauto]

/-- A line whose script has no braces. -/
def bare (s : Session) (a typed post : Text) (m : Char) : Typist :=
  ⟨s, a ++ m :: typed ++ post, Text.width (a ++ m :: typed), []⟩

/-- A line whose script has been put in braces, with the cursor before the closing one. -/
def braced (s : Session) (a typed post : Text) (m : Char) (script : Script) : Typist :=
  ⟨s, a ++ m :: '{' :: typed ++ '}' :: post, Text.width (a ++ m :: '{' :: typed), [script]⟩

section

variable (hauto : s.config.autoBrace = true) (hfresh : s.typing.escapePending = false)
  (htyped : ∀ c ∈ typed, Script.isDelimiter c = false)
  (hk : Script.isDelimiter k.character = false)
include hauto hfresh htyped hk

variable (post) in
/-- **In a script without braces** the second character and any later one that is not escaped puts
the script in braces. -/
theorem press_bare (hm : Script.isMarker m = true) (ha : a.getLast? ≠ some '\\') :
    (bare s a typed post m).press k =
      if k.escaped = true ∨ typed = [] then bare s a (typed ++ [k.character]) post m
      else braced s a (typed ++ [k.character]) post m ⟨Text.width a, typed ++ [k.character]⟩ := by
  rw [bare, press_eq hauto hfresh (Script.isBlank_of_not_isDelimiter hk),
    Script.ofReverse?_script hm ha htyped hk]
  by_cases hescaped : k.escaped = true
  · simp [hescaped, bare]
  by_cases hempty : typed = []
  · simp [hempty, bare]
  -- the group is made: the edit puts the braces around what is typed
  have hline := Script.edit_apply_append hm a (typed ++ [k.character]) post
  rw [if_neg hescaped, if_neg hempty, if_neg (by simp [hescaped, hempty]), braced]
  dsimp only
  rw [Script.cursor_eq hm]
  simpa using hline

/-- **In a script in braces** a character goes on the script inside of them. -/
theorem press_braced (script : Script) :
    (braced s a typed post m script).press k =
      braced s a (typed ++ [k.character]) post m script := by
  have hnone : Script.ofReverse? (a ++ m :: '{' :: typed ++ [k.character]).reverse = none := by
    simpa using Script.ofReverse?_braced (a := a ++ [m]) (c := k.character) htyped
  rw [braced, press_eq hauto hfresh (Script.isBlank_of_not_isDelimiter hk), hnone, ite_self]
  simp [braced]

end

/-- The characters that some keystrokes type. -/
def characters (keys : List Keystroke) : Text := keys.map Keystroke.character

/-- Keystrokes type their characters one after the other. -/
@[simp] theorem characters_append (keys keys' : List Keystroke) :
    characters (keys ++ keys') = characters keys ++ characters keys' := List.map_append

/-- One keystroke types one character. -/
@[simp] theorem characters_singleton (k : Keystroke) : characters [k] = [k.character] := rfl

/-- Only no keystroke types none. -/
@[simp] theorem characters_eq_nil {keys : List Keystroke} : characters keys = [] ↔ keys = [] :=
  List.map_eq_nil_iff

variable (post) in
/-- **Keystrokes in a script.** Characters that are typed behind a marker stay without braces as
long as all of them but the first are escaped, and are in braces from then on. -/
theorem type_bare (hauto : s.config.autoBrace = true) (hfresh : s.typing.escapePending = false)
    (hm : Script.isMarker m = true) (ha : a.getLast? ≠ some '\\') {keys : List Keystroke}
    (hkeys : ∀ k ∈ keys, Script.isDelimiter k.character = false) :
    ((∀ k ∈ keys.tail, k.escaped = true) →
      (bare s a [] post m).type keys = bare s a (characters keys) post m) ∧
    ((¬∀ k ∈ keys.tail, k.escaped = true) → ∃ script,
      (bare s a [] post m).type keys = braced s a (characters keys) post m script) := by
  -- the next character is the last one, so the induction adds keystrokes at the end
  induction keys using List.reverseRecOn with
  | nil => exact ⟨fun _ => rfl, fun h => absurd (by simp) h⟩
  | append_singleton keys k ih =>
      have htyped : ∀ c ∈ characters keys, Script.isDelimiter c = false := by
        intro c hc
        obtain ⟨k', hk', rfl⟩ := List.mem_map.mp hc
        exact hkeys k' (List.mem_append_left [k] hk')
      have hk : Script.isDelimiter k.character = false := hkeys k (by simp)
      obtain ⟨ihbare, ihbraced⟩ := ih fun k' hk' => hkeys k' (List.mem_append_left [k] hk')
      have hlast : (bare s a [] post m).type (keys ++ [k]) =
          ((bare s a [] post m).type keys).press k := List.foldl_concat ..
      rw [hlast, characters_append, characters_singleton]
      rcases eq_or_ne keys [] with rfl | hne
      · refine ⟨fun _ => ?_, fun h => absurd (by simp) h⟩
        have hpress := press_bare post hauto hfresh htyped hk hm ha
        rwa [if_pos (.inr rfl)] at hpress
      have htail : (∀ k' ∈ (keys ++ [k]).tail, k'.escaped = true) ↔
          (∀ k' ∈ keys.tail, k'.escaped = true) ∧ k.escaped = true := by
        simp [List.tail_append_of_ne_nil hne, or_imp, forall_and]
      rw [htail]
      have hpress := press_bare post hauto hfresh htyped hk hm ha
      refine ⟨fun ⟨hall, hescaped⟩ => ?_, fun hsome => ?_⟩
      · rw [ihbare hall, hpress, if_pos (.inl hescaped)]
      · by_cases hall : ∀ k' ∈ keys.tail, k'.escaped = true
        · have hescaped : ¬k.escaped = true := fun h => hsome ⟨hall, h⟩
          rw [ihbare hall, hpress, if_neg (by simp [hescaped, hne])]
          exact ⟨_, rfl⟩
        · obtain ⟨script, hscript⟩ := ihbraced hall
          exact ⟨script, by rw [hscript, press_braced hauto hfresh htyped hk]⟩

/-- **A script gets its braces once.** Characters that are typed behind a marker, none of them
whitespace, a brace or a marker, end up behind the marker as they are if all of them but the first
are escaped. Otherwise they end up in one pair of braces, and the cursor before the closing brace.
The session finds at most one script meanwhile. -/
theorem type_script (s : Session) (a post : Text) (m : Char) (keys : List Keystroke)
    (hauto : s.config.autoBrace = true) (hfresh : s.typing.escapePending = false)
    (hm : m = '^' ∨ m = '_') (ha : a.getLast? ≠ some '\\')
    (hkeys : ∀ k ∈ keys, Text.isBlank k.character = false ∧
      k.character ∉ ['{', '}', '^', '_']) :
    let typed := characters keys
    let final := (⟨s, a ++ m :: post, Text.width (a ++ [m]), []⟩ : Typist).type keys
    ((∀ k ∈ keys.tail, k.escaped = true) →
      final.line = a ++ [m] ++ typed ++ post ∧ final.cursor = Text.width (a ++ [m] ++ typed)) ∧
    ((¬∀ k ∈ keys.tail, k.escaped = true) →
      final.line = a ++ [m] ++ ['{'] ++ typed ++ ['}'] ++ post ∧
        final.cursor = Text.width (a ++ [m] ++ ['{'] ++ typed)) ∧
    final.found.length ≤ 1 := by
  have hmarker : Script.isMarker m = true := by simpa [Script.isMarker] using hm
  have hdelimiter : ∀ k ∈ keys, Script.isDelimiter k.character = false := by
    intro k hk
    obtain ⟨hblank, hother⟩ := hkeys k hk
    simpa [Script.isDelimiter, Script.isMarker, hblank, and_assoc] using hother
  have hstart : (⟨s, a ++ m :: post, Text.width (a ++ [m]), []⟩ : Typist) = bare s a [] post m := by
    simp [bare]
  obtain ⟨hbare, hbraced⟩ := type_bare post hauto hfresh hmarker ha hdelimiter
  intro typed final
  -- either no key asks for the braces, or the first that does makes them
  by_cases hall : ∀ k ∈ keys.tail, k.escaped = true
  · have hfinal : final = bare s a typed post m :=
      (congrArg (Typist.type · keys) hstart).trans (hbare hall)
    refine ⟨fun _ => ?_, fun h => absurd hall h, ?_⟩ <;> rw [hfinal] <;> simp [bare]
  · obtain ⟨script, hscript⟩ := hbraced hall
    have hfinal : final = braced s a typed post m script :=
      (congrArg (Typist.type · keys) hstart).trans hscript
    refine ⟨fun h => absurd h hall, fun _ => ?_, ?_⟩ <;> rw [hfinal] <;> simp [braced]

/-- The second character is typed escaped, the third is not, and text follows the cursor. -/
theorem type_script_before_text :
    let keys : List Keystroke := [⟨'é', false⟩, ⟨'1', true⟩, ⟨'β', false⟩, ⟨'2', true⟩]
    let final := (⟨.new .standard, "x^ + y".toList, 2, []⟩ : Typist).type keys
    final.line = "x^\x7bé1β2\x7d + y".toList ∧ final.cursor = 9 ∧ final.found.length ≤ 1 := by
  have h := type_script (.new .standard) ['x'] " + y".toList '^'
    [⟨'é', false⟩, ⟨'1', true⟩, ⟨'β', false⟩, ⟨'2', true⟩] rfl rfl (.inl rfl) (by decide)
    (by decide)
  exact ⟨(h.2.1 (by decide)).1, (h.2.1 (by decide)).2, h.2.2⟩

end Typist

end MathEdit
