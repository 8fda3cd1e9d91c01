import Mathlib.Data.List.Induction
import MathEdit.Proofs.Script.Detected
import MathEdit.Session

/-! # Escapes in a session

An escape asks a session to leave the next character alone. It is pending until an insertion ends
it: one character uses it up, whitespace and deletions take it back, and only a longer text leaves
it. So what is pending depends on the last events alone, and not on the configuration.

* **`Session.Event`**, **`Session.run`**: what a session is told, and what becomes of it.
* **`Script.Typing.change_eq_some_iff`**, **`Script.Typing.escapePending_change`**: what one change
  does.
* **`Session.escapePending_run_iff`**: an escape is pending if nothing has ended it since.
* **`Session.escape_history`**: the answers of a session by the events before them. -/

namespace MathEdit

/-! ## One change -/

/-- Whether the insertion of a text ends an escape: the text is empty, has whitespace in it, or is
one character. -/
def EndsEscape (inserted : Text) : Prop :=
  inserted = [] ∨ (∃ c ∈ inserted, Text.isBlank c = true) ∨ inserted.length = 1

namespace Script

variable {line inserted front back : Text} {stop : Nat} {c : Char} {found : Script}

/-- A script is looked for when one character that is no whitespace comes in and no escape is
pending. -/
theorem Typing.change_eq_some_iff {s : Typing} :
    (s.change inserted line stop).1 = some found ↔
      (∃ c, inserted = [c] ∧ Text.isBlank c = false) ∧ s.escapePending = false ∧
        detect? line stop = some found := by
  obtain ⟨pending⟩ := s
  rw [change]
  match inserted with
  | [] => simp
  | [c] => cases hc : Text.isBlank c <;> cases pending <;> simp [hc]
  | c :: d :: rest => cases (c :: d :: rest).any Text.isBlank <;> simp

/-- An escape stays pending unless the inserted text ends it. -/
theorem Typing.escapePending_change {s : Typing} :
    (s.change inserted line stop).2.escapePending = true ↔
      ¬ EndsEscape inserted ∧ s.escapePending = true := by
  obtain ⟨pending⟩ := s
  rw [change, EndsEscape]
  match inserted with
  | [] => simp
  | [c] => cases hc : Text.isBlank c <;> cases pending <;> simp [hc]
  | c :: d :: rest =>
      rw [← List.any_eq_true]
      cases (c :: d :: rest).any Text.isBlank <;> simp

/-- The character that ends at an offset. -/
theorem typedAt?_append (front back : Text) (c : Char) :
    typedAt? (front ++ c :: back) (Text.width (front ++ [c])) = some c := by
  rw [List.append_cons, typedAt?_width_append, List.getLast?_concat]

/-- No character ends at the start of a line, behind its end, or inside of a character. -/
theorem typedAt?_eq_none (h : stop = 0 ∨ Text.width line < stop ∨
      ∃ front c back, line = front ++ c :: back ∧ Text.width front < stop ∧
        stop < Text.width (front ++ [c])) :
    typedAt? line stop = none := by
  rw [typedAt?]
  split
  · next head rest hsplit =>
      obtain ⟨rfl, rfl⟩ := Text.splitAt?_eq_some_iff.1 hsplit
      rcases h with hzero | hend | ⟨front, c, back, hline, hfront, hback⟩
      · have hnil : head = [] := by
          by_contra hne
          exact absurd hzero (Nat.ne_of_gt (Text.width_pos hne))
        rw [hnil, List.getLast?_nil]
      · rw [Text.width_append] at hend
        omega
      · -- a cut behind the front is not before the end of the character
        exfalso
        obtain ⟨m, rfl, hrest⟩ := Text.exists_append_of_width_le hline.symm (Nat.le_of_lt hfront)
        cases m with
        | nil => simp at hfront
        | cons d m =>
            obtain ⟨rfl, -⟩ := List.cons.inj hrest
            simp only [Text.width, Text.measure_append, Text.measure_cons,
              Text.measure_nil] at hback
            omega
  · rfl

end Script

namespace Session

/-! ## Events -/

/-- What a session is told about a line that is being edited. -/
inductive Event where
  /-- The next character is to be left alone. -/
  | escape
  /-- The character that ends at an offset was inserted. -/
  | insert (line : Text) (stop : Nat)
  /-- A text that ends at an offset was inserted. -/
  | change (inserted line : Text) (stop : Nat)
  deriving DecidableEq, Repr

/-- What a session answers to an event, and the session after it. -/
def handle (s : Session) : Event → Option Script × Session
  | .escape => (none, s.escape)
  | .insert line stop => s.insert line stop
  | .change inserted line stop => s.change inserted line stop

/-- A session after some events. -/
def run (s : Session) (events : List Event) : Session :=
  events.foldl (fun s e => (s.handle e).2) s

/-- The text that an event inserted, if it is an insertion. -/
def Event.inserted? : Event → Option Text
  | escape => none
  | insert line stop => some (Script.typedAt? line stop).toList
  | change inserted _ _ => some inserted

/-- Whether there is an escape among some events that no later insertion ends. -/
def EscapedBy (events : List Event) : Prop :=
  ∃ before after, events = before ++ .escape :: after ∧
    ∀ e ∈ after, ∀ inserted ∈ e.inserted?, ¬ EndsEscape inserted

variable {s : Session} {line inserted : Text} {stop : Nat} {found : Script} {e : Event}
  {events : List Event}

/-! ## One event -/

/-- An escape is pending after a change if it was before and the change does not end it. -/
theorem escapePending_change (s : Session) (inserted line : Text) (stop : Nat) :
    (s.change inserted line stop).2.typing.escapePending = true ↔
      ¬ EndsEscape inserted ∧ s.typing.escapePending = true := by
  rw [change, settle]
  exact Script.Typing.escapePending_change

/-- **An escape after one event** is a new one, or one that the event does not end. -/
theorem escapePending_handle (s : Session) (e : Event) :
    (s.handle e).2.typing.escapePending = true ↔
      e = .escape ∨ (∀ inserted ∈ e.inserted?, ¬ EndsEscape inserted) ∧
        s.typing.escapePending = true := by
  cases e with
  | escape => exact iff_of_true rfl (.inl rfl)
  | insert line stop =>
      refine (escapePending_change s (Script.typedAt? line stop).toList line stop).trans ?_
      simp [Event.inserted?]
  | change inserted line stop =>
      refine (escapePending_change s inserted line stop).trans ?_
      simp [Event.inserted?]

/-- No event changes the configuration. -/
theorem config_handle (s : Session) (e : Event) : (s.handle e).2.config = s.config := by
  cases e <;> rfl

/-- A change is answered with a script exactly if scripts are braced, one character came in that is
no whitespace, no escape is pending, and a script is found at the offset. -/
theorem change_eq_some_iff :
    (s.change inserted line stop).1 = some found ↔ s.config.autoBrace = true ∧
      (∃ c, inserted = [c] ∧ Text.isBlank c = false) ∧ s.typing.escapePending = false ∧
        Script.detect? line stop = some found := by
  rw [change, settle, Option.ite_none_right_eq_some, Script.Typing.change_eq_some_iff]

/-! ## Runs -/

/-- The last of some events is handled by the session that the others have led to. -/
theorem run_concat (s : Session) (events : List Event) (e : Event) :
    s.run (events ++ [e]) = ((s.run events).handle e).2 := List.foldl_concat ..

/-- No event touches the configuration. -/
theorem config_run (s : Session) (events : List Event) : (s.run events).config = s.config := by
  induction events using List.reverseRecOn with
  | nil => rfl
  | append_singleton events e ih => rw [run_concat, config_handle, ih]

/-- The last event is an escape, or it leaves one that came before. -/
theorem escapedBy_concat_iff : EscapedBy (events ++ [e]) ↔
    e = .escape ∨ (∀ inserted ∈ e.inserted?, ¬ EndsEscape inserted) ∧ EscapedBy events := by
  constructor
  · rintro ⟨before, after, hsplit, hafter⟩
    rcases List.eq_nil_or_concat' after with rfl | ⟨after, last, rfl⟩
    · exact .inl (List.singleton_inj.1 (List.append_inj' hsplit rfl).2)
    · rw [← List.cons_append, ← List.append_assoc] at hsplit
      obtain ⟨rfl, hlast⟩ := List.append_inj' hsplit rfl
      obtain rfl := List.singleton_inj.1 hlast
      obtain ⟨hafter, he⟩ := List.forall_mem_append.1 hafter
      exact .inr ⟨he e (List.mem_singleton_self e), before, after, rfl, hafter⟩
  · rintro (rfl | ⟨he, before, after, rfl, hafter⟩)
    · exact ⟨events, [], rfl, by simp⟩
    · refine ⟨before, after ++ [e], by simp, List.forall_mem_append.2 ⟨hafter, ?_⟩⟩
      exact List.forall_mem_singleton.2 he

/-- **What is pending.** An escape is pending after some events of a new session if one of them was
an escape that no later insertion ended. -/
theorem escapePending_run_iff (config : Config) (events : List Event) :
    ((new config).run events).typing.escapePending = true ↔ EscapedBy events := by
  induction events using List.reverseRecOn with
  | nil => simp [run, new, Script.Typing.fresh, EscapedBy]
  | append_singleton events e ih =>
      rw [run_concat, escapePending_handle, escapedBy_concat_iff, ih]

/-- **Escapes over a run.** After any events of a new session an escape is pending exactly if one of
them was an escape and no later one inserted nothing, whitespace or a single character. A change is
then answered with a script exactly if scripts are braced, it inserted one character that is no
whitespace, no escape is pending, and a script is found at its offset. An insertion is the change
that inserted the character that ends at its offset, or nothing if the offset is at the start of the
line, behind its end or inside of a character. Whether scripts are braced makes no difference to
what is pending. -/
theorem escape_history (config : Config) (events : List Event) :
    let s := (new config).run events
    (s.typing.escapePending = true ↔ ∃ before after, events = before ++ .escape :: after ∧
      ∀ e ∈ after, ∀ inserted ∈ e.inserted?,
        ¬ (inserted = [] ∨ (∃ c ∈ inserted, Text.isBlank c = true) ∨ inserted.length = 1)) ∧
    (∀ inserted line stop found,
      (s.handle (.change inserted line stop)).1 = some found ↔ config.autoBrace = true ∧
        (∃ c, inserted = [c] ∧ Text.isBlank c = false) ∧ s.typing.escapePending = false ∧
          Script.detect? line stop = some found) ∧
    (∀ front c back,
      s.handle (.insert (front ++ c :: back) (Text.width (front ++ [c]))) =
        s.handle (.change [c] (front ++ c :: back) (Text.width (front ++ [c])))) ∧
    (∀ line stop, (stop = 0 ∨ Text.width line < stop ∨
        ∃ front c back, line = front ++ c :: back ∧ Text.width front < stop ∧
          stop < Text.width (front ++ [c])) →
      s.handle (.insert line stop) = s.handle (.change [] line stop)) ∧
    ∀ autoBrace, ((new { config with autoBrace := autoBrace }).run events).typing.escapePending =
      s.typing.escapePending := by
  intro s
  refine ⟨escapePending_run_iff config events, fun inserted line stop found => ?_,
    fun front c back => ?_, fun line stop hplace => ?_, fun autoBrace => ?_⟩
  -- events leave the switch for bracing as it was
  · have hconfig : s.config = config := config_run (new config) events
    rw [← hconfig]
    exact change_eq_some_iff
  · rw [handle, handle, insert, Script.Typing.insert, Script.typedAt?_append]
    rfl
  · rw [handle, handle, insert, Script.Typing.insert, Script.typedAt?_eq_none hplace]
    rfl
  · rw [Bool.eq_iff_iff, escapePending_run_iff, escapePending_run_iff]

/-- An escape outlives a text of two characters and suppresses the script of the next one, and an
offset behind the line stands for a deletion. -/
theorem escape_history_behind_paste :
    let s := (new .standard).run [.escape, .change "αβ".toList "x^αβ".toList 6]
    s.typing.escapePending = true ∧ (s.handle (.insert "x^αβγ".toList 8)).1 = none ∧
      s.handle (.insert "x^αβ".toList 9) = s.handle (.change [] "x^αβ".toList 9) := by
  intro s
  obtain ⟨hhistory, hchange, hinsert, hnothing, -⟩ :=
    escape_history .standard [.escape, .change "αβ".toList "x^αβ".toList 6]
  have hpending : s.typing.escapePending = true := by
    refine hhistory.2 ⟨[], _, rfl, List.forall_mem_singleton.2 ?_⟩
    rintro _ ⟨⟩
    have hblank : Text.isBlank 'α' = false ∧ Text.isBlank 'β' = false := by decide
    simp [hblank]
  refine ⟨hpending, ?_, hnothing _ _ (.inr (.inl (by decide)))⟩
  -- a script is found there, but the character uses up the escape
  have hlast : s.handle (.insert "x^αβγ".toList 8) = s.handle (.change ['γ'] "x^αβγ".toList 8) :=
    hinsert "x^αβ".toList 'γ' []
  rw [hlast, Option.eq_none_iff_forall_ne_some]
  intro found hfound
  have hfree := ((hchange _ _ _ found).1 hfound).2.2.1
  exact Bool.noConfusion (hfree.symm.trans hpending)

end Session

end MathEdit
