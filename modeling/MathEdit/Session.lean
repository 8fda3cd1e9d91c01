import MathEdit.Config
import MathEdit.Region.Locate
import MathEdit.Script
import MathEdit.Stops

/-! # Editing sessions

A `Session` is the state behind one editor: its configuration and whether the next character is to
be left alone. Everything else is asked of a document: the math around an offset, the stops before
and after it, and the edit that splits the equation there.
-/

namespace MathEdit

/-- One editor's configuration and typing state. -/
structure Session where
  config : Config
  typing : Script.Typing
  deriving DecidableEq, Repr

namespace Session

/-- A session in which nothing has been typed yet. -/
def new (config : Config) : Session := ⟨config, .fresh⟩

/-- The math of a document around an offset. -/
def locate? (s : Session) (t : Text) (offset : Nat) : Option Region :=
  Region.locate? s.config.recognition t offset

/-- The stop after an offset, in the math around it. -/
def nextStop? (s : Session) (t : Text) (offset : Nat) : Option Nat := do
  let region ← s.locate? t offset
  let here ← region.toLocal? offset
  let stop ← MathEdit.nextStop? (stops region.text) here
  return region.toAbsolute stop

/-- The stop before an offset, in the math around it. -/
def previousStop? (s : Session) (t : Text) (offset : Nat) : Option Nat := do
  let region ← s.locate? t offset
  let here ← region.toLocal? offset
  let stop ← MathEdit.previousStop? (stops region.text) here
  return region.toAbsolute stop

/-- The next stop is after the offset and not past the end of the document. -/
theorem bounds_of_nextStop? {s : Session} {t : Text} {offset next : Nat}
    (h : s.nextStop? t offset = some next) : offset < next ∧ next ≤ Text.width t := by
  obtain ⟨region, hr, h⟩ := Option.bind_eq_some_iff.1 h
  obtain ⟨here, hl, h⟩ := Option.bind_eq_some_iff.1 h
  obtain ⟨stop, hs, h⟩ := Option.bind_eq_some_iff.1 h
  obtain rfl := Option.some.inj h
  have ⟨hin, hle, _⟩ := Region.sound_of_locate? hr
  have hafter := List.find?_some hs
  have hbound := le_of_mem_stops (List.mem_of_find?_eq_some hs)
  have hstop := hin.stop_le
  unfold Region.toLocal? at hl
  split at hl
  · obtain rfl := Option.some.inj hl
    simp only [decide_eq_true_eq, Region.toAbsolute, Region.stop] at *
    omega
  · simp at hl

/-- The previous stop is before the offset. -/
theorem lt_of_previousStop? {s : Session} {t : Text} {offset previous : Nat}
    (h : s.previousStop? t offset = some previous) : previous < offset := by
  obtain ⟨region, hr, h⟩ := Option.bind_eq_some_iff.1 h
  obtain ⟨here, hl, h⟩ := Option.bind_eq_some_iff.1 h
  obtain ⟨stop, hs, h⟩ := Option.bind_eq_some_iff.1 h
  obtain rfl := Option.some.inj h
  have ⟨_, hle, _⟩ := Region.sound_of_locate? hr
  have hbefore := List.find?_some hs
  unfold Region.toLocal? at hl
  split at hl
  · obtain rfl := Option.some.inj hl
    simp only [decide_eq_true_eq, Region.toAbsolute] at *
    omega
  · simp at hl

/-- The stops that moving forward from an offset comes to, one after the other. -/
def stopsAfter (s : Session) (t : Text) (offset : Nat) : List Nat :=
  match _h : s.nextStop? t offset with
  | some next => next :: s.stopsAfter t next
  | none => []
termination_by Text.width t - offset
decreasing_by
  have := bounds_of_nextStop? _h
  omega

/-- The stops that moving backward from an offset comes to, one after the other. -/
def stopsBefore (s : Session) (t : Text) (offset : Nat) : List Nat :=
  match _h : s.previousStop? t offset with
  | some previous => previous :: s.stopsBefore t previous
  | none => []
termination_by offset
decreasing_by exact lt_of_previousStop? _h

/-- The edit that splits the equation around an offset. -/
def splitAt? (s : Session) (t : Text) (offset : Nat) : Option Edit := do
  let region ← s.locate? t offset
  let rows ← Equation.split? s.config.rows region.text
  return ⟨region.start, region.stop, rows⟩

/-- Asks to leave the next character alone. -/
def escape (s : Session) : Session := { s with typing := s.typing.escape }

/-- What a session makes of a keystroke: nothing is braced if the configuration says so. -/
def settle (s : Session) (outcome : Option Script × Script.Typing) : Option Script × Session :=
  (if s.config.autoBrace then outcome.1 else none, { s with typing := outcome.2 })

/-- A change of a line that inserted a text ending at `stop`. -/
def change (s : Session) (inserted line : Text) (stop : Nat) : Option Script × Session :=
  s.settle (s.typing.change inserted line stop)

/-- The insertion of the character of a line that ends at `stop`. -/
def insert (s : Session) (line : Text) (stop : Nat) : Option Script × Session :=
  s.settle (s.typing.insert line stop)

end Session

end MathEdit
