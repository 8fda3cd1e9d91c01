import MathEdit.Equation
import MathEdit.Position
import MathEdit.Text.Quoted

/-! # Configuration

A `Config` gathers what the other parts can be told: the recognition of math, the layout of split
equations, and whether scripts are braced while typing. `EditError` lists what can be wrong with a
configuration or a position, and `EditError.message` words it.
-/

namespace MathEdit

/-- What a configuration or a position can be refused for. -/
inductive EditError where
  /-- The text of a configuration is not of the right form. -/
  | malformedConfig
  /-- A name in a configuration is not the name of an environment. -/
  | invalidEnvironment (name : Text)
  /-- A document does not have a position. -/
  | invalidPosition (position : Position)
  deriving DecidableEq, Repr

/-- The wording of an error. -/
def EditError.message : EditError → String
  | malformedConfig => "malformed configuration"
  | invalidEnvironment name => "invalid environment name " ++ String.ofList (Text.quoted name)
  | invalidPosition p => "position " ++ p.describe ++ " does not exist in the document"

/-- The settings of an editing session. -/
structure Config where
  recognition : Recognition
  rows : RowStyle
  /-- Whether scripts are braced while typing. -/
  autoBrace : Bool
  deriving DecidableEq, Repr

namespace Config

/-- The settings that hold when nothing is said. -/
def standard : Config := ⟨.standard, .standard, true⟩

/-- The name of the configuration file of a directory. -/
def fileName : String := ".ferromath.json"

end Config

/-- Refuses a recognition that lists something else than the names of environments. -/
def Recognition.validate (r : Recognition) : Except EditError Unit :=
  match r.invalidName? with
  | some name => .error (.invalidEnvironment name)
  | none => .ok ()

/-- Refuses a layout whose environment has no proper name. -/
def RowStyle.validate (s : RowStyle) : Except EditError Unit :=
  if Environment.isName s.environment then .ok ()
  else .error (.invalidEnvironment s.environment)

/-- Refuses a configuration with a bad name; the names to recognize are looked at first. -/
def Config.validate (c : Config) : Except EditError Unit := do
  c.recognition.validate
  c.rows.validate

/-- The byte offset of a position, or the error that the document does not have it. -/
def Position.resolve (p : Position) (d : Document) : Except EditError Nat :=
  match p.resolve? d with
  | some n => .ok n
  | none => .error (.invalidPosition p)

end MathEdit
