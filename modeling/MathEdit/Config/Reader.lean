import MathEdit.Config
import MathEdit.Json.Reader

/-! # Configurations in JSON

A configuration is an object of objects, in which every member may be missing and unknown members
are passed over; an array may stand for an object and gives the members in their order, as far as it
goes. `Config.ofText` reads a configuration and validates it, and `Config.toJson` writes one.
-/

namespace MathEdit

namespace Config

/-! ## Records -/

/-- The values of the named members of a record, each if it is given. There must be no more items
than names in an array, no name twice in an object, and no key that is not a text. -/
def fields? (names : List String) : Json Json.Str → Option (List (Option (Json Json.Str)))
  | .array items =>
      if items.length ≤ names.length then
        some (items.map some ++ List.replicate (names.length - items.length) none)
      else none
  | .object members =>
      if members.all (·.1.isSome) then
        names.mapM fun name =>
          match members.filter (·.1 = some name.toList) with
          | [] => some none
          | [(_, value)] => some (some value)
          | _ => none
      else none
  | _ => none

/-- The value of a member that may be missing. -/
def read? {α : Type} (read : Json Json.Str → Option α) (default : α) :
    Option (Json Json.Str) → Option α
  | none => some default
  | some j => read j

/-- A natural number of at most 64 bits. -/
def word? : Json Json.Str → Option Nat
  | .integer n => if 0 ≤ n ∧ n.toNat < UInt64.size then some n.toNat else none
  | _ => none

/-- A truth value. -/
def flag? : Json Json.Str → Option Bool
  | .bool b => some b
  | _ => none

/-- A text. -/
def text? : Json Json.Str → Option Text
  | .string s => s
  | _ => none

/-- A set of texts. -/
def texts? : Json Json.Str → Option (List Text)
  | .array items => (items.mapM text?).map Ascending.ofList
  | _ => none

/-! ## The three records -/

/-- The recognition of math, from its members. -/
def recognition? (j : Json Json.Str) : Option Recognition := do
  match ← fields? ["recognizedEnvironments", "allowArbitraryEnvironmentNames", "window"] j with
  | [environments, anyEnvironment, window] =>
      return ⟨← read? texts? Recognition.standard.environments environments,
        ← read? flag? Recognition.standard.anyEnvironment anyEnvironment,
        ← read? word? Recognition.standard.window window⟩
  | _ => none

/-- The layout of rows, from its members. -/
def rows? (j : Json Json.Str) : Option RowStyle := do
  match ← fields? ["environment", "indent"] j with
  | [environment, indent] =>
      return ⟨← read? text? RowStyle.standard.environment environment,
        ← read? word? RowStyle.standard.indent indent⟩
  | _ => none

/-- A configuration, from its members. -/
def ofJson? (j : Json Json.Str) : Option Config := do
  match ← fields? ["locator", "split", "autoBrace"] j with
  | [recognition, rows, autoBrace] =>
      return ⟨← read? recognition? Recognition.standard recognition,
        ← read? rows? RowStyle.standard rows,
        ← read? flag? Config.standard.autoBrace autoBrace⟩
  | _ => none

/-- The configuration that a text is, or the reason why it is none. -/
def ofText (t : Text) : Except EditError Config :=
  match (Json.read? t).bind ofJson? with
  | none => .error .malformedConfig
  | some c => do
      c.validate
      return c

/-- A configuration as a JSON value with all of its members. -/
def toJson (c : Config) : Json Text :=
  .record
    [("locator", .record
        [("recognizedEnvironments", .array (c.recognition.environments.map .string)),
          ("allowArbitraryEnvironmentNames", .bool c.recognition.anyEnvironment),
          ("window", .nat c.recognition.window)]),
      ("split", .record
        [("environment", .string c.rows.environment), ("indent", .nat c.rows.indent)]),
      ("autoBrace", .bool c.autoBrace)]

end Config

end MathEdit
