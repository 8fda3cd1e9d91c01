import MathEdit.Text
import MathEdit.Ascending

/-! # Environments

An environment is named by ASCII letters with an optional trailing `*`, and `Recognition` says which
environments hold math: the listed ones, each also in its starred form, and on request any
environment with a name made of letters.
-/

namespace MathEdit

namespace Environment

/-- A name without its trailing `*`. -/
def base (name : Text) : Text := if name.getLast? = some '*' then name.dropLast else name

/-- Whether a text is the name of an environment. -/
def isName (name : Text) : Bool := base name ≠ [] && (base name).all Char.isAlpha

/-- An opening tag up to the name. -/
def openingStart : Text := "\\begin".toList ++ ['{']

/-- A closing tag up to the name. -/
def closingStart : Text := "\\end".toList ++ ['{']

/-- The opening tag of an environment. -/
def openingTag (name : Text) : Text := openingStart ++ name ++ ['}']

/-- The closing tag of an environment. -/
def closingTag (name : Text) : Text := closingStart ++ name ++ ['}']

end Environment

/-- Which environments are math, and how far to look for math around a place. -/
structure Recognition where
  /-- The listed names, in ascending order. -/
  environments : List Text
  /-- Whether every name made of letters counts as listed. -/
  anyEnvironment : Bool
  /-- The bytes on either side of a place that are searched first; zero searches all at once. -/
  window : Nat
  deriving DecidableEq, Repr

namespace Recognition

/-- The display environments that are math by default. -/
def mathEnvironments : List Text :=
  ["align", "alignat", "displaymath", "equation", "flalign", "gather", "multline", "split"].map
    String.toList

/-- The standard recognition: the display environments, within 5000 bytes first. -/
def standard : Recognition := ⟨mathEnvironments, false, 5000⟩

/-- Whether an environment is math. A trailing `*` does not matter, but some name must be left. -/
def accepts (r : Recognition) (name : Text) : Bool :=
  Environment.base name ≠ [] &&
    (r.environments.contains name || r.environments.contains (Environment.base name) ||
      (r.anyEnvironment && (Environment.base name).all Char.isAlpha))

/-- The first listed name that is not the name of an environment. -/
def invalidName? (r : Recognition) : Option Text := r.environments.find? (!Environment.isName ·)

example : Ascending.ofList mathEnvironments = mathEnvironments := by decide +kernel

end Recognition

end MathEdit
