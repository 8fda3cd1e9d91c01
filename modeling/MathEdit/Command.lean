import MathEdit.Command.Host
import MathEdit.Command.Report
import MathEdit.Command.Request
import MathEdit.Config.Reader
import MathEdit.Session

/-! # The command line

`Command.run` is what the command line does with its arguments, on any host: it reads what the
request names, prints the result or why there is none, and gives the status to end with. Only a
split in place overwrites a file.

Two things are left out. Log lines are not printed: where a request is verbose or the environment
sets a filter for them, they stand on the error stream, among what is printed there. And a command
line that asks for help counts as one that is not understood: it gets no help and not the status
zero.
-/

namespace MathEdit.Command

/-! ## Failures -/

/-- Why a command fails: a message, and the causes behind it, the nearest first. -/
structure Failure where
  message : String
  causes : List String
  deriving DecidableEq, Repr

/-- The lines of a failure. Causes are numbered if there is more than one. -/
def Failure.render (f : Failure) : String :=
  let causes := match f.causes with
    | [] => ""
    | [cause] => "\nCaused by:\n    " ++ cause ++ "\n"
    | causes =>
        "\nCaused by:\n" ++ String.join (causes.zipIdx.map fun (cause, n) =>
          "".pushn ' ' (5 - (toString n).length) ++ toString n ++ ": " ++ cause ++ "\n")
  "Error: " ++ f.message ++ "\n" ++ causes

/-- A failure for a wrong configuration or position. -/
def Failure.ofError (e : EditError) : Failure := ⟨e.message, []⟩

/-- Puts a message in front of a failure, which becomes its cause. -/
def Failure.during (message : String) (f : Failure) : Failure :=
  ⟨message, f.message :: f.causes⟩

/-! ## Reading -/

/-- The configuration in a file. -/
def readConfig (path : Text) (source : Source) : Except Failure Config :=
  match source.read with
  | .ok content => (Config.ofText content).mapError .ofError
  | .error reason =>
      .error ⟨"failed to read " ++ String.ofList (Text.quoted path) ++ ": " ++ reason, [reason]⟩

/-- Whether a path stands for standard input. -/
def isStdin (path : Text) : Bool := path = ['-']

/-- The offset of the cursor in a document, if a cursor is given. -/
def resolveCursor (cursor : Option Position) (d : Document) : Except Failure (Option Nat) :=
  match cursor with
  | none => .ok none
  | some p => ((p.resolve d).map some).mapError .ofError

section

variable {m : Type → Type} [Monad m] [Host m]

/-- The configuration of a request. It stands in the file that is named, or else in the
configuration file of the directory if it has one. -/
def configOf : Option Text → ExceptT Failure m Config
  | some path => do
      let source ← Host.readFile path
      MonadExcept.ofExcept ((readConfig path source).mapError
        (.during ("failed to load config " ++ String.ofList path)))
  | none => do
      let path := Config.fileName.toList
      if ← Host.isFile path then
        let source ← Host.readFile path
        MonadExcept.ofExcept (readConfig path source)
      else return .standard

/-- The document under a path. -/
def readDocument (path : Text) : ExceptT Failure m Text := do
  if isStdin path then
    let source ← Host.readInput
    MonadExcept.ofExcept
      (source.read.mapError fun reason => Failure.mk "failed to read stdin" [reason])
  else
    let source ← Host.readFile path
    MonadExcept.ofExcept
      (source.read.mapError fun reason =>
        Failure.mk ("failed to read " ++ String.ofList path) [reason])

/-! ## The actions -/

/-- Prints a result in JSON on a line of its own. -/
def printJson (j : Json Text) : ExceptT Failure m Unit := Host.print (j.render ++ ['\n'])

/-- Prints the math around the cursor. -/
def locate (s : Session) (t : Text) (cursor : Option Nat) : ExceptT Failure m Unit :=
  match cursor with
  | none => throw ⟨"locate needs a cursor: pass --offset or --line/--column", []⟩
  | some offset => printJson (Json.nullable Region.toJson (s.locate? t offset))

/-- Prints the stops of the math around the cursor, or of a document up to the space at its end. -/
def jumps (s : Session) (t : Text) (cursor : Option Nat) : ExceptT Failure m Unit :=
  match cursor with
  | some offset =>
      printJson (Json.nullable (fun r => stopsJson (stops r.text) (some r)) (s.locate? t offset))
  | none => printJson (stopsJson (stops (Text.trimEnd t)) none)

/-- A document with the equation around the cursor split, or split as a whole up to the space at its
end; none if there is nothing to split. -/
def splitDocument? (s : Session) (t : Text) (cursor : Option Nat) : Option Text :=
  match cursor with
  | some offset => (s.splitAt? t offset).map (·.apply t)
  | none => Equation.split? s.config.rows (Text.trimEnd t)

/-- Prints a document that was split, or overwrites its file; `rows` is what it was split into. -/
def deliver (path t : Text) (inPlace : Bool) (rows : Option Text) : ExceptT Failure m Unit :=
  match rows with
  | none => do
      Host.printError "Nothing to split.\n".toList
      if !inPlace then Host.print t
  | some rows => do
      if !inPlace then Host.print (rows ++ ['\n'])
      else if isStdin path then throw ⟨"--in-place cannot be used with stdin", []⟩
      else
        match ← Host.writeFile path rows with
        | .ok () => return ()
        | .error reason => throw ⟨"failed to write " ++ String.ofList path, [reason]⟩

/-- Splits a document. -/
def split (s : Session) (path t : Text) (cursor : Option Nat) (inPlace : Bool) :
    ExceptT Failure m Unit :=
  deliver path t inPlace (splitDocument? s t cursor)

/-- Does one action. -/
def perform (s : Session) : Action → ExceptT Failure m Unit
  | .locate path cursor => do
      let t ← readDocument path
      locate s t (← MonadExcept.ofExcept (resolveCursor cursor (.ofText t)))
  | .jumps path cursor => do
      let t ← readDocument path
      jumps s t (← MonadExcept.ofExcept (resolveCursor cursor (.ofText t)))
  | .split path cursor inPlace => do
      let t ← readDocument path
      split s path t (← MonadExcept.ofExcept (resolveCursor cursor (.ofText t))) inPlace
  | .brace line stop =>
      let (script, _) := s.insert line (stop.getD (Text.width line))
      printJson (Json.nullable Script.toJson script)
  | .tokens path => do
      let t ← readDocument path
      printJson (.array ((scan t).map Token.toJson))
  | .refs path => do
      let t ← readDocument path
      printJson (ReferenceGraph.ofText t).toJson

/-- Does what a request asks for. -/
def fulfil (request : Request) : ExceptT Failure m Unit := do
  let config ← configOf request.config
  perform (Session.new config) request.action

/-- Does what the arguments ask for, without log lines. The status is two for a command line that is
not understood, which here includes one that asks for help, and one for a failure. -/
def run (arguments : List Text) : m Nat := do
  match Request.ofArguments? arguments with
  | none =>
      Host.printError "Error: the command line is not understood\n".toList
      return 2
  | some request =>
      match ← (fulfil request).run with
      | .ok () => return 0
      | .error failure =>
          Host.printError failure.render.toList
          return 1

end

end MathEdit.Command
