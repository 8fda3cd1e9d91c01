import MathEdit.Text

/-! # What a command asks of the system

A command reads standard input and files, prints, and may overwrite a file. `Host m` lists what the
monad `m` has to offer for that, and the command line is the same for every host. Two hosts are
given here: one for actions that may fail, and the `World`, whose files are plain data, so that it
shows what an action has done.
-/

namespace MathEdit.Command

/-- Why a path cannot be read as text, or no text be written to it. -/
inductive Obstacle where
  | missing
  | denied
  | directory
  /-- A step of the path goes through something that is no directory. -/
  | notDirectory
  | longName
  | notUnicode
  | other (reason : String)
  deriving DecidableEq, Repr

/-- The reason in words, with the number that the system gives to it. -/
def Obstacle.reason : Obstacle → String
  | missing => "No such file or directory (os error 2)"
  | denied => "Permission denied (os error 13)"
  | directory => "Is a directory (os error 21)"
  | notDirectory => "Not a directory (os error 20)"
  | longName => "File name too long (os error 36)"
  | notUnicode => "stream did not contain valid UTF-8"
  | other reason => reason

/-- What reading gives. -/
inductive Source where
  | text (content : Text)
  | blocked (obstacle : Obstacle)
  deriving DecidableEq, Repr

namespace Source

/-- The text that is found, or the reason why there is none. -/
def read : Source → Except String Text
  | text content => .ok content
  | blocked obstacle => .error obstacle.reason

/-- Whether what is found is a file, readable or not. -/
def isFile : Source → Bool
  | text _ | blocked .denied | blocked .notUnicode | blocked (.other _) => true
  | blocked _ => false

/-- Why what is found cannot give way to a text. A missing file is created. -/
def refusal? : Source → Option Obstacle
  | text _ | blocked .notUnicode | blocked .missing => none
  | blocked obstacle => some obstacle

end Source

/-- What a monad offers to a command. -/
class Host (m : Type → Type) where
  /-- What standard input still holds, all of which is taken. -/
  readInput : m Source
  readFile : (path : Text) → m Source
  /-- Whether a path leads to a file. -/
  isFile : (path : Text) → m Bool
  /-- Overwrites a file, or gives the reason why that is refused. -/
  writeFile : (path content : Text) → m (Except String Unit)
  print : (t : Text) → m Unit
  printError : (t : Text) → m Unit

/-- An action that may fail asks the host behind it. -/
instance {ε : Type} {m : Type → Type} [Monad m] [Host m] : Host (ExceptT ε m) where
  readInput := ExceptT.lift Host.readInput
  readFile path := ExceptT.lift (Host.readFile path)
  isFile path := ExceptT.lift (Host.isFile path)
  writeFile path content := ExceptT.lift (Host.writeFile path content)
  print t := ExceptT.lift (Host.print t)
  printError t := ExceptT.lift (Host.printError t)

/-! ## A world of plain data -/

/-- Where a path leads to. Several paths may lead to one location. -/
inductive Target where
  | location (name : Text)
  | standardInput
  deriving DecidableEq, Repr

/-- The files and streams around a command. -/
structure World where
  /-- What standard input still holds. -/
  stdin : Source
  target : (path : Text) → Target
  /-- What stands at each location. -/
  files : (location : Text) → Source
  /-- Why nothing at a location may be opened for writing, even if what stands there would give way:
  the file may be read-only. -/
  refuses : (location : Text) → Option Obstacle
  /-- The filter for log lines that the environment sets, if it does. Without one, log lines are
  printed for verbose requests only. -/
  logFilter : Option Text
  /-- What has been printed so far. -/
  stdout : Text
  /-- What has been printed to the error stream so far, log lines apart. -/
  stderr : Text

namespace World

/-- Takes all of standard input. -/
def takeInput (w : World) : Source × World := (w.stdin, { w with stdin := .text [] })

/-- What a path leads to. -/
def read (w : World) (path : Text) : Source × World :=
  match w.target path with
  | .location name => (w.files name, w)
  | .standardInput => w.takeInput

/-- Whether a path leads to a file. -/
def isFile (w : World) (path : Text) : Bool :=
  match w.target path with
  | .location name => (w.files name).isFile
  | .standardInput => false

/-- Why a text cannot be put at a location. -/
def refusal? (w : World) (location : Text) : Option Obstacle :=
  (w.files location).refusal?.or (w.refuses location)

/-- Puts a text at the location that a path leads to, unless that is refused. Standard input takes
what is written to it without a trace. -/
def write (w : World) (path content : Text) : Except String Unit × World :=
  match w.target path with
  | .location name =>
      match w.refusal? name with
      | some obstacle => (.error obstacle.reason, w)
      | none =>
          (.ok (), { w with
            files := fun location => if location = name then .text content else w.files location })
  | .standardInput => (.ok (), w)

/-- Prints to standard output. -/
def print (w : World) (t : Text) : World := { w with stdout := w.stdout ++ t }

/-- Prints to the error stream. -/
def printError (w : World) (t : Text) : World := { w with stderr := w.stderr ++ t }

end World

instance : Host (StateM World) where
  readInput w := w.takeInput
  readFile path w := w.read path
  isFile path w := (w.isFile path, w)
  writeFile path content w := w.write path content
  print t w := ((), w.print t)
  printError t w := ((), w.printError t)

end MathEdit.Command
