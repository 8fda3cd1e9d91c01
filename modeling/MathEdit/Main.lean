import MathEdit.Command

/-! # The program

The outer layer of the command line: the host whose files and streams are those of the system.
-/

namespace MathEdit.Command

/-- Reads bytes as a source of text. -/
def sourceOfBytes (bytes : ByteArray) : Source :=
  match String.fromUTF8? bytes with
  | some s => .text s.toList
  | none => .blocked .notUnicode

/-- The obstacle behind a failure to read or to write. Numbers of the system may arrive negated. -/
def obstacleOf : IO.Error → Obstacle
  | .noFileOrDirectory .. => .missing
  | .permissionDenied .. => .denied
  | .inappropriateType _ code _ => if code = 20 || code = -20 then .notDirectory else .directory
  | .invalidArgument _ code details =>
      if code = 36 || code = -36 then .longName else .other details
  | e => .other (toString e)

/-- The names of standard input as a file. -/
def standardInputNames : List String := ["/dev/stdin", "/dev/fd/0", "/proc/self/fd/0"]

/-- Reads all of standard input. -/
def readStandardInput : IO Source := do
  return sourceOfBytes (← (← IO.getStdin).readBinToEnd)

/-- Reads a file. -/
def readSource (path : Text) : IO Source := do
  try
    return sourceOfBytes (← IO.FS.readBinFile (String.ofList path))
  catch e => return .blocked (obstacleOf e)

instance : Host IO where
  readInput := readStandardInput
  readFile path :=
    if standardInputNames.contains (String.ofList path) then readStandardInput else readSource path
  isFile path := do
    if standardInputNames.contains (String.ofList path) then return false
    return (← readSource path).isFile
  writeFile path content := do
    try
      IO.FS.writeFile (String.ofList path) (String.ofList content)
      return .ok ()
    catch e => return .error (obstacleOf e).reason
  print t := IO.print (String.ofList t)
  printError t := IO.eprint (String.ofList t)

/-- Runs the command line and ends with its status. -/
def execute (arguments : List Text) : IO UInt32 := do
  return (← run arguments).toUInt32

end MathEdit.Command

/-- The program. -/
def main (arguments : List String) : IO UInt32 :=
  MathEdit.Command.execute (arguments.map String.toList)
