import MathEdit.Position

/-! # Requests on the command line

A command line asks for one `Action`, with options before and after its name. `Request.ofArguments?`
reads it, and has no result for a command line that is not understood: an unknown action or option,
an option given twice, a missing or superfluous operand, a value that is no number in range, or a
cursor that is not named in one way. A command line that asks for help is not among those that are
understood.

Arguments are first sorted into `Piece`s, options and operands. An option takes its value after `=`
or from the next argument, which must not look like an option, and after `--` all arguments are
operands.
-/

namespace MathEdit

/-- What a command line asks for. A document is named by its path, or by `-` for standard input. -/
inductive Action where
  /-- The math around the cursor. -/
  | locate (path : Text) (cursor : Option Position)
  /-- The stops of the math around the cursor, or of the whole document. -/
  | jumps (path : Text) (cursor : Option Position)
  /-- The equation around the cursor, or the whole document, split into rows. -/
  | split (path : Text) (cursor : Option Position) (inPlace : Bool)
  /-- The script in a line that the character before `stop`, or else the last one, belongs to. -/
  | brace (line : Text) (stop : Option Nat)
  /-- The tokens of a document. -/
  | tokens (path : Text)
  /-- The labels and references of a document. -/
  | refs (path : Text)
  deriving DecidableEq, Repr

/-- An action, where its configuration is, and whether to log what is done. -/
structure Request where
  /-- The path of the configuration file, if one is named. -/
  config : Option Text
  /-- Whether the command is to log what it does, on the error stream. -/
  verbose : Bool
  action : Action
  deriving DecidableEq, Repr

namespace Request

/-! ## Options and operands -/

/-- The options that are understood: those with a value, and those without. -/
structure Options where
  valued : List Text
  flags : List Text
  deriving DecidableEq, Repr

/-- The options of every command line. -/
def Options.everywhere : Options := ⟨["config".toList], ["verbose".toList]⟩

/-- Adds options to those of every command line. -/
def Options.with (valued flags : List String) : Options :=
  ⟨Options.everywhere.valued ++ valued.map String.toList,
    Options.everywhere.flags ++ flags.map String.toList⟩

/-- An option or an operand. -/
inductive Piece where
  | flag (name : Text)
  | valued (name value : Text)
  | operand (value : Text)
  deriving DecidableEq, Repr

/-- Whether an argument is an option: it begins with a dash and is more than that. -/
def looksLikeOption (argument : Text) : Bool := argument.head? = some '-' && argument ≠ ['-']

/-- What an argument that looks like an option is: some pieces, or an option whose value is the next
argument. -/
inductive OptionForm where
  | pieces (ps : List Piece)
  | needsValue (name : Text)
  deriving DecidableEq, Repr

/-- Takes an option apart. The only short option is `-v`. -/
def optionForm? (options : Options) (argument : Text) : Option OptionForm :=
  match argument with
  | '-' :: '-' :: long =>
      let name := long.takeWhile (· ≠ '=')
      match long.dropWhile (· ≠ '=') with
      | _ :: value =>
          if options.valued.contains name then some (.pieces [.valued name value]) else none
      | [] =>
          if options.flags.contains name then some (.pieces [.flag name])
          else if options.valued.contains name then some (.needsValue name)
          else none
  | _ :: letters =>
      if letters.all (· = 'v') then some (.pieces (letters.map fun _ => .flag "verbose".toList))
      else none
  | [] => none

/-- The pieces of a list of arguments, where `pending` is an option that waits for its value. -/
def pieces? (options : Options) : (pending : Option Text) → List Text → Option (List Piece)
  | none, [] => some []
  | some _, [] => none
  | some name, value :: arguments =>
      if looksLikeOption value then none
      else (pieces? options none arguments).map (.valued name value :: ·)
  | none, argument :: arguments =>
      if argument = ['-', '-'] then some (arguments.map .operand)
      else if looksLikeOption argument then
        match optionForm? options argument with
        | some (.pieces ps) => (pieces? options none arguments).map (ps ++ ·)
        | some (.needsValue name) => pieces? options (some name) arguments
        | none => none
      else (pieces? options none arguments).map (.operand argument :: ·)

/-- The pieces before the name of an action, the name, and the arguments after it. -/
def splitAction? : (pending : Option Text) → List Text → Option (List Piece × Text × List Text)
  | _, [] => none
  | some name, value :: arguments =>
      if looksLikeOption value then none
      else (splitAction? none arguments).map fun (ps, rest) => (.valued name value :: ps, rest)
  | none, argument :: arguments =>
      if argument = ['-', '-'] then none
      else if looksLikeOption argument then
        match optionForm? .everywhere argument with
        | some (.pieces ps) => (splitAction? none arguments).map fun (qs, rest) => (ps ++ qs, rest)
        | some (.needsValue name) => splitAction? (some name) arguments
        | none => none
      else some ([], argument, arguments)

/-! ## Looking pieces up -/

/-- The name of an option. -/
def Piece.name? : Piece → Option Text
  | flag name | valued name _ => some name
  | operand _ => none

/-- Whether no option is given twice. -/
def noRepetition (ps : List Piece) : Bool := (ps.filterMap Piece.name?).Nodup

/-- Whether an option without a value is given. -/
def hasFlag (name : String) (ps : List Piece) : Bool := Piece.flag name.toList ∈ ps

/-- The value of an option. -/
def value? (name : String) (ps : List Piece) : Option Text :=
  ps.findSome? fun
    | .valued n value => if n = name.toList then some value else none
    | _ => none

/-- The operands. -/
def operands (ps : List Piece) : List Text :=
  ps.filterMap fun
    | .operand value => some value
    | _ => none

/-- The value of an option as read by `read`: a missing option has none, and a value that is not
understood refuses the command line. -/
def optional? {α : Type} (name : String) (read : Text → Option α) (ps : List Piece) :
    Option (Option α) :=
  match value? name ps with
  | none => some none
  | some value => (read value).map some

/-! ## Values -/

/-- A path, which is not empty. -/
def path? (value : Text) : Option Text := if value = [] then none else some value

/-- The number that decimal digits spell, of which there must be one. -/
def digits? (value : Text) : Option Nat :=
  if value ≠ [] ∧ value.all Char.isDigit then
    some (value.foldl (fun n c => 10 * n + (c.toNat - '0'.toNat)) 0)
  else none

/-- A natural number below `bound`, with an optional plus sign. -/
def natural? (bound : Nat) (value : Text) : Option Nat :=
  let digits := match value with
    | '+' :: ds => ds
    | ds => ds
  (digits? digits).filter (· < bound)

/-- An offset, of at most 64 bits. -/
def offset? : Text → Option Nat := natural? UInt64.size

/-- A line or column, of at most 32 bits. Minus zero is zero. -/
def coordinate? : Text → Option Nat
  | '-' :: ds => (digits? ds).filter (· = 0)
  | value => natural? UInt32.size value

/-- The cursor: none, an offset, or a line together with a column. -/
def cursor? (ps : List Piece) : Option (Option Position) := do
  let e : Encoding := if hasFlag "utf16" ps then .utf16 else .utf8
  match ← optional? "offset" offset? ps, ← optional? "line" coordinate? ps,
    ← optional? "column" coordinate? ps with
  | none, none, none => some none
  | some units, none, none => some (some (.offset e units))
  | none, some line, some col => some (some (.lineCol e line col))
  | _, _, _ => none

/-! ## Actions -/

/-- The options of a cursor. -/
def cursorOptions : List String := ["offset", "line", "column"]

/-- The names of the actions. -/
inductive Verb where
  | locate
  | jumps
  | split
  | brace
  | tokens
  | refs
  deriving DecidableEq, Repr

/-- The action of a name. -/
def Verb.ofName? (name : Text) : Option Verb :=
  if name = "locate".toList then some .locate
  else if name = "jumps".toList then some .jumps
  else if name = "split".toList then some .split
  else if name = "brace".toList then some .brace
  else if name = "tokens".toList then some .tokens
  else if name = "refs".toList then some .refs
  else none

/-- The options of an action. -/
def Verb.options : Verb → Options
  | locate | jumps => .with cursorOptions ["utf16"]
  | split => .with cursorOptions ["utf16", "in-place"]
  | brace => .with ["end"] []
  | tokens | refs => .everywhere

/-- The action with its operand and options. -/
def Verb.action? (verb : Verb) (operand : Text) (ps : List Piece) : Option Action :=
  match verb with
  | locate => do return .locate (← path? operand) (← cursor? ps)
  | jumps => do return .jumps (← path? operand) (← cursor? ps)
  | split => do return .split (← path? operand) (← cursor? ps) (hasFlag "in-place" ps)
  | brace => do return .brace operand (← optional? "end" offset? ps)
  | tokens => do return .tokens (← path? operand)
  | refs => do return .refs (← path? operand)

/-- The request that a list of arguments makes. A configuration that is named after the action goes
before one that is named before it. -/
def ofArguments? (arguments : List Text) : Option Request := do
  let (before, name, rest) ← splitAction? none arguments
  let verb ← Verb.ofName? name
  let after ← pieces? verb.options none rest
  match noRepetition before && noRepetition after, operands after with
  | true, [operand] =>
      let outer ← optional? "config" path? before
      let inner ← optional? "config" path? after
      let verbose := hasFlag "verbose" before || hasFlag "verbose" after
      return ⟨inner.or outer, verbose, ← verb.action? operand after⟩
  | _, _ => none

end Request

end MathEdit
