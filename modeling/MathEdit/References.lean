import MathEdit.Environment
import MathEdit.References.Table
import MathEdit.Text.LetterCase
import MathEdit.Token.Scan

/-! # Labels and references

The `ReferenceGraph` of a document has a node for every section heading and every `\label`, and an
edge for every `\ref`, from the node that owns the place of the reference to the node it names.
Inside an environment that carries a number the owner is the last label of the environment;
elsewhere it is the last label since the section heading, or else the heading.

The document is read line by line, with comments left out. `Survey` is what has been seen so far,
`Survey.readLine` reads one more line, and `ReferenceGraph.ofText` reads them all.
-/

namespace MathEdit

/-! ## Tags with an argument -/

/-- A command with an argument in braces: how it may be spelled before the brace. -/
structure Tag where
  spellings : List Text
  deriving DecidableEq, Repr

namespace Tag

/-- The tag `\label` of a place that can be referred to. -/
def label : Tag := ⟨["\\label".toList]⟩

/-- The tag `\ref` of a reference. -/
def ref : Tag := ⟨["\\ref".toList]⟩

/-- The section headings of three levels, starred or not. -/
def heading : Tag :=
  ⟨["\\section", "\\subsection", "\\subsubsection", "\\section*", "\\subsection*",
    "\\subsubsection*"].map String.toList⟩

/-- The argument `{argument}` at the front of a text, and the text after it. It is not empty and
ends at the first closing brace. -/
def argument? : Text → Option (Text × Text)
  | '{' :: t =>
      match t.takeWhile (· ≠ '}'), t.dropWhile (· ≠ '}') with
      | [], _ => none
      | argument, _ :: rest => some (argument, rest)
      | _, [] => none
  | _ => none

/-- The argument of the tag at the front of a text, and the text after the tag. -/
def read? (tag : Tag) (t : Text) : Option (Text × Text) :=
  tag.spellings.findSome? fun spelling => (Text.dropPrefix? spelling t).bind argument?

/-- An argument takes its braces at least, so less is left. -/
theorem length_of_argument? {t argument rest : Text} (h : argument? t = some (argument, rest)) :
    rest.length < t.length := by
  unfold argument? at h
  split at h
  · next t =>
      split at h
      · simp at h
      · next hd _ =>
          have := (List.dropWhile_sublist (fun c => decide (c ≠ '}')) (l := t)).length_le
          obtain ⟨rfl, rfl⟩ := Prod.mk.inj (Option.some.inj h)
          rw [hd] at this
          simp only [List.length_cons] at *
          omega
      · simp at h
  · simp at h

/-- Reading a tag takes something off the text. -/
theorem length_of_read? {tag : Tag} {t argument rest : Text}
    (h : tag.read? t = some (argument, rest)) : rest.length < t.length := by
  obtain ⟨spelling, -, hs⟩ := List.exists_of_findSome?_eq_some h
  obtain ⟨u, hu, ha⟩ := Option.bind_eq_some_iff.1 hs
  have := length_of_argument? ha
  rw [Text.eq_append_of_dropPrefix? hu, List.length_append]
  omega

/-- The arguments of a tag in a text, from left to right and without overlap. -/
def arguments (tag : Tag) (t : Text) : List Text :=
  match t with
  | [] => []
  | c :: t =>
      match _h : tag.read? (c :: t) with
      | some (argument, rest) => argument :: arguments tag rest
      | none => arguments tag t
termination_by t.length
decreasing_by
  · exact length_of_read? _h
  · simp

end Tag

/-- The environments that carry a number. -/
def numberedEnvironments : List Text :=
  ["equation", "align", "gather", "split", "multline", "figure", "table"].map String.toList

/-- The names of the numbered environments, each also with a star. -/
def numberedNames : List Text := numberedEnvironments.flatMap fun name => [name, name ++ ['*']]

/-- The texts after each occurrence of any of the given texts. -/
def textsAfter (patterns : List Text) : Text → List Text
  | [] => []
  | c :: t =>
      (patterns.filterMap (Text.dropPrefix? · (c :: t))) ++ textsAfter patterns t

/-- The texts after the opening tags of numbered environments. -/
def afterOpenings (code : Text) : List Text :=
  textsAfter (numberedNames.map Environment.openingTag) code

/-- Whether a text has the closing tag of a numbered environment. -/
def hasClosing (code : Text) : Bool :=
  textsAfter (numberedNames.map Environment.closingTag) code ≠ []

/-! ## The graph -/

/-- The labels and references of a document. -/
structure ReferenceGraph where
  /-- In the order in which they are first defined. -/
  nodes : List ReferenceNode
  edges : List ReferenceEdge
  deriving DecidableEq, Repr

/-- The node with an identifier. -/
def ReferenceGraph.node? (g : ReferenceGraph) (id : Text) : Option ReferenceNode :=
  g.nodes.find? (·.id = id)

/-! ## Reading a document -/

/-- A numbered environment that has not ended: its lines and the labels in it, in order. -/
structure OpenEnvironment where
  lines : List Text
  labels : List Text
  deriving DecidableEq, Repr

/-- What has been seen of a document: the nodes and edges so far, and what may own the next
references. -/
structure Survey extends NodeTable, EdgeLog where
  /-- The identifier of the last section heading. -/
  heading : Option Text
  /-- The last label outside of a numbered environment, or the last one of such an environment,
  since the heading. -/
  label : Option Text
  environment : Option OpenEnvironment
  deriving DecidableEq, Repr

namespace Survey

/-- Nothing seen yet. -/
def empty : Survey := { NodeTable.empty, EdgeLog.empty with
  heading := none, label := none, environment := none }

/-- Adds a node at the end, or puts it in the place of the node with its identifier. -/
def define (s : Survey) (node : ReferenceNode) : Survey :=
  { s with toNodeTable := s.toNodeTable.upsert node }

/-- The identifier of a section. -/
def sectionId (title : Text) : Text :=
  "sec:".toList ++ (Text.lowercase title).map fun c => if c = ' ' then '_' else c

/-- Reads the first section heading of a line. A title that has occurred before adds no node. -/
def readHeading (s : Survey) (number : Nat) (code : Text) : Survey :=
  match (Tag.heading.arguments code).head? with
  | none => s
  | some title =>
      let id := sectionId title
      let s :=
        if s.contains id then s
        else s.define ⟨id, title, .section, number, "\\section".toList ++ '{' :: title ++ ['}'], 0⟩
      { s with heading := some id, label := none }

/-- Ends the open environment: its labels have all of it as their content, and the last of them owns
what follows. -/
def closeEnvironment (s : Survey) (e : OpenEnvironment) : Survey :=
  let content := Text.trim (['\n'].intercalate e.lines)
  { s with
    toNodeTable := e.labels.foldl (·.setContent content) s.toNodeTable
    label := e.labels.getLast?.or s.label
    environment := none }

/-- Reads the tags of numbered environments in a line. An environment that ends on the line where it
begins is passed over. Inside an environment only closing tags are looked for, and any of them ends
it. -/
def readEnvironment (s : Survey) (line code : Text) : Survey :=
  match s.environment with
  | none =>
      match afterOpenings code with
      | [] => s
      | rest :: _ => if hasClosing rest then s else { s with environment := some ⟨[line], []⟩ }
  | some e =>
      let e := { e with lines := e.lines ++ [line] }
      if hasClosing code then s.closeEnvironment e else { s with environment := some e }

/-- Reads a label of a line. -/
def readLabel (number : Nat) (line : Text) (s : Survey) (label : Text) : Survey :=
  let s := s.define ⟨label, label, .ofLabel label, number, Text.trim line, 0⟩
  match s.environment with
  | some e => { s with environment := some { e with labels := e.labels ++ [label] } }
  | none => { s with label := some label }

/-- The owner of the references of a line. -/
def owner (s : Survey) : Option Text :=
  (s.environment.bind (·.labels.getLast?)).or (s.label.or s.heading)

/-- Reads a reference of a line. A label does not refer to itself. -/
def readReference (s : Survey) (target : Text) : Survey :=
  match s.owner with
  | some source =>
      if source = target then s
      else { s with toEdgeLog := s.toEdgeLog.push ⟨source, target⟩ }
  | none => s

/-- A line without its comment. -/
def stripComment (line : Text) : Text :=
  Lexeme.join ((lex line).takeWhile fun l => l.kind ≠ .comment)

/-- Reads one line: its heading, its environments, its labels, and its references. -/
def readLine (s : Survey) (number : Nat) (line : Text) : Survey :=
  let code := stripComment line
  let s := (s.readHeading number code).readEnvironment line code
  let s := (Tag.label.arguments code).foldl (readLabel number line) s
  (Tag.ref.arguments code).foldl readReference s

/-- The graph of what has been seen. References to nothing are dropped. -/
def toGraph (s : Survey) : ReferenceGraph where
  nodes := s.nodes.map fun n => { n with refCount := s.refCount n.id }
  edges := s.edges.filter fun e => s.contains e.target

end Survey

/-- The lines of a text. A carriage return before the line feed is part of the line end, and there
is no line after the last line end. -/
def Text.lines (t : Text) : List Text :=
  let pieces := t.splitOn '\n'
  let ended := pieces.dropLast.map fun l => if l.getLast? = some '\r' then l.dropLast else l
  match pieces.getLast? with
  | some [] | none => ended
  | some last => ended ++ [last]

/-- The labels and references of a document. -/
def ReferenceGraph.ofText (t : Text) : ReferenceGraph :=
  (t.lines.zipIdx 1).foldl (fun s (line, number) => s.readLine number line) Survey.empty |>.toGraph

end MathEdit
