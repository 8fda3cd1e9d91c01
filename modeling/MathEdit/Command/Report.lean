import MathEdit.Json
import MathEdit.References
import MathEdit.Region
import MathEdit.Script

/-! # Results in JSON

The command line prints its results as JSON. Each kind of result has one function here that fixes
its members and their order.
-/

namespace MathEdit

/-- The name of a kind of delimiters. -/
def Delimiters.typeName : Delimiters → String
  | displayDollar => "displayDollar"
  | inlineDollar => "inlineDollar"
  | displayBracket => "displayBracket"
  | inlineParen => "inlineParen"
  | environment _ => "environment"

/-- The name of an environment as a member, if the delimiters have one. -/
def Delimiters.nameMember : Delimiters → List (String × Json Text)
  | environment name => [("name", .string name)]
  | _ => []

/-- Delimiters: their type before their name. -/
def Delimiters.toJson (d : Delimiters) : Json Text :=
  .record (("type", .string d.typeName.toList) :: d.nameMember)

/-- A region: its place, its text and its delimiters. -/
def Region.toJson (r : Region) : Json Text :=
  .record [("startOffset", .nat r.start), ("endOffset", .nat r.stop), ("text", .string r.text),
    ("kind", r.delimiters.toJson)]

/-- A region with its members in alphabetical order, as part of a list of stops. -/
def Region.toSortedJson (r : Region) : Json Text :=
  .record [("endOffset", .nat r.stop),
    ("kind", .record (r.delimiters.nameMember ++ [("type", .string r.delimiters.typeName.toList)])),
    ("startOffset", .nat r.start), ("text", .string r.text)]

/-- A list of offsets. -/
def offsetsJson (offsets : List Nat) : Json Text := .array (offsets.map .nat)

/-- The stops of a document, and of the region they are in, if there is one. -/
def stopsJson (offsets : List Nat) (region : Option Region) : Json Text :=
  .record (("points", offsetsJson offsets) ::
    region.toList.map fun r => ("region", r.toSortedJson))

/-- A script: where it is, what it holds and how it is braced. -/
def Script.toJson (s : Script) : Json Text :=
  .record [("markerPosition", .nat s.marker), ("content", .string s.content),
    ("replacementRange", offsetsJson [s.start, s.stop]), ("replacement", .string s.braced),
    ("cursor", .nat s.cursor)]

/-- The name of a kind of token, and the value that goes with it. -/
def Token.Kind.describe : Token.Kind → String × Option Text
  | opening .brace => ("OpenBrace", none)
  | closing .brace => ("CloseBrace", none)
  | opening .bracket => ("OpenBracket", none)
  | closing .bracket => ("CloseBracket", none)
  | opening .paren => ("OpenParen", none)
  | closing .paren => ("CloseParen", none)
  | opening (.environment name) => ("BeginEnv", some name)
  | closing (.environment name) => ("EndEnv", some name)
  | opening .delimiter => ("LeftDelim", none)
  | closing .delimiter => ("RightDelim", none)
  | operator sign => ("Operator", some [sign])
  | script marker => ("Script", some [marker])
  | command name => ("Command", some name)
  | escaped character => ("Escaped", some [character])
  | dollar => ("Dollar", none)
  | plain => ("Text", none)
  | blank => ("Whitespace", none)
  | comment => ("Comment", none)

/-- A token: its kind and its place. -/
def Token.toJson (t : Token) : Json Text :=
  let (kind, value) := t.kind.describe
  .record ([("kind", .string kind.toList)] ++
    value.toList.map (fun v => ("value", .string v)) ++
    [("position", .nat t.position), ("len", .nat t.len), ("depth", .integer t.counter)])

/-- The name of a kind of node. -/
def ReferenceKind.name : ReferenceKind → String
  | .section => "section"
  | .equation => "equation"
  | .figure => "figure"
  | .generic => "generic"

/-- A node of a reference graph. -/
def ReferenceNode.toJson (n : ReferenceNode) : Json Text :=
  .record [("id", .string n.id), ("label", .string n.label), ("type", .string n.kind.name.toList),
    ("line", .nat n.line), ("content", .string n.content), ("refCount", .nat n.refCount)]

/-- An edge of a reference graph. -/
def ReferenceEdge.toJson (e : ReferenceEdge) : Json Text :=
  .record [("from", .string e.source), ("to", .string e.target)]

/-- A reference graph: its nodes before its edges. -/
def ReferenceGraph.toJson (g : ReferenceGraph) : Json Text :=
  .record [("nodes", .array (g.nodes.map ReferenceNode.toJson)),
    ("edges", .array (g.edges.map ReferenceEdge.toJson))]

end MathEdit
