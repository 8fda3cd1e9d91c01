import MathEdit.Ascending
import MathEdit.Region
import MathEdit.Token.Scan

/-! # Structural stops

The stops of a piece of math are the offsets where a cursor that moves by structure comes to rest:
the two ends, the inner ends of the delimiters, the slots after opening brackets, both sides of a
script, the operators and row breaks with the space after them, the commands that do not wrap an
argument, and the ends of escaped brackets. `stops` lists them in ascending order; `nextStop?` and
`previousStop?` search such a list.
-/

namespace MathEdit

/-- The commands whose arguments are the stops, and not the command. -/
def wrappingCommands : List Text :=
  ["frac", "sqrt", "int", "sum", "prod", "lim", "vec", "bar", "hat", "tilde", "dot", "ddot", "sin",
    "cos", "tan", "log", "ln"].map String.toList

/-- Whether a command wraps its arguments: its name begins with a wrapping command. -/
def isWrapping (name : Text) : Bool := wrappingCommands.any (·.isPrefixOf name)

namespace Token

/-- The stops of a script marker before the text `next`. A bracket has its slot, and a command or a
space is left alone, but any other character is passed as a whole. -/
def scriptStops (t : Token) (next : Text) : List Nat :=
  match next with
  | [] => [t.stop]
  | c :: _ =>
      if c = '{' || c = '[' || c = '(' then []
      else if Text.isBlank c || c = '\\' then [t.stop]
      else [t.stop, t.stop + c.utf8Size]

/-- The stops of an operator before the text `next`: the operator, and the end of the space after
it. -/
def operatorStops (t : Token) (next : Text) : List Nat :=
  [t.position, t.stop + Text.width (next.takeWhile Text.isBlank)]

/-- The stops of a token, where `next` is the source text of the token after it. -/
def stops (t : Token) (next : Text) : List Nat :=
  match t.kind with
  | .opening .brace | .opening .bracket | .opening .paren => [t.stop]
  | .script _ => t.scriptStops next
  | .operator _ => t.operatorStops next
  | .escaped c =>
      if c = '\\' then t.operatorStops next
      else if c = '{' || c = '}' || c = '[' || c = ']' then [t.stop]
      else []
  | .command name => if isWrapping name then [] else [t.position]
  | _ => []

/-- The stops of a run of tokens. -/
def allStops : List Token → List Nat
  | [] => []
  | t :: ts => t.stops (match ts with | [] => [] | next :: _ => next.text) ++ allStops ts

end Token

/-- The inner ends of the outermost environment: the end of an opening tag that comes first and the
start of a closing tag that comes last, space apart. -/
def environmentStops (ts : List Token) : List Nat :=
  match ts.filter (!·.isBlank) with
  | [] => []
  | first :: rest =>
      match first.kind with
      | .opening (.environment _) =>
          first.stop ::
            match rest.getLast? with
            | some last =>
                match last.kind with
                | .closing (.environment _) => [last.position]
                | _ => []
            | none => []
      | _ => []

/-- The delimiters that are written with fixed signs, two dollars before one. -/
def Delimiters.signs : List Delimiters :=
  [.displayDollar, .inlineDollar, .displayBracket, .inlineParen]

/-- The inner ends of the delimiters of a text, or of the environment it consists of. -/
def delimiterStops (t : Text) : List Nat :=
  match Delimiters.signs.find? fun d => d.opening.isPrefixOf t with
  | some d =>
      let opened := Text.width d.opening
      let closed := Text.width d.closing
      opened ::
        if opened + closed ≤ Text.width t && d.closing.isSuffixOf t then [Text.width t - closed]
        else []
  | none => environmentStops (scan t)

/-- The stops of a text in ascending order. -/
def stops (t : Text) : List Nat :=
  Ascending.ofList ([0, Text.width t] ++ delimiterStops t ++ Token.allStops (scan t))

/-! ## Stops lie in the text -/

/-- The stops of a token are no further than the end of the next one. -/
theorem Token.le_of_mem_stops {t : Token} {next : Text} {p : Nat} (h : p ∈ t.stops next) :
    p ≤ t.stop + Text.width next := by
  have hle := t.position_le_stop
  have operator (h : p ∈ t.operatorStops next) : p ≤ t.stop + Text.width next := by
    have hn := congrArg Text.width (List.takeWhile_append_dropWhile (p := Text.isBlank) (l := next))
    simp only [Text.width, Text.measure_append] at hn
    simp only [operatorStops, List.mem_cons, List.not_mem_nil, or_false, Text.width] at h
    rcases h with rfl | rfl <;> simp only [Text.width] <;> omega
  have script (h : p ∈ t.scriptStops next) : p ≤ t.stop + Text.width next := by
    unfold scriptStops at h
    split at h
    · simp only [List.mem_singleton] at h
      omega
    · repeat' split at h
      all_goals simp at h
      · omega
      · simp only [Text.width, Text.measure_cons]
        omega
  unfold stops at h
  repeat' split at h
  all_goals first
    | exact operator h
    | exact script h
    | simp at h <;> omega

/-- Those of a run are not behind its text. -/
theorem Token.le_of_mem_allStops {position : Nat} {depth : Int} {ls : List Lexeme} {p : Nat}
    (h : p ∈ allStops (place position depth ls)) :
    p ≤ position + Text.width (Lexeme.join ls) := by
  induction ls generalizing position depth with
  | nil => simp [allStops] at h
  | cons l ls ih =>
      simp only [place, allStops, List.mem_append] at h
      simp only [Lexeme.join, List.flatMap_cons, Text.width, Text.measure_append] at *
      rcases h with h | h
      · have := le_of_mem_stops h
        cases ls with
        | nil => simpa [place, stop, len, Text.width] using this
        | cons m ms =>
            simp only [place, stop, len, Text.width, List.flatMap_cons,
              Text.measure_append] at this ⊢
            omega
      · have := ih h
        omega

/-- Nor are the inner ends of an environment. -/
theorem le_of_mem_environmentStops {t : Text} {p : Nat} (h : p ∈ environmentStops (scan t)) :
    p ≤ Text.width t := by
  have bound {k : Token} (h : k ∈ (scan t).filter (!·.isBlank)) : k.stop ≤ Text.width t := by
    simpa using Token.stop_le_of_mem_place (List.mem_filter.1 h).1
  unfold environmentStops at h
  split at h
  · simp at h
  · next first rest hts =>
      rw [hts] at bound
      split at h
      · simp only [List.mem_cons] at h
        rcases h with rfl | h
        · exact bound List.mem_cons_self
        · split at h
          · next last hl =>
              split at h
              · simp only [List.mem_singleton] at h
                have := bound (List.mem_cons_of_mem _ (List.mem_of_getLast? hl))
                have := last.position_le_stop
                omega
              · simp at h
          · simp at h
      · simp at h

/-- Nor are those of delimiters. -/
theorem le_of_mem_delimiterStops {t : Text} {p : Nat} (h : p ∈ delimiterStops t) :
    p ≤ Text.width t := by
  unfold delimiterStops at h
  split at h
  · next d hd =>
      have hp : d.opening.isPrefixOf t = true := by simpa using List.find?_some hd
      obtain ⟨rest, rfl⟩ := List.isPrefixOf_iff_prefix.1 hp
      simp only [List.mem_cons] at h
      rcases h with rfl | h
      · simp [Text.width]
      · split at h
        · simp only [List.mem_singleton] at h
          omega
        · simp at h
  · exact le_of_mem_environmentStops h

/-- The stops of a text are its two ends, those of its delimiters and those of its tokens. -/
theorem mem_stops_iff {t : Text} {p : Nat} : p ∈ stops t ↔
    p = 0 ∨ p = Text.width t ∨ p ∈ delimiterStops t ∨ p ∈ Token.allStops (scan t) := by
  simp only [stops, Ascending.mem_ofList, List.mem_append, List.mem_cons, List.not_mem_nil,
    or_false, or_assoc]

/-- No stop lies past the end of the text. -/
theorem le_of_mem_stops {t : Text} {p : Nat} (h : p ∈ stops t) : p ≤ Text.width t := by
  rcases mem_stops_iff.1 h with rfl | rfl | h | h
  · exact Nat.zero_le _
  · exact Nat.le_refl _
  · exact le_of_mem_delimiterStops h
  · simpa using Token.le_of_mem_allStops h

/-! ## Moving along the stops -/

/-- The first stop in a list that lies after an offset. -/
def nextStop? (stops : List Nat) (offset : Nat) : Option Nat := stops.find? (offset < ·)

/-- The last stop in a list that lies before an offset. -/
def previousStop? (stops : List Nat) (offset : Nat) : Option Nat := stops.reverse.find? (· < offset)

end MathEdit
