import MathEdit.Proofs.References.Environments
import MathEdit.Proofs.References.Integrity
import MathEdit.Proofs.Text.Lines

/-! # The contents of labels

A label has its own line as its content, or else the environment around it. `Survey.readLine` does
this in two steps: a definition writes the line, and the end of an environment writes all of it to
the labels in it. Here the two are followed through a document, one equation for each operation on
the node of one identifier, and one on the open environment, which depends on the lines alone.

* **`ReferenceGraph.content_of_lines_eq`**: the content of any label is what `contentLines` makes up
  at its last definition.
* **`ReferenceGraph.content_eq_environment_iff`**: in an outermost environment this is the whole
  environment exactly if no other tags stand in it and the label comes before its last line.
-/

namespace MathEdit

/-- The environment that has been open since the first of some lines. -/
def OpenEnvironment.ofLines (lines : List Text) : OpenEnvironment :=
  ⟨lines, lines.flatMap labelsOf⟩

namespace Survey

variable {s : Survey} {line code content x : Text} {number : Nat} {n node : ReferenceNode}
  {labels targets : List Text} {opened : Option (List Text)} {lines : List Text}
  {numbered : List (Text × Nat)}

/-- The content of the node with an identifier. -/
def content? (s : Survey) (x : Text) : Option Text := (s.nodes.find? (·.id = x)).map (·.content)

/-- Nodes that keep their identifiers are found as before. -/
theorem find?_map_of_id {f : ReferenceNode → ReferenceNode} (hf : ∀ n, (f n).id = n.id)
    (nodes : List ReferenceNode) (x : Text) :
    (nodes.map f).find? (·.id = x) = (nodes.find? (·.id = x)).map f := by
  rw [List.find?_map]
  simp only [Function.comp_def, hf]

/-! ## One line -/

/-- The node with an identifier. -/
def node? (s : Survey) (x : Text) : Option ReferenceNode := s.nodes.find? (·.id = x)

/-- Exactly the identifiers of the survey have nodes. -/
theorem node?_eq_none_iff : s.node? x = none ↔ x ∉ s.ids := by
  simp [node?, NodeTable.ids]

/-- A node is found by its own identifier. -/
theorem id_of_node? (h : s.node? x = some n) : n.id = x := by
  simpa using List.find?_some h

/-- A definition is the last word on its identifier and says nothing of others. -/
theorem node?_define :
    (s.define node).node? x = if node.id = x then some node else s.node? x := by
  have hnodes : (s.define node).nodes =
      if node.id ∈ s.ids then s.nodes.map fun n => if n.id = node.id then node else n
      else s.nodes ++ [node] := NodeTable.nodes_upsert
  rw [node?, hnodes]
  split
  · -- the node takes the place of an earlier one, so `x` is found where it was
    next hmem =>
      rw [find?_map_of_id (fun n => by split <;> simp_all), ← node?]
      cases hfind : s.node? x with
      | none =>
          have hid : node.id ≠ x := by
            rintro rfl
            exact node?_eq_none_iff.1 hfind hmem
          simp [hid]
      | some n =>
          simp only [Option.map_some, id_of_node? hfind, eq_comm (a := x)]
          split <;> rfl
  · -- the node comes last, and no earlier one has its identifier
    next hmem =>
      rw [List.find?_append, ← node?]
      split
      · next hid =>
          have hnone : s.node? x = none := node?_eq_none_iff.2 (hid ▸ hmem)
          simp [hnone, hid]
      · next hid => simp [hid]

/-- A heading adds a node or none, and leaves the others alone. -/
theorem node?_readHeading (h : s.node? x = some n) (number : Nat) (code : Text) :
    (s.readHeading number code).node? x = some n := by
  obtain heq | ⟨node, heq⟩ := readHeading_cases s number code
  · rwa [heq]
  · have hx : x ∈ s.ids := by
      by_contra hx
      simp [node?_eq_none_iff.2 hx] at h
    rw [heq]
    by_cases hid : node.id ∈ s.ids
    · rw [if_pos hid]
      exact h
    · -- a section that is new cannot have the identifier of a node that is there
      rw [if_neg hid]
      have hne : node.id ≠ x := fun heq => hid (heq ▸ hx)
      exact (node?_define.trans (if_neg hne)).trans h

/-- The end of an environment gives all of it to its labels. -/
theorem node?_closeEnvironment {e : OpenEnvironment} (h : s.node? x = some n) :
    (s.closeEnvironment e).node? x = some { n with
      content := if x ∈ e.labels then Text.trim (['\n'].intercalate e.lines) else n.content } := by
  obtain rfl := id_of_node? h
  rw [node?, closeEnvironment]
  dsimp only
  rw [NodeTable.nodes_foldl_setContent, find?_map_of_id (fun n => by split <;> rfl), ← node?, h]
  simp only [Option.map_some]
  split <;> rfl

/-- The node of a label, whose content is its line for now. -/
def labelNode (number : Nat) (line label : Text) : ReferenceNode :=
  ⟨label, label, .ofLabel label, number, Text.trim line, 0⟩

/-- A label has the node of its last definition, with its line for the content. -/
theorem node?_readLabel (number : Nat) (line label : Text) :
    (readLabel number line s label).node? x =
      if label = x then some (labelNode number line label) else s.node? x := by
  unfold readLabel
  dsimp only
  split <;> exact node?_define

/-- And it is one of the labels of the open environment. -/
theorem environment_readLabel (number : Nat) (line label : Text) :
    (readLabel number line s label).environment =
      s.environment.map fun e => { e with labels := e.labels ++ [label] } := by
  unfold readLabel
  simp only [environment_define]
  split <;> simp_all

/-- So it is for all labels of a line. -/
theorem node?_readLabels :
    (labels.foldl (readLabel number line) s).node? x =
      if x ∈ labels then some (labelNode number line x) else s.node? x := by
  induction labels generalizing s with
  | nil => simp
  | cons label labels ih =>
      rw [List.foldl_cons, ih, node?_readLabel]
      by_cases hx : label = x
      · simp [hx]
      · simp [hx, Ne.symm hx]

/-- They follow on those that are in the environment already. -/
theorem environment_readLabels :
    (labels.foldl (readLabel number line) s).environment =
      s.environment.map fun e => { e with labels := e.labels ++ labels } := by
  induction labels generalizing s with
  | nil => simp
  | cons label labels ih =>
      rw [List.foldl_cons, ih, environment_readLabel]
      simp [Function.comp_def]

/-- The edge of a reference, from the owner of the line to another identifier. -/
def edge? (s : Survey) (target : Text) : Option ReferenceEdge :=
  s.owner.bind fun source => if source = target then none else some ⟨source, target⟩

/-- A reference adds its edge, if it has one, and changes nothing else. -/
theorem readReference_eq (s : Survey) (target : Text) :
    s.readReference target =
      { s with toEdgeLog := (s.edge? target).toList.foldl .push s.toEdgeLog } := by
  rw [readReference, edge?]
  cases s.owner with
  | none => rfl
  | some source =>
      rw [Option.bind_some]
      dsimp only
      split <;> rfl

/-- References add their edges and change nothing else, so the owner is that of the line. -/
theorem readReferences_eq : targets.foldl readReference s =
    { s with toEdgeLog := (targets.filterMap s.edge?).foldl .push s.toEdgeLog } := by
  induction targets generalizing s with
  | nil => rfl
  | cons target targets ih =>
      have hedge : (s.readReference target).edge? = s.edge? := by
        rw [readReference_eq]
        rfl
      rw [List.foldl_cons, ih, hedge, readReference_eq, List.filterMap_cons]
      cases s.edge? target <;> rfl

/-- A heading stands inside or outside of an environment. -/
theorem environment_readHeading (number : Nat) (code : Text) :
    (s.readHeading number code).environment = s.environment := by
  obtain heq | ⟨node, heq⟩ := readHeading_cases s number code
  · rw [heq]
  · rw [heq]
    split <;> rfl

/-- Outside of environments a line may open one. -/
theorem readEnvironment_of_none (h : s.environment = none) (line : Text) :
    s.readEnvironment line (stripComment line) =
      if opens line then { s with environment := some ⟨[line], []⟩ } else s := by
  rw [readEnvironment, h, opens]
  cases afterOpenings (stripComment line) with
  | nil => rfl
  | cons rest _ => cases hclosing : hasClosing rest <;> simp [hclosing]

/-- In an environment a line may end it, and else becomes one of its lines. -/
theorem readEnvironment_of_some {e : OpenEnvironment} (h : s.environment = some e) (line : Text) :
    s.readEnvironment line (stripComment line) =
      if closes line then s.closeEnvironment { e with lines := e.lines ++ [line] }
      else { s with environment := some { e with lines := e.lines ++ [line] } } := by
  simp only [readEnvironment, h]
  rfl

/-- Reading a line, except for its references. -/
theorem readLine_eq (s : Survey) (number : Nat) (line : Text) : ∃ log, s.readLine number line =
    { (labelsOf line).foldl (readLabel number line)
        ((s.readHeading number (stripComment line)).readEnvironment line (stripComment line)) with
      toEdgeLog := log } :=
  ⟨_, readReferences_eq⟩

/-- Which environment is open depends on the lines alone. -/
theorem environment_readLine (h : s.environment = opened.map .ofLines) (number : Nat)
    (line : Text) :
    (s.readLine number line).environment = (openAfter opened line).map .ofLines := by
  have hheading := (environment_readHeading number (stripComment line)).trans h
  obtain ⟨log, hlog⟩ := readLine_eq s number line
  rw [hlog]
  -- headings and references leave the environment alone, and labels join it
  refine environment_readLabels.trans ?_
  cases opened with
  | none =>
      rw [readEnvironment_of_none hheading, openAfter]
      split
      · simp [OpenEnvironment.ofLines]
      · simp [hheading]
  | some lines =>
      rw [readEnvironment_of_some hheading, openAfter]
      split
      · simp [closeEnvironment]
      · simp [OpenEnvironment.ofLines]

/-- A label of the line is defined there. -/
theorem node?_readLine_of_mem (hx : x ∈ labelsOf line) (s : Survey) (number : Nat) :
    (s.readLine number line).node? x = some (labelNode number line x) := by
  obtain ⟨log, hlog⟩ := readLine_eq s number line
  rw [hlog]
  exact node?_readLabels.trans (if_pos hx)

/-- Any other label keeps its node, with another content if its environment ends with the line. -/
theorem node?_readLine_of_not_mem (hx : x ∉ labelsOf line) (h : s.node? x = some n)
    (henvironment : s.environment = opened.map .ofLines) (number : Nat) :
    (s.readLine number line).node? x = some { n with
      content := opened.elim n.content fun lines =>
        if closes line ∧ x ∈ lines.flatMap labelsOf then
          Text.trim (['\n'].intercalate (lines ++ [line]))
        else n.content } := by
  have hheading := (environment_readHeading number (stripComment line)).trans henvironment
  have hnode := node?_readHeading h number (stripComment line)
  -- of the four steps of a line, only the end of an environment is left to change the node
  obtain ⟨log, hlog⟩ := readLine_eq s number line
  rw [hlog]
  refine (node?_readLabels.trans (if_neg hx)).trans ?_
  cases opened with
  | none =>
      rw [readEnvironment_of_none hheading]
      split <;> exact hnode
  | some lines =>
      rw [readEnvironment_of_some hheading]
      by_cases hcloses : closes line
      · rw [if_pos hcloses, node?_closeEnvironment hnode]
        simp [hcloses, OpenEnvironment.ofLines]
      · rw [if_neg hcloses, Option.elim_some, if_neg fun hlast => hcloses hlast.1]
        exact hnode

/-- A label of the line has the line as its content for now. -/
theorem content?_readLine_of_mem (hx : x ∈ labelsOf line) (s : Survey) (number : Nat) :
    (s.readLine number line).content? x = some (Text.trim line) :=
  congrArg (Option.map ReferenceNode.content) (node?_readLine_of_mem hx s number)

/-- Any other label keeps its content, unless its environment ends with the line. -/
theorem content?_readLine_of_not_mem (hx : x ∉ labelsOf line) (h : s.content? x = some content)
    (henvironment : s.environment = opened.map .ofLines) (number : Nat) :
    (s.readLine number line).content? x =
      some (opened.elim content fun lines =>
        if closes line ∧ x ∈ lines.flatMap labelsOf then
          Text.trim (['\n'].intercalate (lines ++ [line]))
        else content) := by
  obtain ⟨n, hnode, rfl⟩ := Option.map_eq_some_iff.1 h
  exact congrArg (Option.map ReferenceNode.content)
    (node?_readLine_of_not_mem hx hnode henvironment number)

/-! ## All lines -/

/-- The open environment is the one that the lines of the document lead to. -/
theorem environment_readLines (h : s.environment = opened.map .ofLines)
    (numbered : List (Text × Nat)) :
    (s.readLines numbered).environment =
      ((numbered.map (·.1)).foldl openAfter opened).map .ofLines := by
  induction numbered generalizing s opened with
  | nil => exact h
  | cons l numbered ih =>
      rw [readLines_cons, List.map_cons, List.foldl_cons]
      exact ih (environment_readLine h l.2 l.1)

/-- What is open after the first lines of a document. -/
theorem environment_readLines_zipIdx (lines : List Text) (n : Nat) :
    (empty.readLines (lines.zipIdx n)).environment = (openLines lines).map .ofLines := by
  have hempty : empty.environment = (none : Option (List Text)).map .ofLines := rfl
  rw [environment_readLines hempty, List.zipIdx_map_fst, openLines]

/-- A content is final when its label is not in the open environment and not defined again. -/
theorem content?_readLines_of_not_mem (h : s.content? x = some content)
    (henvironment : s.environment = opened.map .ofLines)
    (hopened : ∀ lines ∈ opened, x ∉ lines.flatMap labelsOf)
    (hx : ∀ l ∈ numbered, x ∉ labelsOf l.1) : (s.readLines numbered).content? x = some content := by
  induction numbered generalizing s opened with
  | nil => exact h
  | cons l numbered ih =>
      have hl : x ∉ labelsOf l.1 := hx l List.mem_cons_self
      rw [readLines_cons]
      refine ih ?_ (environment_readLine henvironment l.2 l.1) ?_ fun m hm => hx m (.tail l hm)
      · rw [content?_readLine_of_not_mem hl h henvironment]
        cases opened with
        | none => rfl
        | some lines => rw [Option.elim_some, if_neg fun hlast => hopened lines rfl hlast.2]
      · exact not_mem_of_openAfter hopened hl

/-- The labels of the open environment get all of it when it ends. -/
theorem content?_readLines_of_mem (h : s.content? x = some content)
    (henvironment : s.environment = (some lines).map .ofLines) (hlines : x ∈ lines.flatMap labelsOf)
    (hx : ∀ l ∈ numbered, x ∉ labelsOf l.1) :
    (s.readLines numbered).content? x =
      some ((untilClosing (numbered.map (·.1))).elim content fun rest =>
        Text.trim (['\n'].intercalate (lines ++ rest))) := by
  induction numbered generalizing s lines with
  | nil => exact h
  | cons l numbered ih =>
      have hl : x ∉ labelsOf l.1 := hx l List.mem_cons_self
      have hrest : ∀ m ∈ numbered, x ∉ labelsOf m.1 := fun m hm => hx m (.tail l hm)
      have hcontent := content?_readLine_of_not_mem hl h henvironment l.2
      have hnext := environment_readLine henvironment l.2 l.1
      rw [readLines_cons, List.map_cons, untilClosing]
      by_cases hcloses : closes l.1
      · -- the environment is written to its labels, and what follows does not touch them
        rw [if_pos hcloses]
        rw [openAfter, if_pos hcloses] at hnext
        rw [Option.elim_some, if_pos ⟨hcloses, hlines⟩] at hcontent
        exact content?_readLines_of_not_mem hcontent hnext (by simp) hrest
      · -- the environment goes on, one line longer
        rw [if_neg hcloses]
        rw [openAfter, if_neg hcloses] at hnext
        rw [Option.elim_some, if_neg fun hlast => hcloses hlast.1] at hcontent
        refine (ih hcontent hnext (by simp [hlines]) hrest).trans ?_
        cases untilClosing (numbered.map (·.1)) <;> simp

/-- The nodes of the graph are those of the survey, with their edges counted. -/
theorem node?_toGraph (s : Survey) (x : Text) :
    s.toGraph.node? x = (s.node? x).map fun n =>
      { n with refCount := s.edges.countP (·.target = n.id) } := by
  dsimp only [ReferenceGraph.node?, toGraph]
  simp only [EdgeLog.refCount_eq]
  rw [List.find?_map]
  rfl

/-- The graph has the contents of the survey. -/
theorem content?_toGraph (s : Survey) (x : Text) :
    (s.toGraph.node? x).map (·.content) = s.content? x := by
  rw [node?_toGraph, Option.map_map]
  rfl

end Survey

/-- The content of a label is made up by `contentLines` at its last definition. -/
theorem ReferenceGraph.content_of_lines_eq {t line x : Text} {before after : List Text}
    (ht : t.lines = before ++ line :: after) (hx : x ∈ labelsOf line)
    (hafter : ∀ l ∈ after, x ∉ labelsOf l) :
    ((ofText t).node? x).map (·.content) =
      some (Text.trim (['\n'].intercalate (contentLines before line after))) := by
  rw [ofText_eq, ht, Survey.readLines_zipIdx_append_cons, Survey.content?_toGraph]
  have hcontent := Survey.content?_readLine_of_mem hx (Survey.empty.readLines (before.zipIdx 1))
    (1 + before.length)
  have hline := Survey.environment_readLine (Survey.environment_readLines_zipIdx before 1)
    (1 + before.length) line
  have hlater : ∀ l ∈ after.zipIdx (1 + before.length + 1), x ∉ labelsOf l.1 := fun l hl =>
    hafter l.1 (List.fst_mem_of_mem_zipIdx hl)
  rw [← openLines_concat] at hline
  cases hopened : openLines (before ++ [line]) with
  | none =>
      -- a free label, or one behind the end of its environment: its own line is final
      rw [hopened] at hline
      rw [contentLines_of_openLines_eq_none hopened, List.intercalate_singleton]
      exact Survey.content?_readLines_of_not_mem hcontent hline (by simp) hlater
  | some opened =>
      -- the label waits for the end of the environment
      rw [hopened] at hline
      have hmem : x ∈ opened.flatMap labelsOf := List.mem_flatMap.2
        ⟨line, mem_of_openAfter_eq_some (openLines_concat.symm.trans hopened), hx⟩
      rw [contentLines_of_openLines_eq_some hopened]
      refine (Survey.content?_readLines_of_mem hcontent hline hmem hlater).trans ?_
      rw [List.zipIdx_map_fst]
      cases untilClosing after <;> simp

/-! ## Labels in an outermost environment -/

section

variable {t first last line x : Text} {before inside after ls : List Text}

/-- A label that is defined once is not defined behind its line. -/
theorem not_mem_labelsOf_of_count_eq_one
    (h : ((before ++ line :: after).flatMap labelsOf).count x = 1) (hx : x ∈ labelsOf line) :
    ∀ l ∈ after, x ∉ labelsOf l := by
  intro l hl hmem
  have hline : 0 < (labelsOf line).count x := List.count_pos_iff.2 hx
  have hlater : 0 < (after.flatMap labelsOf).count x :=
    List.count_pos_iff.2 (List.mem_flatMap.2 ⟨l, hl, hmem⟩)
  rw [List.flatMap_append, List.flatMap_cons, List.count_append, List.count_append] at h
  omega

/-- Fewer lines do not make up the whole environment, as there are fewer newlines between them. -/
theorem Outermost.trim_intercalate_ne (h : Outermost before first inside last)
    (ht : t.lines = before ++ (first :: inside ++ last :: after)) (hls : ls.Sublist t.lines)
    (hlength : ls.length < inside.length + 2) :
    Text.trim (['\n'].intercalate ls) ≠
      Text.trim (['\n'].intercalate (first :: inside ++ [last])) := by
  have hfree : ∀ l ∈ t.lines, '\n' ∉ l := fun l hl => Text.newline_not_mem_of_mem_lines hl
  obtain ⟨name, hfirst, hlast⟩ := h.ends
  have hsublist : (first :: inside ++ [last]).Sublist t.lines := by
    rw [ht, List.append_cons _ last after, ← List.append_assoc]
    exact (List.sublist_append_right _ _).trans (List.sublist_append_left _ _)
  -- the environment has as many newlines as it has further lines
  have hwhole : (Text.trim (['\n'].intercalate (first :: inside ++ [last]))).count '\n' =
      inside.length + 1 :=
    Text.count_newline_trim_intercalate
      (fun l hl => hfree l (hsublist.mem hl))
      (NumberedTag.exists_not_blank (hfirst ▸ List.mem_singleton_self _))
      (NumberedTag.exists_not_blank (hlast ▸ List.mem_singleton_self _))
  have hpart : (Text.trim (['\n'].intercalate ls)).count '\n' ≤ ls.length - 1 :=
    Text.count_newline_intercalate (fun l hl => hfree l (hls.mem hl)) ▸
      (Text.trim_sublist _).count_le '\n'
  -- fewer lines have fewer newlines
  intro heq
  rw [heq, hwhole] at hpart
  omega

/-- A label in an outermost environment has the whole environment as its content if and only if
there are no tags between the first line and the last, and the label does not stand on the last. -/
theorem ReferenceGraph.content_eq_environment_iff
    (ht : t.lines = before ++ (first :: inside ++ last :: after))
    (h : Outermost before first inside last) (honce : (t.lines.flatMap labelsOf).count x = 1)
    (hx : x ∈ (first :: inside ++ [last]).flatMap labelsOf) :
    ∃ node, (ofText t).node? x = some node ∧
      (node.content = Text.trim (['\n'].intercalate (first :: inside ++ [last])) ↔
        inside.flatMap NumberedTag.ofLine = [] ∧ x ∉ labelsOf last) := by
  rw [List.flatMap_append, List.mem_append, List.flatMap_singleton] at hx
  obtain hx | hlast := hx
  · -- the label comes before the last line
    obtain ⟨line, hline, hx⟩ := List.mem_flatMap.1 hx
    obtain ⟨u, v, huv⟩ := List.append_of_mem hline
    have hlines : t.lines = (before ++ u) ++ line :: (v ++ last :: after) := by
      rw [ht, huv]
      simp
    have hlater := not_mem_labelsOf_of_count_eq_one (hlines ▸ honce) hx
    obtain ⟨node, hnode, hcontent⟩ :=
      Option.map_eq_some_iff.1 (content_of_lines_eq hlines hx hlater)
    have hlast : x ∉ labelsOf last := hlater last (by simp)
    refine ⟨node, hnode, ?_⟩
    rw [hcontent, and_iff_left hlast]
    constructor
    · contrapose!
      intro hinside
      exact h.trim_intercalate_ne ht (hlines ▸ contentLines_sublist _ _ _)
        (h.length_contentLines_lt huv.symm hinside after)
    · intro hinside
      rw [h.contentLines_eq huv.symm hinside]
  · -- the label stands on the last line, and its content is this line
    have hlines : t.lines = (before ++ first :: inside) ++ last :: after := by
      rw [ht]
      simp
    obtain ⟨node, hnode, hcontent⟩ := Option.map_eq_some_iff.1 (content_of_lines_eq hlines hlast
      (not_mem_labelsOf_of_count_eq_one (hlines ▸ honce) hlast))
    refine ⟨node, hnode, ?_⟩
    rw [hcontent, h.contentLines_last]
    refine iff_of_false (h.trim_intercalate_ne ht (by simp [hlines]) (by simp)) fun hboth => ?_
    exact hboth.2 hlast

/-- The label of an equation that comes after another environment has the whole equation. -/
theorem ReferenceGraph.content_eq_environment_behind_figure :
    let equation :=
      ["\\begin{equation}".toList, "a \\label{eq:a}".toList, "\\end{equation}".toList]
    let t : Text := "\\begin{figure}\n\\end{figure}\n".toList ++ ['\n'].intercalate equation
    ∃ node, (ofText t).node? "eq:a".toList = some node ∧
      node.content = Text.trim (['\n'].intercalate equation) := by
  intro equation t
  have houtermost : Outermost ["\\begin{figure}".toList, "\\end{figure}".toList]
      "\\begin{equation}".toList ["a \\label{eq:a}".toList] "\\end{equation}".toList := by
    refine ⟨by decide +kernel, ?_, ?_, "equation".toList, by decide +kernel⟩
    · have htags : ["\\begin{figure}".toList, "\\end{figure}".toList].flatMap NumberedTag.ofLine =
          [.opening "figure".toList, .closing "figure".toList] := by decide +kernel
      rw [htags]
      exact .pair .nil .nil
    · have htags : ["a \\label{eq:a}".toList].flatMap NumberedTag.ofLine = [] := by decide +kernel
      rw [htags]
      exact .nil
  have ht : t.lines = ["\\begin{figure}".toList, "\\end{figure}".toList] ++
      ("\\begin{equation}".toList :: ["a \\label{eq:a}".toList] ++
        "\\end{equation}".toList :: []) := by decide +kernel
  obtain ⟨node, hnode, hcontent⟩ := content_eq_environment_iff (x := "eq:a".toList) ht houtermost
    (by decide +kernel) (by decide +kernel)
  exact ⟨node, hnode, hcontent.2 (by decide +kernel)⟩

/-- The end of an inner environment ends the outer one for a survey: a label there has only the
lines so far as its content. -/
theorem ReferenceGraph.content_ends_with_inner_environment :
    let lines := ["\\begin{equation}".toList, "\\begin{split}".toList, "a \\label{eq:a}".toList,
      "\\end{split}".toList, "\\end{equation}".toList]
    let t : Text := ['\n'].intercalate lines
    t.lines = lines ∧ (∀ l ∈ lines, (NumberedTag.ofLine l).length ≤ 1) ∧
      NumberedTag.Nested (lines.flatMap NumberedTag.ofLine) ∧
      lines.flatMap labelsOf = ["eq:a".toList] ∧
      ∃ node, (ofText t).node? "eq:a".toList = some node ∧
        node.content = ['\n'].intercalate (lines.take 4) ∧
        node.content ≠ Text.trim (['\n'].intercalate lines) := by
  intro lines t
  have htags : lines.flatMap NumberedTag.ofLine = [.opening "equation".toList,
      .opening "split".toList, .closing "split".toList, .closing "equation".toList] := by
    decide +kernel
  have hcontent : ((ofText t).node? "eq:a".toList).map (·.content) =
      some (['\n'].intercalate (lines.take 4)) := by decide +kernel
  obtain ⟨node, hnode, hcontent⟩ := Option.map_eq_some_iff.1 hcontent
  refine ⟨by decide +kernel, by decide +kernel, htags ▸ .pair (.pair .nil .nil) .nil,
    by decide +kernel, node, hnode, hcontent, ?_⟩
  rw [hcontent]
  decide +kernel

end

end MathEdit
