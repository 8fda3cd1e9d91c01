import MathEdit.References
import Mathlib.Data.List.Nodup

/-! # The integrity of the reference graph

Nodes are found by their identifiers, which a section takes from its title and a label from its
name, so `Survey.define` must not let one identifier in twice, and references are counted before it
is known whether there is a node at their target. What the maps of a survey have to do with its
nodes and edges goes with them from step to step: `NodeTable.indexed` and `EdgeLog.counted`.

What is left are the sources of the edges. A source comes from what has been read: the heading, the
last free label, or a label of the open environment. `Survey.Sound` says that all of these are
identifiers of nodes. Reading a line preserves it, as no operation takes an identifier away, and it
gives the graph of every document its integrity, `ReferenceGraph.WellFormed`.
-/

namespace MathEdit

/-- A graph whose edges and counts agree with its nodes. -/
structure ReferenceGraph.WellFormed (g : ReferenceGraph) : Prop where
  nodup : (g.nodes.map (·.id)).Nodup
  source_mem : ∀ e ∈ g.edges, e.source ∈ g.nodes.map (·.id)
  target_mem : ∀ e ∈ g.edges, e.target ∈ g.nodes.map (·.id)
  source_ne_target : ∀ e ∈ g.edges, e.source ≠ e.target
  refCount_eq : ∀ n ∈ g.nodes, n.refCount = g.edges.countP (·.target = n.id)

namespace Survey

variable {s : Survey} {line code label target x : Text} {number : Nat} {node : ReferenceNode}
  {e : OpenEnvironment}

/-! ## Identifiers are only added, at the end -/

/-- A definition adds its identifier unless there is a node with it. -/
theorem ids_define : (s.define node).ids =
    if node.id ∈ s.ids then s.ids else s.ids ++ [node.id] := NodeTable.ids_upsert

/-- After a definition its identifier is there, and so are those before. -/
@[simp] theorem mem_ids_define : x ∈ (s.define node).ids ↔ x ∈ s.ids ∨ x = node.id := by
  rw [ids_define]
  split
  · next h => exact ⟨.inl, (·.elim id fun hx => hx ▸ h)⟩
  · simp

/-- A definition adds no edge. -/
@[simp] theorem edges_define : (s.define node).edges = s.edges := rfl

/-- It leaves the last heading. -/
@[simp] theorem heading_define : (s.define node).heading = s.heading := rfl

/-- And the last label. -/
@[simp] theorem label_define : (s.define node).label = s.label := rfl

/-- And the open environment. -/
@[simp] theorem environment_define : (s.define node).environment = s.environment := rfl

/-- The end of an environment changes contents only. -/
@[simp] theorem ids_closeEnvironment : (s.closeEnvironment e).ids = s.ids :=
  NodeTable.ids_foldl_setContent

/-- What a line does to the heading: nothing, or the heading becomes that of a section, whose node
is added if there is none. -/
theorem readHeading_cases (s : Survey) (number : Nat) (code : Text) :
    s.readHeading number code = s ∨
    ∃ node : ReferenceNode, s.readHeading number code =
      { (if node.id ∈ s.ids then s else s.define node) with
        heading := some node.id, label := none } := by
  simp only [readHeading, NodeTable.contains_iff]
  split
  · exact .inl rfl
  · next title _ => exact .inr ⟨⟨sectionId title, title, .section, number, _, 0⟩, rfl⟩

/-- The graph has the nodes of the survey. -/
@[simp] theorem ids_toGraph : s.toGraph.nodes.map (·.id) = s.ids := by
  simp [toGraph, NodeTable.ids]

/-! ## What reading preserves -/

/-- All that a survey refers to has a node, except for the targets of its edges. -/
structure Sound (s : Survey) : Prop where
  source_mem : ∀ e ∈ s.edges, e.source ∈ s.ids
  source_ne_target : ∀ e ∈ s.edges, e.source ≠ e.target
  heading_mem : ∀ x ∈ s.heading, x ∈ s.ids
  label_mem : ∀ x ∈ s.label, x ∈ s.ids
  labels_mem : ∀ e ∈ s.environment, ∀ x ∈ e.labels, x ∈ s.ids

namespace Sound

/-- Nothing seen refers to nothing. -/
theorem empty : Survey.empty.Sound := by
  constructor <;> simp [Survey.empty, EdgeLog.empty]

/-- A definition only adds to what can be referred to. -/
theorem define (h : s.Sound) (node : ReferenceNode) : (s.define node).Sound where
  source_mem e he := mem_ids_define.2 (.inl (h.source_mem e (by simpa using he)))
  source_ne_target e he := h.source_ne_target e (by simpa using he)
  heading_mem x hx := mem_ids_define.2 (.inl (h.heading_mem x (by simpa using hx)))
  label_mem x hx := mem_ids_define.2 (.inl (h.label_mem x (by simpa using hx)))
  labels_mem e he x hx := mem_ids_define.2 (.inl (h.labels_mem e (by simpa using he) x hx))

/-- A heading becomes the owner together with its node, be it a new one or an earlier one. -/
theorem readHeading (h : s.Sound) (number : Nat) (code : Text) :
    (s.readHeading number code).Sound := by
  obtain heq | ⟨node, heq⟩ := readHeading_cases s number code
  · rwa [heq]
  · rw [heq]
    split
    · next hmem =>
        exact { h with heading_mem := by rintro _ ⟨⟩; exact hmem, label_mem := by simp }
    · -- the new owner is the node that has just been added
      exact { h.define node with
        heading_mem := by rintro _ ⟨⟩; exact mem_ids_define.2 (.inr rfl), label_mem := by simp }

/-- The label that owns what follows an environment is one of its labels. -/
theorem closeEnvironment (h : s.Sound) (he : ∀ x ∈ e.labels, x ∈ s.ids) :
    (s.closeEnvironment e).Sound := by
  have hids : (s.closeEnvironment e).ids = s.ids := ids_closeEnvironment
  refine ⟨hids ▸ h.source_mem, h.source_ne_target, hids ▸ h.heading_mem,
    fun x hx => hids ▸ ?_, by simp [Survey.closeEnvironment]⟩
  obtain hlast | ⟨-, hlabel⟩ := Option.or_eq_some_iff.1 hx
  · exact he x (List.mem_of_getLast? hlast)
  · exact h.label_mem x hlabel

/-- The tags of an environment change who owns what, and the labels it has read have nodes. -/
theorem readEnvironment (h : s.Sound) (line code : Text) : (s.readEnvironment line code).Sound := by
  unfold Survey.readEnvironment
  split
  · -- an environment that opens has no labels yet
    split
    · exact h
    · split
      · exact h
      · exact { h with labels_mem := by rintro _ ⟨⟩; simp }
  · next e he =>
      have hlabels : ∀ x ∈ e.labels, x ∈ s.ids := h.labels_mem e he
      dsimp only
      split
      · exact h.closeEnvironment hlabels
      · exact { h with labels_mem := by rintro _ ⟨⟩; exact hlabels }

/-- A label has its node when it joins the open environment or becomes the owner. -/
theorem readLabel (h : s.Sound) (number : Nat) (line label : Text) :
    (Survey.readLabel number line s label).Sound := by
  have hdefine := h.define ⟨label, label, .ofLabel label, number, Text.trim line, 0⟩
  have hlabel : label ∈ (s.define ⟨label, label, .ofLabel label, number, Text.trim line, 0⟩).ids :=
    mem_ids_define.2 (.inr rfl)
  unfold Survey.readLabel
  dsimp only
  split
  · next e he =>
      refine { hdefine with labels_mem := ?_ }
      rintro _ ⟨⟩ x hx
      obtain hx | hx := List.mem_append.1 hx
      · exact hdefine.labels_mem e he x hx
      · exact List.mem_singleton.1 hx ▸ hlabel
  · exact { hdefine with label_mem := by rintro _ ⟨⟩; exact hlabel }

/-- The owner of a line has a node, whichever of the three it is. -/
theorem owner_mem (h : s.Sound) (hx : s.owner = some x) : x ∈ s.ids := by
  obtain hx | ⟨-, hx⟩ := Option.or_eq_some_iff.1 hx
  · obtain ⟨e, he, hx⟩ := Option.bind_eq_some_iff.1 hx
    exact h.labels_mem e he x (List.mem_of_getLast? hx)
  · obtain hx | ⟨-, hx⟩ := Option.or_eq_some_iff.1 hx
    · exact h.label_mem x hx
    · exact h.heading_mem x hx

/-- An edge comes from the owner of its line. -/
theorem readReference (h : s.Sound) (target : Text) : (s.readReference target).Sound := by
  unfold Survey.readReference
  split
  · next source hsource =>
      split
      · exact h
      · next hne =>
          refine { h with source_mem := ?_, source_ne_target := ?_ }
          · intro e he
            -- the new edge comes from the owner, which has a node
            obtain he | he := List.mem_append.1 he
            · exact h.source_mem e he
            · obtain rfl := List.mem_singleton.1 he
              exact h.owner_mem hsource
          · intro e he
            obtain he | he := List.mem_append.1 he
            · exact h.source_ne_target e he
            -- and it was not added if it would lead back
            · exact List.mem_singleton.1 he ▸ hne
  · exact h

/-- **One line** keeps a survey sound: each of its four steps does. -/
theorem readLine (h : s.Sound) (number : Nat) (line : Text) : (s.readLine number line).Sound := by
  have henvironment := (h.readHeading number (stripComment line)).readEnvironment line
    (stripComment line)
  have hlabels := List.foldlRecOn (Tag.label.arguments (stripComment line))
    (Survey.readLabel number line) henvironment fun _ hs label _ => hs.readLabel number line label
  exact List.foldlRecOn _ _ hlabels fun _ hs target _ => hs.readReference target

/-- References to nothing are dropped at the end, so that the targets of the rest have nodes too.
The dropped edges count for no node. -/
theorem toGraph (h : s.Sound) : s.toGraph.WellFormed where
  nodup := by simpa using s.nodup_ids
  source_mem e he := by simpa using h.source_mem e (List.mem_of_mem_filter he)
  target_mem e he := by simpa using NodeTable.contains_iff.1 (List.mem_filter.1 he).2
  source_ne_target e he := h.source_ne_target e (List.mem_of_mem_filter he)
  refCount_eq n hn := by
    obtain ⟨m, hm, rfl⟩ := List.mem_map.1 hn
    have hcount : s.refCount m.id = s.edges.countP (·.target = m.id) := s.refCount_eq m.id
    simp only [Survey.toGraph, hcount, List.countP_filter]
    -- an edge to a node is not dropped, as its target is there
    refine List.countP_congr fun e _ => ?_
    simp only [Bool.and_eq_true, decide_eq_true_eq, NodeTable.contains_iff, iff_self_and]
    intro htarget
    exact htarget ▸ List.mem_map_of_mem hm

end Sound

/-- What has been seen after numbered lines. -/
def readLines (s : Survey) (lines : List (Text × Nat)) : Survey :=
  lines.foldl (fun s (line, number) => s.readLine number line) s

/-- The first of some lines is read before the others. -/
theorem readLines_cons (s : Survey) (l : Text × Nat) (lines : List (Text × Nat)) :
    s.readLines (l :: lines) = (s.readLine l.2 l.1).readLines lines := rfl

/-- Lines are read one after another. -/
theorem readLines_append (s : Survey) (lines rest : List (Text × Nat)) :
    s.readLines (lines ++ rest) = (s.readLines lines).readLines rest :=
  List.foldl_append

/-- Lines are read before and behind one of them. -/
theorem readLines_zipIdx_append_cons (s : Survey) (before : List Text) (line : Text)
    (after : List Text) (n : Nat) :
    s.readLines ((before ++ line :: after).zipIdx n) =
      ((s.readLines (before.zipIdx n)).readLine (n + before.length) line).readLines
        (after.zipIdx (n + before.length + 1)) := by
  rw [List.zipIdx_append, readLines_append, List.zipIdx_cons, readLines_cons]

/-- **All lines** keep a survey sound. -/
theorem Sound.readLines (h : s.Sound) (lines : List (Text × Nat)) : (s.readLines lines).Sound :=
  List.foldlRecOn _ _ h fun _ hs l _ => hs.readLine l.2 l.1

end Survey

/-- A document is read from its first line, which has the number one. -/
theorem ReferenceGraph.ofText_eq (t : Text) :
    ofText t = (Survey.empty.readLines (t.lines.zipIdx 1)).toGraph := rfl

/-- The graph of every document is well-formed: its identifiers are distinct, its edges go from a
node to another one, and each node counts the edges to it. -/
theorem ReferenceGraph.wellFormed_ofText (t : Text) : (ofText t).WellFormed :=
  ofText_eq t ▸ (Survey.Sound.empty.readLines (t.lines.zipIdx 1)).toGraph

end MathEdit
