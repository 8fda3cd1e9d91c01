import MathEdit.Text

/-! # Nodes found by their identifiers, and references counted by their targets

While a document is read, a node is found through a map from identifiers to positions, and the
references to each identifier are counted in another map, before it is known whether there is a node
with it. `NodeTable` is the list of nodes with the first map and `EdgeLog` the list of edges with
the second one. Each structure carries what ties its map to its list, `Indexes` and `Counts`, and
every operation on it says why this still holds.

A map is the list of its entries. The entry that was inserted last stands first, in front of those
it replaces.
-/

namespace MathEdit

/-- What a node stands for. -/
inductive ReferenceKind where
  | section
  | equation
  | figure
  | generic
  deriving DecidableEq, Repr

/-- The kind that the beginning of a label tells. -/
def ReferenceKind.ofLabel (label : Text) : ReferenceKind :=
  if "eq:".toList.isPrefixOf label then .equation
  else if "fig:".toList.isPrefixOf label then .figure
  else if "sec:".toList.isPrefixOf label then .section
  else .generic

/-- A section or label that can be referred to. -/
structure ReferenceNode where
  id : Text
  /-- The title of the section, or the label. -/
  label : Text
  kind : ReferenceKind
  /-- The line of the definition, counted from one. -/
  line : Nat
  /-- The heading, the line of the label, or the environment around it. -/
  content : Text
  /-- The number of edges to the node. -/
  refCount : Nat
  deriving DecidableEq, Repr

/-- A reference, from its owner to the node it names. -/
structure ReferenceEdge where
  source : Text
  target : Text
  deriving DecidableEq, Repr

/-! ## Nodes and their positions -/

/-- A map gives every identifier of a node the position of that node, and no other identifier a
position. So no two nodes have the same identifier. -/
def Indexes (index : List (Text × Nat)) (nodes : List ReferenceNode) : Prop :=
  ∀ id i, index.lookup id = some i ↔ (nodes.map (·.id))[i]? = some id

namespace Indexes

variable {index : List (Text × Nat)} {nodes nodes' : List ReferenceNode} {id : Text} {i : Nat}

/-- Without nodes there is nothing to find. -/
theorem empty : Indexes [] [] := fun id i => by simp

/-- The map only speaks of the identifiers of the nodes. -/
theorem of_map_id_eq (h : Indexes index nodes) (hids : nodes'.map (·.id) = nodes.map (·.id)) :
    Indexes index nodes' := fun id i => hids ▸ h id i

/-- A node may be put in the place of the one with its identifier. -/
theorem set (h : Indexes index nodes) {node : ReferenceNode}
    (hi : index.lookup node.id = some i) : Indexes index (nodes.set i node) := by
  refine h.of_map_id_eq ?_
  obtain ⟨hlt, hid⟩ := List.getElem?_eq_some_iff.1 ((h _ i).1 hi)
  rw [List.map_set, ← hid, List.set_getElem_self]

/-- A node may be changed in place as long as it keeps its identifier. -/
theorem modify (h : Indexes index nodes) {f : ReferenceNode → ReferenceNode}
    (hf : ∀ n, (f n).id = n.id) (i : Nat) : Indexes index (nodes.modify i f) := by
  refine h.of_map_id_eq (List.ext_getElem? fun j => ?_)
  simp only [List.getElem?_map, List.getElem?_modify]
  split <;> simp [Function.comp_def, hf]

/-- A node with a new identifier may be added at the end, with an entry for it. -/
theorem concat (h : Indexes index nodes) {node : ReferenceNode}
    (hnew : index.lookup node.id = none) :
    Indexes ((node.id, nodes.length) :: index) (nodes ++ [node]) := by
  intro id i
  rw [List.lookup_cons]
  by_cases hid : id = node.id
  · -- the identifier had no position before, so it has only the new one
    subst hid
    have hold : (nodes.map (·.id))[i]? ≠ some node.id := fun hi => by
      simp [(h _ i).2 hi] at hnew
    simp only [beq_self_eq_true, Option.some.injEq, List.map_append, List.map_cons, List.map_nil]
    rw [List.getElem?_append]
    split
    · next hlt =>
        rw [List.length_map] at hlt
        exact ⟨fun hi => by omega, fun hi => absurd hi hold⟩
    · next hlt =>
        rw [List.length_map] at hlt ⊢
        grind
  · rw [beq_eq_false_iff_ne.2 hid, h id i]
    simp only [List.map_append, List.map_cons, List.map_nil, List.getElem?_append]
    split
    · rfl
    · grind

/-- The map has a position for an identifier just if there is a node with it. -/
theorem isSome_lookup_iff (h : Indexes index nodes) :
    (index.lookup id).isSome ↔ id ∈ nodes.map (·.id) := by
  simp only [Option.isSome_iff_exists, h id, List.mem_iff_getElem?]

/-- The nodes have distinct identifiers: the map would give one at two places both positions. -/
theorem nodup (h : Indexes index nodes) : (nodes.map (·.id)).Nodup := by
  refine List.pairwise_iff_getElem.2 fun i j hi hj hij heq => ?_
  have hfst := (h _ i).2 ((List.getElem?_eq_getElem hi).trans (congrArg some heq))
  rw [(h _ j).2 (List.getElem?_eq_getElem hj)] at hfst
  exact absurd (Option.some.inj hfst) (by omega)

/-- The node at a position has the identifier that the map sends there, and no other node does. -/
theorem id_eq_iff (h : Indexes index nodes) (hi : index.lookup id = some i) {j : Nat}
    {n : ReferenceNode} (hj : nodes[j]? = some n) : n.id = id ↔ i = j := by
  have hn : index.lookup n.id = some j := (h n.id j).2 (by rw [List.getElem?_map, hj]; rfl)
  constructor
  · rintro rfl
    exact Option.some.inj (hi.symm.trans hn)
  · rintro rfl
    have hid := (h id i).1 hi
    rw [List.getElem?_map, hj] at hid
    exact Option.some.inj hid

/-- To change the node at the position of an identifier is to change whatever node has the
identifier. -/
theorem modify_eq_map (h : Indexes index nodes) (hi : index.lookup id = some i)
    (f : ReferenceNode → ReferenceNode) :
    nodes.modify i f = nodes.map fun n => if n.id = id then f n else n := by
  refine List.ext_getElem? fun j => ?_
  rw [List.getElem?_modify, List.getElem?_map]
  cases hj : nodes[j]? with
  | none => simp
  | some n =>
    simp only [Option.map_some, Option.map_eq_map, h.id_eq_iff hi hj]

/-- To set the node at the position of an identifier is to replace the node with that identifier. -/
theorem set_eq_map (h : Indexes index nodes) (hi : index.lookup id = some i)
    (node : ReferenceNode) :
    nodes.set i node = nodes.map fun n => if n.id = id then node else n := by
  refine Eq.trans (List.ext_getElem? fun j => ?_) (h.modify_eq_map hi fun _ => node)
  rw [List.getElem?_set, List.getElem?_modify]
  split
  · next hij => subst hij; split <;> simp_all
  · simp

end Indexes

/-- Nodes in the order in which they were first defined, and the position of each of them. -/
structure NodeTable where
  nodes : List ReferenceNode
  index : List (Text × Nat)
  indexed : Indexes index nodes
  deriving DecidableEq, Repr

namespace NodeTable

/-- No node yet. -/
def empty : NodeTable := ⟨[], [], .empty⟩

/-- Whether there is a node with an identifier. -/
def contains (t : NodeTable) (id : Text) : Bool := (t.index.lookup id).isSome

/-- Adds a node at the end, or puts it in the place of the node with its identifier. -/
def upsert (t : NodeTable) (node : ReferenceNode) : NodeTable :=
  match h : t.index.lookup node.id with
  | some i => ⟨t.nodes.set i node, t.index, t.indexed.set h⟩
  | none => ⟨t.nodes ++ [node], (node.id, t.nodes.length) :: t.index, t.indexed.concat h⟩

/-- Gives the node with an identifier a content, if there is such a node. -/
def setContent (t : NodeTable) (content id : Text) : NodeTable :=
  match t.index.lookup id with
  | some i =>
      { t with
        nodes := t.nodes.modify i fun n => { n with content := content }
        indexed := t.indexed.modify (f := fun n => { n with content := content }) (fun _ => rfl) i }
  | none => t

/-- The identifiers of the nodes, in order. -/
def ids (t : NodeTable) : List Text := t.nodes.map (·.id)

variable {t : NodeTable} {node : ReferenceNode} {content id : Text} {labels : List Text}

/-- The identifiers of the nodes are distinct. -/
theorem nodup_ids (t : NodeTable) : t.ids.Nodup := t.indexed.nodup

/-- The map knows exactly the identifiers of the nodes. -/
theorem contains_iff : t.contains id ↔ id ∈ t.ids := t.indexed.isSome_lookup_iff

/-- Without the map, a definition is a pass over the nodes. -/
theorem nodes_upsert : (t.upsert node).nodes =
    if node.id ∈ t.ids then t.nodes.map fun n => if n.id = node.id then node else n
    else t.nodes ++ [node] := by
  have hmem : (t.index.lookup node.id).isSome ↔ node.id ∈ t.ids := t.indexed.isSome_lookup_iff
  unfold upsert
  split
  · next i hi =>
      rw [if_pos (hmem.1 (by rw [hi]; rfl))]
      exact t.indexed.set_eq_map hi node
  · next hnone => rw [if_neg (mt hmem.2 (by simp [hnone]))]

/-- Without the map, the node of an identifier is sought among all nodes. -/
theorem nodes_setContent : (t.setContent content id).nodes =
    t.nodes.map fun n => if n.id = id then { n with content := content } else n := by
  unfold setContent
  split
  · next i hi => exact t.indexed.modify_eq_map hi _
  · next hnone =>
      have hnew : id ∉ t.ids := mt t.indexed.isSome_lookup_iff.2 (by simp [hnone])
      have hsame : ∀ n ∈ t.nodes, (if n.id = id then { n with content := content } else n) = n :=
        fun n hn => if_neg fun hid : n.id = id => hnew (hid ▸ List.mem_map_of_mem hn)
      rw [List.map_congr_left hsame, List.map_id']

/-- A content that several identifiers get goes to each node with one of them. -/
theorem nodes_foldl_setContent :
    (labels.foldl (·.setContent content) t).nodes =
      t.nodes.map fun n => if n.id ∈ labels then { n with content := content } else n := by
  induction labels generalizing t with
  | nil => simp
  | cons label labels ih =>
    rw [List.foldl_cons, ih, nodes_setContent, List.map_map]
    refine List.map_congr_left fun n _ => ?_
    by_cases hid : n.id = label <;> simp [hid]

/-- A definition adds its identifier unless there is a node with it. -/
theorem ids_upsert : (t.upsert node).ids =
    if node.id ∈ t.ids then t.ids else t.ids ++ [node.id] := by
  rw [ids, nodes_upsert]
  split
  · simp only [ids, List.map_map]
    refine List.map_congr_left fun n _ => ?_
    simp only [Function.comp_apply]
    split <;> simp_all
  · simp [ids]

/-- Contents are not identifiers. -/
@[simp] theorem ids_foldl_setContent : (labels.foldl (·.setContent content) t).ids = t.ids := by
  rw [ids, nodes_foldl_setContent, List.map_map]
  refine List.map_congr_left fun n _ => ?_
  simp only [Function.comp_apply]
  split <;> rfl

end NodeTable

/-! ## Edges and their counts -/

/-- A map gives every identifier with an edge to it the number of these edges. -/
def Counts (refCounts : List (Text × Nat)) (edges : List ReferenceEdge) : Prop :=
  ∀ id, (refCounts.lookup id).getD 0 = edges.countP (·.target = id)

/-- Without edges there is nothing to count. -/
theorem Counts.empty : Counts [] [] := fun _ => rfl

/-- An edge may be added with one more in the entry for its target. -/
theorem Counts.concat {refCounts : List (Text × Nat)} {edges : List ReferenceEdge}
    (h : Counts refCounts edges) (e : ReferenceEdge) :
    Counts ((e.target, (refCounts.lookup e.target).getD 0 + 1) :: refCounts) (edges ++ [e]) := by
  intro id
  rw [List.lookup_cons, List.countP_append, ← h id]
  by_cases hid : id = e.target
  · subst hid
    simp
  · simp [beq_eq_false_iff_ne.2 hid, Ne.symm hid]

/-- Edges in the order in which they were found, and the number of those to each identifier. An
identifier that no edge goes to has no entry. -/
structure EdgeLog where
  edges : List ReferenceEdge
  refCounts : List (Text × Nat)
  counted : Counts refCounts edges
  deriving DecidableEq, Repr

namespace EdgeLog

/-- No edge yet. -/
def empty : EdgeLog := ⟨[], [], .empty⟩

/-- Adds an edge and counts it. -/
def push (l : EdgeLog) (e : ReferenceEdge) : EdgeLog where
  edges := l.edges ++ [e]
  refCounts := (e.target, (l.refCounts.lookup e.target).getD 0 + 1) :: l.refCounts
  counted := l.counted.concat e

/-- The number of edges to an identifier, as it has been counted. -/
def refCount (l : EdgeLog) (id : Text) : Nat := (l.refCounts.lookup id).getD 0

/-- The count is that of the edges. -/
theorem refCount_eq (l : EdgeLog) (id : Text) :
    l.refCount id = l.edges.countP (·.target = id) := l.counted id

/-- Edges are added in their order. -/
theorem edges_foldl_push (l : EdgeLog) (edges : List ReferenceEdge) :
    (edges.foldl push l).edges = l.edges ++ edges := by
  induction edges generalizing l with
  | nil => simp
  | cons e edges ih => simp [ih, push]

end EdgeLog

end MathEdit
