import MathEdit.Proofs.References.Contents

/-! # The owners of references

The owner of a reference is the source of its edge. Every line with labels makes the last of them
the owner of what follows, and a line with a heading makes it the section, unless the environment
that is open there has labels: then the last of these is the owner again. Where an environment opens
or ends makes no difference, since the labels of an environment that ends still own what follows.

* **`Survey.owner_readLine`**: what one line does to the owner.
* **`ReferenceGraph.edges_ofText`**: the edges of a document are those of its references.
* **`ReferenceGraph.edge?_behind_heading`**: the source of an edge between a heading and the next
  label. -/

namespace MathEdit

/-- The titles of the section headings of a line. -/
def headingsOf (line : Text) : List Text := Tag.heading.arguments (Survey.stripComment line)

/-- The identifiers that the references of a line name. -/
def referencesOf (line : Text) : List Text := Tag.ref.arguments (Survey.stripComment line)

/-- The labels of the environment that is open after lines of a document. -/
def openLabels (lines : List Text) : List Text := ((openLines lines).getD []).flatMap labelsOf

/-- The owner behind a heading: the last label of the environment that is open there, or else the
section. -/
def ownerBehind (before : List Text) (title : Text) : Text :=
  (openLabels before).getLast?.getD (Survey.sectionId title)

namespace Survey

variable {s : Survey} {line code label : Text} {number : Nat} {labels lines : List Text}
  {numbered : List (Text × Nat)} {e : OpenEnvironment}

/-! ## The owner after one line -/

/-- A heading leaves the owner only to the labels of the open environment. -/
theorem owner_readHeading (s : Survey) (number : Nat) (code : Text) :
    (s.readHeading number code).owner =
      (Tag.heading.arguments code).head?.elim s.owner fun title =>
        (s.environment.bind (·.labels.getLast?)).or (some (sectionId title)) := by
  cases h : (Tag.heading.arguments code).head? with
  | none =>
      rw [readHeading, h]
      rfl
  | some title =>
      have hlabel : (s.readHeading number code).label = none := by rw [readHeading, h]
      have hheading : (s.readHeading number code).heading = some (sectionId title) := by
        rw [readHeading, h]
      rw [owner, environment_readHeading, hlabel, hheading]
      rfl

/-- The labels of an environment own what follows it as well. -/
theorem owner_closeEnvironment (h : s.environment = some e) (lines : List Text) :
    (s.closeEnvironment { e with lines := lines }).owner = s.owner := by
  rw [owner, owner, h]
  simp [closeEnvironment, Option.or_assoc]

/-- Where an environment opens or ends makes no difference to the owner. -/
theorem owner_readEnvironment (s : Survey) (line : Text) :
    (s.readEnvironment line (stripComment line)).owner = s.owner := by
  cases h : s.environment with
  | none =>
      rw [readEnvironment_of_none h]
      split
      · simp [owner, h]
      · rfl
  | some e =>
      rw [readEnvironment_of_some h]
      split
      · exact owner_closeEnvironment h _
      · simp [owner, h]

/-- A label owns what follows. -/
theorem owner_readLabel (number : Nat) (line label : Text) (s : Survey) :
    (readLabel number line s label).owner = some label := by
  unfold readLabel
  dsimp only
  split
  · simp [owner]
  · next h =>
      rw [environment_define] at h
      simp [owner, h]

/-- The last label of a line is the owner. -/
theorem owner_readLabels :
    (labels.foldl (readLabel number line) s).owner = labels.getLast?.or s.owner := by
  induction labels generalizing s with
  | nil => rfl
  | cons label labels ih =>
      rw [List.foldl_cons, ih, owner_readLabel, List.getLast?_cons]
      cases labels.getLast? <;> rfl

/-- **The owner after a line**: its last label, or its heading behind the labels of the open
environment, or else the owner before it. -/
theorem owner_readLine (s : Survey) (number : Nat) (line : Text) :
    (s.readLine number line).owner =
      (labelsOf line).getLast?.or ((headingsOf line).head?.elim s.owner fun title =>
        (s.environment.bind (·.labels.getLast?)).or (some (sectionId title))) := by
  obtain ⟨log, hlog⟩ := readLine_eq s number line
  rw [hlog]
  refine owner_readLabels.trans ?_
  rw [owner_readEnvironment, owner_readHeading]
  rfl

/-- Lines without headings and labels leave the owner alone. -/
theorem owner_readLines (h : ∀ l ∈ numbered, headingsOf l.1 = [] ∧ labelsOf l.1 = []) :
    (s.readLines numbered).owner = s.owner := by
  induction numbered generalizing s with
  | nil => rfl
  | cons l numbered ih =>
      obtain ⟨hheadings, hlabels⟩ := h l List.mem_cons_self
      rw [readLines_cons, ih fun m hm => h m (.tail l hm), owner_readLine, hlabels, hheadings]
      rfl

/-- No line up to the next label or heading changes the owner behind a heading. -/
theorem owner_behind_heading {before rest : List Text} {head title : Text}
    (hheading : (headingsOf head).head? = some title) (hhead : labelsOf head = [])
    (hrest : ∀ l ∈ rest, headingsOf l = [] ∧ labelsOf l = []) (n : Nat) :
    (empty.readLines ((before ++ head :: rest).zipIdx n)).owner =
      some (ownerBehind before title) := by
  rw [readLines_zipIdx_append_cons,
    owner_readLines fun l hl => hrest l.1 (List.fst_mem_of_mem_zipIdx hl), owner_readLine, hhead,
    hheading, environment_readLines_zipIdx, ownerBehind, openLabels]
  cases openLines before with
  | none => rfl
  | some lines => cases h : (lines.flatMap labelsOf).getLast? <;> simp [OpenEnvironment.ofLines, h]

/-! ## The edges of the lines -/

/-- A heading adds no edge. -/
theorem edges_readHeading (number : Nat) (code : Text) :
    (s.readHeading number code).edges = s.edges := by
  obtain heq | ⟨node, heq⟩ := readHeading_cases s number code
  · rw [heq]
  · rw [heq]
    split <;> rfl

/-- Nor does an environment. -/
theorem edges_readEnvironment (line code : Text) :
    (s.readEnvironment line code).edges = s.edges := by
  unfold readEnvironment
  split
  · split
    · rfl
    · split <;> rfl
  · dsimp only
    split <;> rfl

/-- Nor do labels. -/
theorem edges_readLabels : (labels.foldl (readLabel number line) s).edges = s.edges := by
  induction labels generalizing s with
  | nil => rfl
  | cons label labels ih =>
      rw [List.foldl_cons, ih, readLabel]
      split <;> rfl

/-- The references of a line draw their edges from the owner after the line. -/
theorem edges_readLine (s : Survey) (number : Nat) (line : Text) :
    (s.readLine number line).edges =
      s.edges ++ (referencesOf line).filterMap (s.readLine number line).edge? := by
  simp only [readLine, readReferences_eq]
  rw [EdgeLog.edges_foldl_push, edges_readLabels, edges_readEnvironment, edges_readHeading]
  rfl

/-- Every line of a document adds the edges of its references. -/
theorem edges_readLines_zipIdx (lines : List Text) (n : Nat) :
    (empty.readLines (lines.zipIdx n)).edges = lines.zipIdx.flatMap fun l =>
      (referencesOf l.1).filterMap
        (empty.readLines ((lines.take (l.2 + 1)).zipIdx n)).edge? := by
  induction lines using List.reverseRecOn with
  | nil => rfl
  | append_singleton lines line ih =>
      -- the lines up to one that has been read are the same as before
      have hfront : ∀ l ∈ lines.zipIdx, (lines ++ [line]).take (l.2 + 1) = lines.take (l.2 + 1) :=
        fun l hl => List.take_append_of_le_length (List.snd_lt_of_mem_zipIdx hl)
      have hwhole : (lines ++ [line]).take (0 + lines.length + 1) = lines ++ [line] :=
        List.take_of_length_le (by simp)
      have hlast : empty.readLines ((lines ++ [line]).zipIdx n) =
          (empty.readLines (lines.zipIdx n)).readLine (n + lines.length) line :=
        readLines_zipIdx_append_cons empty lines line [] n
      rw [hlast, edges_readLine, ih, List.zipIdx_append, List.flatMap_append, List.zipIdx_singleton,
        List.flatMap_singleton, hwhole, hlast]
      congr 1
      exact List.flatMap_congr fun l hl => by rw [hfront l hl]

end Survey

/-! ## The edges of a document -/

namespace ReferenceGraph

variable {t head title target : Text} {before rest after : List Text}

/-- The references of a document, each with the number of lines before its own. -/
def references (t : Text) : List (Nat × Text) :=
  t.lines.zipIdx.flatMap fun (line, k) => (referencesOf line).map (k, ·)

/-- The edge of a reference, if there is a node with the identifier that it names and it is not the
owner itself. -/
def edge? (t : Text) (reference : Nat × Text) : Option ReferenceEdge :=
  ((Survey.empty.readLines ((t.lines.take (reference.1 + 1)).zipIdx 1)).edge?
    reference.2).filter fun e => (ofText t).nodes.any (·.id = e.target)

/-- The edges of a document are those of its references, in order. -/
theorem edges_ofText (t : Text) : (ofText t).edges = (references t).filterMap (edge? t) := by
  have hnode (x : Text) : (ofText t).nodes.any (·.id = x) =
      (Survey.empty.readLines (t.lines.zipIdx 1)).contains x := by
    refine Bool.eq_iff_iff.2 ?_
    rw [NodeTable.contains_iff, ← Survey.ids_toGraph, ← ofText_eq]
    simp
  rw [references, List.filterMap_flatMap, ofText_eq, Survey.toGraph]
  dsimp only
  rw [Survey.edges_readLines_zipIdx, List.filter_flatMap]
  refine List.flatMap_congr fun l _ => ?_
  rw [List.filter_filterMap, List.filterMap_map]
  refine List.filterMap_congr fun x _ => ?_
  simp only [Function.comp_apply, edge?, hnode]

/-- **The heading as an owner.** The edges of a document are those of its references. Behind a
heading, up to the next label or heading, they come from the section, unless the environment that is
open at the heading has labels: then they come from the last of these. -/
theorem edge?_behind_heading (hlines : t.lines = before ++ head :: rest ++ after)
    (hheading : (headingsOf head).head? = some title) (hhead : labelsOf head = [])
    (hrest : ∀ l ∈ rest, headingsOf l = [] ∧ labelsOf l = [])
    (hnode : target ∈ (ofText t).nodes.map (·.id)) :
    (ofText t).edges = (references t).filterMap (edge? t) ∧
      edge? t (before.length + rest.length, target) =
        if ownerBehind before title = target then none
        else some ⟨ownerBehind before title, target⟩ := by
  refine ⟨edges_ofText t, ?_⟩
  -- the lines up to the reference are those before the heading, the heading and those behind it
  have htake : t.lines.take (before.length + rest.length + 1) = before ++ head :: rest := by
    rw [hlines]
    exact List.take_left' (by simp; omega)
  rw [edge?, htake, Survey.edge?, Survey.owner_behind_heading hheading hhead hrest,
    Option.bind_some]
  split
  · rfl
  · simpa using hnode

/-- A heading takes over from a label that comes before the environment around it. -/
theorem edge?_behind_heading_in_table :
    let t : Text := "\\label{a}\n\\begin{table}\n\\section{B}\n\\end{table}\n\\ref{a}".toList
    edge? t (4, "a".toList) = some ⟨"sec:b".toList, "a".toList⟩ := by
  intro t
  have hlines : t.lines = ["\\label{a}".toList, "\\begin{table}".toList] ++
      "\\section{B}".toList :: ["\\end{table}".toList, "\\ref{a}".toList] ++ [] := by
    decide +kernel
  have hheading : (headingsOf "\\section{B}".toList).head? = some "B".toList := by decide +kernel
  have hnode : "a".toList ∈ (ofText t).nodes.map (·.id) := by decide +kernel
  have howner : ownerBehind ["\\label{a}".toList, "\\begin{table}".toList] "B".toList =
      "sec:b".toList := by decide +kernel
  have h := edge?_behind_heading hlines hheading (by decide +kernel) (by decide +kernel) hnode
  rw [howner] at h
  exact h.2

/-- Not every reference behind a heading comes from the section: in an equation that has a label
before the heading it comes from the label. -/
theorem not_forall_edge?_behind_heading :
    ¬ ∀ (t head title target : Text) (before rest after : List Text),
      t.lines = before ++ head :: rest ++ after →
      (∀ l ∈ t.lines, (headingsOf l).length ≤ 1) → headingsOf head = [title] → labelsOf head = [] →
      (∀ l ∈ rest, headingsOf l = [] ∧ labelsOf l = []) →
      (before.length + rest.length, target) ∈ references t →
      target ∈ (ofText t).nodes.map (·.id) → target ≠ Survey.sectionId title →
        edge? t (before.length + rest.length, target) =
          some ⟨Survey.sectionId title, target⟩ := by
  intro h
  have hedge := h
    ("\\begin{equation}\n\\label{eq:a}\n\\section{B}\n\\ref{eq:c}\n".toList ++
      "\\end{equation}\n\\label{eq:c}".toList)
    "\\section{B}".toList "B".toList "eq:c".toList
    ["\\begin{equation}".toList, "\\label{eq:a}".toList] ["\\ref{eq:c}".toList]
    ["\\end{equation}".toList, "\\label{eq:c}".toList]
    (by decide +kernel) (by decide +kernel) (by decide +kernel) (by decide +kernel)
    (by decide +kernel) (by decide +kernel) (by decide +kernel) (by decide +kernel)
  exact absurd hedge (by decide +kernel)

end ReferenceGraph

end MathEdit
