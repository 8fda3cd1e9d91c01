import MathEdit.Proofs.References.Contents
import Mathlib.Data.List.Sort

/-! # The order of definitions

A survey defines the identifiers of a line in two passes, first that of a section heading and then
those of the labels, and keeps each at the place of its first definition. So the nodes of a document
come in the order of their definitions as long as no line has a heading behind a label or behind
another heading. A heading behind a label comes before it, and of several headings only the first
one is read.

* **`Tag.places`**: where the tags of a line stand.
* **`definitionsRead_eq_iff`**: which lines are read from left to right.
* **`ReferenceGraph.ids_eq_eraseDups`**: the order of the nodes of a document, and what the last
  definition of a label leaves. -/

namespace MathEdit

/-! ## Tags and their places -/

namespace Tag

variable {tag : Tag} {t argument : Text} {start place : Nat}

/-- The arguments of a tag in a text, each with the number of characters before the tag, where the
text has `start` characters before it. -/
def places (tag : Tag) (start : Nat) (t : Text) : List (Nat × Text) :=
  match t with
  | [] => []
  | c :: t =>
      match _h : tag.read? (c :: t) with
      | some (argument, rest) =>
          (start, argument) :: places tag (start + ((c :: t).length - rest.length)) rest
      | none => places tag (start + 1) t
termination_by t.length
decreasing_by
  · exact length_of_read? _h
  · simp

/-- The arguments of a tag do not depend on where they are. -/
theorem map_snd_places (tag : Tag) (start : Nat) (t : Text) :
    (tag.places start t).map (·.2) = tag.arguments t := by
  fun_induction places tag start t with
  | case1 => rw [arguments, List.map_nil]
  | case2 start c t argument rest h ih =>
      rw [arguments, List.map_cons, ih]
      split <;> simp_all
  | case3 start c t h ih =>
      rw [arguments, ih]
      split <;> simp_all

/-- What reading a tag leaves is the end of the text. -/
theorem suffix_of_read? {rest : Text} (h : tag.read? t = some (argument, rest)) :
    rest <:+ t := by
  obtain ⟨spelling, -, hspelling⟩ := List.exists_of_findSome?_eq_some h
  obtain ⟨u, hu, hargument⟩ := Option.bind_eq_some_iff.1 hspelling
  obtain rfl := Text.eq_append_of_dropPrefix? hu
  refine List.IsSuffix.trans ?_ (List.suffix_append spelling u)
  -- what is left of an argument is behind its closing brace
  unfold argument? at hargument
  split at hargument
  · next u =>
      split at hargument
      · cases hargument
      · next hdrop _ =>
          obtain ⟨-, rfl⟩ := Prod.mk.inj (Option.some.inj hargument)
          have hcons := hdrop ▸ List.dropWhile_suffix (l := u) (fun c => decide (c ≠ '}'))
          exact (List.suffix_cons _ _).trans (hcons.trans (List.suffix_cons _ _))
      · cases hargument
  · cases hargument

/-- At its place a tag can be read. -/
theorem read?_of_mem_places (h : (place, argument) ∈ tag.places start t) :
    start ≤ place ∧ ∃ rest, tag.read? (t.drop (place - start)) = some (argument, rest) := by
  fun_induction places tag start t with
  | case1 => cases h
  -- a tag is read here, and the others are behind its argument
  | case2 start c t argument rest hread ih =>
      rcases List.mem_cons.1 h with h | h
      · obtain ⟨rfl, rfl⟩ := Prod.mk.inj h
        exact ⟨Nat.le_refl _, rest, by simpa using hread⟩
      · obtain ⟨hle, behind, hbehind⟩ := ih h
        have hrest := List.suffix_iff_eq_drop.1 (suffix_of_read? hread)
        have hplace : (c :: t).length - rest.length +
            (place - (start + ((c :: t).length - rest.length))) = place - start := by omega
        refine ⟨by omega, behind, ?_⟩
        rw [← hplace, ← List.drop_drop, ← hrest]
        exact hbehind
  | case3 start c t hread ih =>
      obtain ⟨hle, rest, hrest⟩ := ih h
      refine ⟨by omega, rest, ?_⟩
      rwa [show place - start = place - (start + 1) + 1 by omega, List.drop_succ_cons]

/-- The places of a tag go from left to right. -/
theorem pairwise_places (tag : Tag) (start : Nat) (t : Text) :
    (tag.places start t).Pairwise (·.1 < ·.1) := by
  fun_induction places tag start t with
  | case1 => exact List.Pairwise.nil
  | case2 start c t argument rest hread ih =>
      refine List.pairwise_cons.2 ⟨?_, ih⟩
      rintro ⟨place, behind⟩ hbehind
      have hle := (read?_of_mem_places hbehind).1
      have hshorter := length_of_read? hread
      dsimp only
      omega
  | case3 start c t hread ih => exact ih

end Tag

/-! ## The definitions of a line -/

/-- A definition in a line: the identifier, and the number of characters before the tag. -/
structure Definition where
  place : Nat
  id : Text
  deriving DecidableEq, Repr

section

variable {line : Text}

/-- What a tag defines in a line from left to right, where its argument gives the identifier. -/
def Tag.definitions (tag : Tag) (identify : Text → Text) (line : Text) : List Definition :=
  (tag.places 0 (Survey.stripComment line)).map fun (place, argument) => ⟨place, identify argument⟩

/-- What a tag defines is named by its arguments. -/
theorem Tag.map_id_definitions (tag : Tag) (identify : Text → Text) (line : Text) :
    (tag.definitions identify line).map (·.id) =
      (tag.arguments (Survey.stripComment line)).map identify := by
  rw [← map_snd_places tag 0, definitions, List.map_map, List.map_map]
  rfl

/-- And it is defined from left to right. -/
theorem Tag.pairwise_definitions (tag : Tag) (identify : Text → Text) (line : Text) :
    (tag.definitions identify line).Pairwise (·.place ≤ ·.place) :=
  (tag.pairwise_places 0 _).map _ fun _ _ h => Nat.le_of_lt h

/-- The sections that a line begins. -/
def headingDefinitions (line : Text) : List Definition :=
  Tag.heading.definitions Survey.sectionId line

/-- The labels that a line defines. -/
def labelDefinitions (line : Text) : List Definition := Tag.label.definitions id line

/-- The definitions of a line from left to right. -/
def definitionsOf (line : Text) : List Definition :=
  (headingDefinitions line ++ labelDefinitions line).insertionSort (·.place ≤ ·.place)

/-- The definitions of a line that a survey reads, in its order. -/
def definitionsRead (line : Text) : List Definition :=
  (headingDefinitions line).take 1 ++ labelDefinitions line

/-- Whether no heading of a line stands behind another one or behind a label. -/
def HeadingLeads (line : Text) : Prop :=
  (headingDefinitions line).length ≤ 1 ∧
    ∀ h ∈ headingDefinitions line, ∀ l ∈ labelDefinitions line, h.place ≤ l.place

instance decidableHeadingLeads (line : Text) : Decidable (HeadingLeads line) :=
  inferInstanceAs (Decidable (_ ∧ _))

/-- The labels of a line are named as they are. -/
theorem map_id_labelDefinitions (line : Text) :
    (labelDefinitions line).map (·.id) = labelsOf line :=
  (Tag.map_id_definitions Tag.label id line).trans (List.map_id _)

/-- All definitions of a line stand from left to right. -/
theorem pairwise_definitionsOf (line : Text) :
    (definitionsOf line).Pairwise (·.place ≤ ·.place) :=
  have : Std.Total fun a b : Definition => a.place ≤ b.place := ⟨fun _ _ => Nat.le_total _ _⟩
  have : IsTrans Definition fun a b => a.place ≤ b.place := ⟨fun _ _ _ => Nat.le_trans⟩
  List.pairwise_insertionSort _ _

/-- A line is read from left to right exactly if no heading stands behind another definition. -/
theorem definitionsRead_eq_iff : definitionsRead line = definitionsOf line ↔ HeadingLeads line := by
  constructor
  · intro h
    have hlength := congrArg List.length h
    rw [definitionsRead, definitionsOf, List.length_insertionSort, List.length_append,
      List.length_append, List.length_take] at hlength
    have hone : (headingDefinitions line).length ≤ 1 := by omega
    -- all headings are read, so they come first from left to right as well
    rw [definitionsRead, List.take_of_length_le hone] at h
    have hsorted := pairwise_definitionsOf line
    rw [← h, List.pairwise_append] at hsorted
    exact ⟨hone, hsorted.2.2⟩
  · rintro ⟨hone, hleads⟩
    rw [definitionsRead, definitionsOf, List.take_of_length_le hone]
    refine (List.Pairwise.insertionSort_eq (List.pairwise_append.2 ⟨?_, ?_, hleads⟩)).symm
    · exact Tag.pairwise_definitions _ _ line
    · exact Tag.pairwise_definitions _ _ line

end

namespace Survey

variable {s : Survey} {node : ReferenceNode} {number : Nat} {line x : Text}
  {labels xs : List Text} {opened : Option (List Text)} {numbered : List (Text × Nat)}

/-! ## The identifiers of a survey -/

/-- An identifier is kept where it occurs first. -/
theorem eraseDups_concat (xs : List Text) (x : Text) :
    (xs ++ [x]).eraseDups = if x ∈ xs.eraseDups then xs.eraseDups else xs.eraseDups ++ [x] := by
  rw [List.eraseDups_append]
  by_cases h : x ∈ xs
  · simp [List.removeAll, h]
  · simp [List.removeAll, h, List.eraseDups_cons]

/-- A definition counts where it is the first one of its identifier. -/
theorem ids_define_of_eq (h : s.ids = xs.eraseDups) :
    (s.define node).ids = (xs ++ [node.id]).eraseDups := by
  rw [ids_define, eraseDups_concat, h]

/-- Of the headings of a line the first one is defined, or has been before. -/
theorem ids_readHeading (h : s.ids = xs.eraseDups) (number : Nat) (line : Text) :
    (s.readHeading number (stripComment line)).ids =
      (xs ++ ((headingDefinitions line).take 1).map (·.id)).eraseDups := by
  rw [List.map_take, headingDefinitions, Tag.map_id_definitions, readHeading]
  cases hheadings : Tag.heading.arguments (stripComment line) with
  | nil => simpa using h
  | cons title titles =>
      have hone : ((title :: titles).map sectionId).take 1 = [sectionId title] := rfl
      rw [hone, eraseDups_concat, ← h]
      simp only [List.head?_cons, NodeTable.contains_iff]
      by_cases hid : sectionId title ∈ s.ids
      · rw [if_pos hid, if_pos hid]
      · rw [if_neg hid, if_neg hid]
        exact ids_define.trans (if_neg hid)

/-- An environment defines nothing. -/
theorem ids_readEnvironment (line code : Text) : (s.readEnvironment line code).ids = s.ids := by
  unfold readEnvironment
  split
  · split
    · rfl
    · split <;> rfl
  · dsimp only
    split
    · exact ids_closeEnvironment
    · rfl

/-- A label defines itself. -/
theorem ids_readLabel (number : Nat) (line label : Text) :
    (readLabel number line s label).ids = (s.define (labelNode number line label)).ids := by
  unfold readLabel
  dsimp only
  split <;> rfl

/-- So do the labels of a line, one after the other. -/
theorem ids_readLabels (h : s.ids = xs.eraseDups) :
    (labels.foldl (readLabel number line) s).ids = (xs ++ labels).eraseDups := by
  induction labels generalizing s xs with
  | nil => simpa using h
  | cons label labels ih =>
      rw [List.foldl_cons, List.append_cons]
      exact ih ((ids_readLabel number line label).trans (ids_define_of_eq h))

/-- **The identifiers after a line**: those before it and those that the line defines, each at its
first definition. -/
theorem ids_readLine (h : s.ids = xs.eraseDups) (number : Nat) (line : Text) :
    (s.readLine number line).ids = (xs ++ (definitionsRead line).map (·.id)).eraseDups := by
  obtain ⟨log, hlog⟩ := readLine_eq s number line
  rw [hlog, definitionsRead, List.map_append, map_id_labelDefinitions, ← List.append_assoc]
  exact ids_readLabels ((ids_readEnvironment _ _).trans (ids_readHeading h number line))

/-- And so do the definitions of all lines. -/
theorem ids_readLines (h : s.ids = xs.eraseDups) (numbered : List (Text × Nat)) :
    (s.readLines numbered).ids =
      (xs ++ ((numbered.map (·.1)).flatMap definitionsRead).map (·.id)).eraseDups := by
  induction numbered generalizing s xs with
  | nil => simpa [readLines] using h
  | cons l numbered ih =>
      rw [readLines_cons, List.map_cons, List.flatMap_cons, List.map_append, ← List.append_assoc]
      exact ih (ids_readLine h l.2 l.1)

/-- A node keeps all but its content until there is a label with its identifier. -/
theorem node?_readLines_of_not_mem (h : s.node? x = some node)
    (henvironment : s.environment = opened.map .ofLines)
    (hx : ∀ l ∈ numbered, x ∉ labelsOf l.1) :
    ∃ content, (s.readLines numbered).node? x = some { node with content := content } := by
  induction numbered generalizing s node opened with
  | nil => exact ⟨node.content, h⟩
  | cons l numbered ih =>
      have hline := node?_readLine_of_not_mem (hx l List.mem_cons_self) h henvironment l.2
      obtain ⟨content, hrest⟩ := ih hline (environment_readLine henvironment l.2 l.1)
        fun m hm => hx m (.tail l hm)
      exact ⟨content, hrest⟩

end Survey

/-! ## The nodes of a document -/

namespace ReferenceGraph

variable {t line x : Text} {before after : List Text}

/-- The node of a label tells of its last definition. -/
theorem node?_of_lines_eq (ht : t.lines = before ++ line :: after) (hx : x ∈ labelsOf line)
    (hafter : ∀ l ∈ after, x ∉ labelsOf l) :
    ∃ node, (ofText t).node? x = some node ∧ node.kind = .ofLabel x ∧
      node.line = before.length + 1 := by
  rw [ofText_eq, ht, Survey.readLines_zipIdx_append_cons, Survey.node?_toGraph]
  have hnode := Survey.node?_readLine_of_mem hx (Survey.empty.readLines (before.zipIdx 1))
    (1 + before.length)
  have hline := Survey.environment_readLine (Survey.environment_readLines_zipIdx before 1)
    (1 + before.length) line
  have hlater : ∀ l ∈ after.zipIdx (1 + before.length + 1), x ∉ labelsOf l.1 := fun l hl =>
    hafter l.1 (List.fst_mem_of_mem_zipIdx hl)
  obtain ⟨content, hlast⟩ := Survey.node?_readLines_of_not_mem hnode hline hlater
  rw [hlast]
  exact ⟨_, rfl, rfl, Nat.add_comm 1 before.length⟩

/-- **The order of the nodes.** The identifiers of the nodes of a document are those of the
definitions that a survey reads, each where it occurs first. These are the definitions of the
document from left to right, except for the lines where a heading stands behind another definition.
A label has the kind and the line of its last definition. -/
theorem ids_eq_eraseDups (t : Text) :
    (ofText t).nodes.map (·.id) = ((t.lines.flatMap definitionsRead).map (·.id)).eraseDups ∧
    (∀ line, definitionsRead line = definitionsOf line ↔ HeadingLeads line) ∧
    ((∀ l ∈ t.lines, HeadingLeads l) →
      (ofText t).nodes.map (·.id) = ((t.lines.flatMap definitionsOf).map (·.id)).eraseDups) ∧
    ∀ (before : List Text) (line : Text) (after : List Text) (x : Text),
      t.lines = before ++ line :: after → x ∈ labelsOf line → (∀ l ∈ after, x ∉ labelsOf l) →
      ∃ node, (ofText t).node? x = some node ∧ node.kind = .ofLabel x ∧
        node.line = before.length + 1 := by
  -- the survey reads one definition after the other, and a node is put where its identifier is
  -- first
  have hids : (ofText t).nodes.map (·.id) =
      ((t.lines.flatMap definitionsRead).map (·.id)).eraseDups := by
    have hempty : Survey.empty.ids = ([] : List Text).eraseDups := rfl
    rw [ofText_eq, Survey.ids_toGraph, Survey.ids_readLines hempty, List.zipIdx_map_fst,
      List.nil_append]
  refine ⟨hids, fun _ => definitionsRead_eq_iff, fun hleads => ?_,
    fun _ _ _ _ => node?_of_lines_eq⟩
  rw [hids, List.flatMap_congr fun l hl => definitionsRead_eq_iff.2 (hleads l hl)]

/-- A label takes over the node of a section, and another label is defined twice. -/
theorem ids_eq_eraseDups_of_shared_id :
    let t : Text := "\\section{A}\\label{b}\n\\label{sec:a} % \\label{c}\n\\label{b}".toList
    (ofText t).nodes.map (·.id) = ["sec:a".toList, "b".toList] ∧
      (∃ node, (ofText t).node? "sec:a".toList = some node ∧ node.kind = .section ∧
        node.line = 2) ∧
      ∃ node, (ofText t).node? "b".toList = some node ∧ node.kind = .generic ∧ node.line = 3 := by
  intro t
  obtain ⟨-, -, hids, hlast⟩ := ids_eq_eraseDups t
  have hlines : t.lines = ["\\section{A}\\label{b}".toList,
      "\\label{sec:a} % \\label{c}".toList, "\\label{b}".toList] := by decide +kernel
  have hdefinitions : (t.lines.flatMap definitionsOf).map (·.id) =
      ["sec:a".toList, "b".toList, "sec:a".toList, "b".toList] := by decide +kernel
  refine ⟨?_, ?_, ?_⟩
  · rw [hids (by rw [hlines]; decide +kernel), hdefinitions]
    decide +kernel
  · obtain ⟨node, hnode, hkind, hline⟩ :=
      hlast [_] _ [_] "sec:a".toList hlines (by decide +kernel) (by decide +kernel)
    exact ⟨node, hnode, hkind.trans (by decide +kernel), hline⟩
  · obtain ⟨node, hnode, hkind, hline⟩ :=
      hlast [_, _] _ [] "b".toList hlines (by decide +kernel) (by decide +kernel)
    exact ⟨node, hnode, hkind.trans (by decide +kernel), hline⟩

/-- The nodes are not always in the order of the definitions: a heading comes before the label that
stands in front of it. -/
theorem not_forall_ids_eq_eraseDups :
    ¬ ∀ t : Text, (ofText t).nodes.map (·.id) =
      ((t.lines.flatMap definitionsOf).map (·.id)).eraseDups := fun h =>
  absurd (h "\\label{a}\\section{B}".toList) (by decide +kernel)

end ReferenceGraph

end MathEdit
