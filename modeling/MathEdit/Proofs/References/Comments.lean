import MathEdit.Proofs.References.Owners
import MathEdit.Proofs.Token.Comments

/-! # Documents without comments

A survey reads the tags of a line off its code, so a line may be put in the place of another one
with the same tags: only what is kept of the lines themselves, the contents of the nodes, tells the
difference. The code of a line is its own code. When a document is written anew from the codes of
its lines, all that can still happen to a line is that its code ends in a carriage return, which
then becomes part of the line end; no tag ends in it.

* **`lex_stripComment`**, **`stripComment_eq_self`**: the code of a line has no comment.
* **`SameTags.of_stripComment`**: a line and its code have the same tags.
* **`Survey.Alike.readLine`**: lines with the same tags keep surveys alike.
* **`ReferenceGraph.ofText_withoutComments`**: the graph of a document without its comments. -/

namespace MathEdit

open Lexeme

/-! ## Comments of a code -/

section

variable {t u : Text}

/-- A text has a comment exactly where a percent sign is scanned apart from what comes before. -/
theorem exists_comment_iff :
    (∃ l ∈ lex t, l.kind = .comment) ↔ ∃ a b, t = a ++ '%' :: b ∧ Apart a ('%' :: b) := by
  constructor
  · rintro ⟨l, hl, hkind⟩
    obtain ⟨before, after, hsplit⟩ := List.append_of_mem hl
    obtain ⟨u, hbegins⟩ := exists_begins_of_mem_lex hl
    obtain ⟨⟨body, htext, -⟩, -⟩ := hbegins.of_comment hkind
    have ht : t = join before ++ '%' :: (body ++ join after) := by
      rw [← join_lex t, hsplit, join_append, join_cons, htext]
      rfl
    exact ⟨join before, _, ht, lex_append_iff.2 ⟨before, l :: after, ht ▸ hsplit, rfl⟩⟩
  · rintro ⟨a, b, rfl, hapart⟩
    refine ⟨(first '%' b).1, ?_, rfl⟩
    rw [hapart, lex_cons]
    exact List.mem_append_right _ List.mem_cons_self

/-- A carriage return at the end closes no name, so it does not take a comment away. -/
theorem exists_comment_concat (h : ∃ l ∈ lex t, l.kind = .comment) :
    ∃ l ∈ lex (t ++ ['\r']), l.kind = .comment := by
  obtain ⟨a, b, rfl, hapart⟩ := exists_comment_iff.1 h
  refine exists_comment_iff.2 ⟨a, b ++ ['\r'], by simp, ?_⟩
  rw [apart_cons_iff (by decide) (by decide) (by decide)] at hapart ⊢
  refine ⟨hapart.1, fun ⟨hopen, hcloses⟩ => ?_⟩
  rw [← List.cons_append] at hcloses
  have hnone : closesName ('%' :: b) = false :=
    Bool.eq_false_iff.2 fun hcloses => hapart.2 ⟨hopen, hcloses⟩
  exact absurd (forall_endsName_of_closesName_append hnone hcloses).2 (by decide)

namespace Survey

/-- The code of a line is scanned as it is in the line. -/
theorem lex_stripComment (line : Text) :
    lex (stripComment line) = (lex line).takeWhile fun l => l.kind ≠ .comment :=
  (lex_join_of_append List.takeWhile_append_dropWhile.symm).1

/-- A line without its comment has no comment. -/
theorem kind_ne_of_mem_lex_stripComment {line : Text} {l : Lexeme}
    (h : l ∈ lex (stripComment line)) : l.kind ≠ .comment := by
  rw [lex_stripComment] at h
  simpa using List.mem_takeWhile_imp h

/-- And a line that has none keeps all of itself. -/
theorem stripComment_eq_self (h : ∀ l ∈ lex t, l.kind ≠ .comment) : stripComment t = t := by
  rw [stripComment, List.takeWhile_eq_self_iff.2 (by simpa using h), join_lex]

end Survey

end

/-! ## Tags before a carriage return -/

namespace Text

/-- A line without the carriage return that comes before a line feed. -/
def withoutReturn (line : Text) : Text :=
  if line.getLast? = some '\r' then line.dropLast else line

/-- A carriage return at the end of a line is all that can be taken off. -/
theorem withoutReturn_cases (line : Text) :
    withoutReturn line = line ∨ line = withoutReturn line ++ ['\r'] := by
  unfold withoutReturn
  split
  · next h => exact .inr (List.dropLast_append_getLast? _ h).symm
  · exact .inl rfl

/-- What follows a front is followed by what is appended, unless the front ends there. -/
theorem dropPrefix?_concat (p t : Text) (c : Char) :
    p = t ++ [c] ∨ dropPrefix? p (t ++ [c]) = (dropPrefix? p t).map (· ++ [c]) := by
  cases h : dropPrefix? p t with
  | some rest =>
      obtain rfl := eq_append_of_dropPrefix? h
      rw [List.append_assoc, dropPrefix?_append]
      exact .inr rfl
  | none =>
      cases hrest : dropPrefix? p (t ++ [c]) with
      | none => exact .inr rfl
      | some rest =>
          have hsplit := eq_append_of_dropPrefix? hrest
          -- a prefix of the longer text is all of it, or a prefix of the shorter one
          rcases List.eq_nil_or_concat' rest with rfl | ⟨rest, d, rfl⟩
          · exact .inl (by rw [hsplit, List.append_nil])
          · rw [← List.append_assoc] at hsplit
            rw [(List.append_inj' hsplit rfl).1, dropPrefix?_append] at h
            cases h

end Text

namespace Tag

variable {t argument rest : Text} {c : Char}

/-- An argument is what stands in braces up to the first closing one, unless it is empty. -/
theorem argument?_eq_some_iff : argument? t = some (argument, rest) ↔
    t = '{' :: argument ++ '}' :: rest ∧ argument ≠ [] ∧ '}' ∉ argument := by
  constructor
  · intro h
    unfold argument? at h
    split at h
    · next u =>
        have hu := List.takeWhile_append_dropWhile (p := (· ≠ '}')) (l := u)
        split at h
        · cases h
        · next d behind hdrop hne =>
            obtain ⟨rfl, rfl⟩ := Prod.mk.inj (Option.some.inj h)
            -- the first character that ends the argument is the closing brace
            have hd := Text.head?_dropWhile (p := (· ≠ '}')) u d (by rw [hdrop]; rfl)
            obtain rfl : d = '}' := by simpa using hd
            rw [hdrop] at hu
            exact ⟨congrArg ('{' :: ·) hu.symm, hne,
              fun hmem => by simpa using List.mem_takeWhile_imp hmem⟩
        · cases h
    · cases h
  · rintro ⟨rfl, hne, hfree⟩
    have hall : ∀ d ∈ argument, (decide (d ≠ '}')) = true := by
      intro d hd
      exact decide_eq_true fun heq => hfree (heq ▸ hd)
    have hstop : ∀ d ∈ ('}' :: rest : Text).head?, (decide (d ≠ '}')) = false := by
      rintro d ⟨⟩
      rfl
    rw [List.cons_append, argument?, Text.takeWhile_append_of_all hall hstop,
      Text.dropWhile_append_of_all hall hstop]
    cases argument with
    | nil => exact absurd rfl hne
    | cons d argument => rfl

/-- A character behind an argument is left behind it, unless it closes one. -/
theorem argument?_concat (hc : c ≠ '}') (t : Text) :
    argument? (t ++ [c]) = (argument? t).map fun (argument, rest) => (argument, rest ++ [c]) := by
  ext ⟨argument, rest⟩
  simp only [Option.map_eq_some_iff, Prod.exists, argument?_eq_some_iff, Prod.mk.injEq]
  constructor
  · rintro ⟨ht, hne, hfree⟩
    rcases List.eq_nil_or_concat' rest with rfl | ⟨rest, d, rfl⟩
    · exact absurd (List.append_inj' ht rfl).2 (by simpa using hc)
    · rw [← List.cons_append, ← List.append_assoc] at ht
      obtain ⟨rfl, hd⟩ := List.append_inj' ht rfl
      exact ⟨argument, rest, ⟨rfl, hne, hfree⟩, rfl, by rw [hd]⟩
  · rintro ⟨_, rest, ⟨rfl, hne, hfree⟩, rfl, rfl⟩
    exact ⟨by simp, hne, hfree⟩

/-- A tag is read in front of what is appended. -/
theorem read?_concat (hc : c ≠ '}') (tag : Tag) (t : Text) :
    tag.read? (t ++ [c]) = (tag.read? t).map fun (argument, rest) => (argument, rest ++ [c]) := by
  have hspelling : ∀ spelling : Text,
      (Text.dropPrefix? spelling (t ++ [c])).bind argument? =
        ((Text.dropPrefix? spelling t).bind argument?).map
          fun (argument, rest) => (argument, rest ++ [c]) := by
    intro spelling
    rcases Text.dropPrefix?_concat spelling t c with rfl | h
    · -- the spelling is complete only with the appended character, and no argument follows it
      have hnone : Text.dropPrefix? (t ++ [c]) t = none := by
        refine Option.eq_none_iff_forall_ne_some.2 fun rest h => ?_
        simpa using congrArg List.length (Text.eq_append_of_dropPrefix? h)
      have hnil := Text.dropPrefix?_append (t ++ [c]) []
      rw [List.append_nil] at hnil
      rw [hnil, hnone]
      rfl
    · rw [h]
      cases Text.dropPrefix? spelling t with
      | none => rfl
      | some rest => exact argument?_concat hc rest
  rw [read?, read?, List.map_findSome?]
  exact congrArg (List.findSome? · _) (funext hspelling)

/-- A tag in front gives its argument first. -/
theorem arguments_of_read?_eq_some {tag : Tag} {d : Char}
    (h : tag.read? (d :: t) = some (argument, rest)) :
    tag.arguments (d :: t) = argument :: tag.arguments rest := by
  rw [arguments]
  split <;> simp_all

/-- Where no tag is in front, the first character is passed over. -/
theorem arguments_of_read?_eq_none {tag : Tag} {d : Char} (h : tag.read? (d :: t) = none) :
    tag.arguments (d :: t) = tag.arguments t := by
  rw [arguments]
  split <;> simp_all

/-- A character that closes no brace completes no argument at the end of a text. -/
theorem arguments_concat (hc : c ≠ '}') (tag : Tag) (t : Text) :
    tag.arguments (t ++ [c]) = tag.arguments t := by
  fun_induction arguments tag t with
  | case1 =>
      -- the character alone is no tag
      have hnil : tag.read? [] = none := by
        refine Option.eq_none_iff_forall_ne_some.2 fun read h => ?_
        exact absurd (length_of_read? h) (Nat.not_lt_zero _)
      have hone : tag.read? [c] = none := by simpa [hnil] using read?_concat hc tag []
      rw [List.nil_append, arguments_of_read?_eq_none hone, arguments]
  | case2 d t argument rest h ih =>
      have hread := read?_concat hc tag (d :: t)
      rw [h, Option.map_some, List.cons_append] at hread
      rw [List.cons_append, arguments_of_read?_eq_some hread, ih]
  | case3 d t h ih =>
      have hread := read?_concat hc tag (d :: t)
      rw [h, Option.map_none, List.cons_append] at hread
      rw [List.cons_append, arguments_of_read?_eq_none hread, ih]

end Tag

/-- Texts that do not end in a character occur before it where they did without it. -/
theorem textsAfter_concat {patterns : List Text} {c : Char}
    (h : ∀ p ∈ patterns, ∃ d, p.getLast? = some d ∧ d ≠ c) (t : Text) :
    textsAfter patterns (t ++ [c]) = (textsAfter patterns t).map (· ++ [c]) := by
  -- no pattern ends in the character, so none is found that was not there before
  have hdrop : ∀ u, ∀ p ∈ patterns,
      Text.dropPrefix? p (u ++ [c]) = (Text.dropPrefix? p u).map (· ++ [c]) := by
    intro u p hp
    rcases Text.dropPrefix?_concat p u c with rfl | heq
    · obtain ⟨d, hlast, hne⟩ := h _ hp
      rw [List.getLast?_concat] at hlast
      exact absurd (Option.some.inj hlast).symm hne
    · exact heq
  induction t with
  | nil =>
      have hnone : patterns.filterMap (Text.dropPrefix? · [c]) = [] := by
        refine List.filterMap_eq_nil_iff.2 fun p hp => ?_
        obtain ⟨d, hlast, -⟩ := h p hp
        obtain ⟨q, p, rfl⟩ := List.exists_cons_of_ne_nil (l := p) (by rintro rfl; cases hlast)
        exact hdrop [] _ hp
      simp [textsAfter, hnone]
  | cons d t ih =>
      have hhere : patterns.filterMap (Text.dropPrefix? · (d :: (t ++ [c]))) =
          (patterns.filterMap (Text.dropPrefix? · (d :: t))).map (· ++ [c]) := by
        rw [List.map_filterMap]
        exact List.filterMap_congr fun p hp => hdrop (d :: t) p hp
      rw [List.cons_append, textsAfter, textsAfter, List.map_append, ih, hhere]

/-! ## Lines with the same tags -/

section

variable {code : Text} {c : Char}

/-- The texts behind opening tags grow by a character that is no closing brace. -/
theorem afterOpenings_concat (hc : c ≠ '}') (code : Text) :
    afterOpenings (code ++ [c]) = (afterOpenings code).map (· ++ [c]) := by
  refine textsAfter_concat (fun p hp => ⟨'}', ?_, hc.symm⟩) code
  obtain ⟨name, -, rfl⟩ := List.mem_map.1 hp
  exact List.getLast?_concat

/-- And no closing tag ends in such a character. -/
theorem hasClosing_concat (hc : c ≠ '}') (code : Text) :
    hasClosing (code ++ [c]) = hasClosing code := by
  have hends : ∀ p ∈ numberedNames.map Environment.closingTag,
      ∃ d, p.getLast? = some d ∧ d ≠ c := by
    intro p hp
    obtain ⟨name, -, rfl⟩ := List.mem_map.1 hp
    exact ⟨'}', List.getLast?_concat, hc.symm⟩
  rw [hasClosing, hasClosing, textsAfter_concat hends]
  simp

end

/-- Two lines with the same tags outside of their comments. -/
structure SameTags (line line' : Text) : Prop where
  headings : headingsOf line = headingsOf line'
  labels : labelsOf line = labelsOf line'
  references : referencesOf line = referencesOf line'
  opens : opens line = opens line'
  closes : closes line = closes line'

/-- **The tags of a line** are those of its code, also without a carriage return at its end. -/
theorem SameTags.of_stripComment {line code : Text}
    (h : Survey.stripComment line = code ∨ Survey.stripComment line = code ++ ['\r']) :
    SameTags line code := by
  have hcode : Survey.stripComment code = code := by
    refine Survey.stripComment_eq_self fun l hl hkind => ?_
    rcases h with rfl | h
    · exact Survey.kind_ne_of_mem_lex_stripComment hl hkind
    · obtain ⟨m, hm, hmkind⟩ := exists_comment_concat ⟨l, hl, hkind⟩
      exact Survey.kind_ne_of_mem_lex_stripComment (h ▸ hm) hmkind
  have hreturn : ('\r' : Char) ≠ '}' := by decide
  -- a carriage return is no closing brace, so it is behind the last tag
  constructor <;> simp only [headingsOf, labelsOf, referencesOf, MathEdit.opens, MathEdit.closes,
    hcode] <;> rcases h with h | h <;> rw [h]
  · exact Tag.arguments_concat hreturn _ _
  · exact Tag.arguments_concat hreturn _ _
  · exact Tag.arguments_concat hreturn _ _
  · rw [afterOpenings_concat hreturn]
    cases afterOpenings code with
    | nil => rfl
    | cons rest _ => exact congrArg not (hasClosing_concat hreturn rest)
  · exact hasClosing_concat hreturn _

/-! ## Surveys that are alike -/

/-- A node as it is apart from its content. -/
def ReferenceNode.withoutContent (n : ReferenceNode) : ReferenceNode := { n with content := [] }

/-- A node is named whatever its content is. -/
@[simp] theorem ReferenceNode.id_withoutContent (n : ReferenceNode) : n.withoutContent.id = n.id :=
  rfl

namespace Survey

/-- Two surveys that agree on all but the contents of nodes and the lines of the open
environment. -/
structure Alike (s s' : Survey) : Prop where
  nodes : s.nodes.map (·.withoutContent) = s'.nodes.map (·.withoutContent)
  edges : s.edges = s'.edges
  heading : s.heading = s'.heading
  label : s.label = s'.label
  labels : s.environment.map (·.labels) = s'.environment.map (·.labels)

namespace Alike

variable {s s' : Survey} {node node' : ReferenceNode} {e e' : OpenEnvironment} {line line' : Text}
  {lines lines' : List Text}

/-- Surveys that are alike have the same identifiers. -/
theorem ids (h : s.Alike s') : s.ids = s'.ids := by
  simpa only [NodeTable.ids, List.map_map, Function.comp_def, ReferenceNode.id_withoutContent] using
    congrArg (List.map (·.id)) h.nodes

/-- Nodes that differ in their contents only may be defined on either side. -/
theorem define (h : s.Alike s') (hnode : node.withoutContent = node'.withoutContent) :
    (s.define node).Alike (s'.define node') where
  nodes := by
    -- a node with the same identifier is replaced on both sides or on none
    have hid : node.id = node'.id := by simpa using congrArg ReferenceNode.id hnode
    simp only [Survey.define, NodeTable.nodes_upsert, h.ids, hid]
    split
    · have hreplace : ∀ (m : ReferenceNode) (nodes : List ReferenceNode),
          (nodes.map fun n => if n.id = node'.id then m else n).map (·.withoutContent) =
            (nodes.map (·.withoutContent)).map
              fun n => if n.id = node'.id then m.withoutContent else n := by
        intro m nodes
        rw [List.map_map, List.map_map]
        refine List.map_congr_left fun n _ => ?_
        simp only [Function.comp_apply]
        split <;> simp_all [ReferenceNode.withoutContent]
      rw [hreplace, hreplace, h.nodes, hnode]
    · rw [List.map_append, List.map_append, h.nodes, List.map_singleton, List.map_singleton, hnode]
  edges := by simpa using h.edges
  heading := by simpa using h.heading
  label := by simpa using h.label
  labels := by simpa using h.labels

/-- The headings of a line are among its tags. -/
theorem readHeading (h : s.Alike s') (hline : SameTags line line') (number : Nat) :
    (s.readHeading number (stripComment line)).Alike
      (s'.readHeading number (stripComment line')) := by
  have hhead : (Tag.heading.arguments (stripComment line)).head? =
      (Tag.heading.arguments (stripComment line')).head? := congrArg List.head? hline.headings
  unfold Survey.readHeading
  rw [hhead]
  split
  · exact h
  · next title _ =>
      simp only [NodeTable.contains_iff, h.ids]
      split
      · exact { h with heading := rfl, label := rfl }
      · exact { h.define rfl with heading := rfl, label := rfl }

/-- An environment that ends gives its labels other contents and nothing else. -/
theorem closeEnvironment (h : s.Alike s') (he : e.labels = e'.labels) :
    (s.closeEnvironment e).Alike (s'.closeEnvironment e') where
  nodes := by
    have hnodes : ∀ (f : Survey) (e : OpenEnvironment),
        (f.closeEnvironment e).nodes.map (·.withoutContent) = f.nodes.map (·.withoutContent) := by
      intro f e
      simp only [Survey.closeEnvironment, NodeTable.nodes_foldl_setContent, List.map_map]
      refine List.map_congr_left fun n _ => ?_
      simp only [Function.comp_apply]
      split <;> rfl
    rw [hnodes, hnodes, h.nodes]
  edges := h.edges
  heading := h.heading
  label := by simp only [Survey.closeEnvironment, he, h.label]
  labels := rfl

/-- A line with the same tags opens or ends an environment on both sides or on none. -/
theorem readEnvironment (h : s.Alike s') (hline : SameTags line line') :
    (s.readEnvironment line (stripComment line)).Alike
      (s'.readEnvironment line' (stripComment line')) := by
  have hlabels := h.labels
  cases he : s.environment with
  | none =>
      rw [he, Option.map_none, eq_comm, Option.map_eq_none_iff] at hlabels
      rw [readEnvironment_of_none he, readEnvironment_of_none hlabels, hline.opens]
      split
      · exact { h with labels := rfl }
      · exact h
  | some e =>
      rw [he, Option.map_some, eq_comm, Option.map_eq_some_iff] at hlabels
      obtain ⟨e', he', hlabels⟩ := hlabels
      rw [readEnvironment_of_some he, readEnvironment_of_some he', hline.closes]
      split
      -- the labels are the same, though the lines are not
      · exact h.closeEnvironment hlabels.symm
      · exact { h with labels := congrArg some hlabels.symm }

/-- A label may stand in either line. -/
theorem readLabel (h : s.Alike s') (number : Nat) (label : Text) :
    (Survey.readLabel number line s label).Alike (Survey.readLabel number line' s' label) := by
  have hdefine : (s.define (labelNode number line label)).Alike
      (s'.define (labelNode number line' label)) := h.define rfl
  have hlabels := h.labels
  cases he : s.environment with
  | none =>
      rw [he, Option.map_none, eq_comm, Option.map_eq_none_iff] at hlabels
      simp only [Survey.readLabel, environment_define, he, hlabels]
      exact { hdefine with label := rfl, labels := rfl }
  | some e =>
      rw [he, Option.map_some, eq_comm, Option.map_eq_some_iff] at hlabels
      obtain ⟨e', he', hlabels⟩ := hlabels
      simp only [Survey.readLabel, environment_define, he, he']
      exact { hdefine with labels := congrArg (some <| · ++ [label]) hlabels.symm }

/-- So may several ones. -/
theorem readLabels (h : s.Alike s') (line line' : Text) (number : Nat) (labels : List Text) :
    (labels.foldl (Survey.readLabel number line) s).Alike
      (labels.foldl (Survey.readLabel number line') s') := by
  induction labels generalizing s s' with
  | nil => exact h
  | cons label labels ih => exact ih (h.readLabel number label)

/-- The owner is the same. -/
theorem owner (h : s.Alike s') : s.owner = s'.owner := by
  have hlabels :
      s.environment.bind (·.labels.getLast?) = s'.environment.bind (·.labels.getLast?) := by
    simpa only [Option.bind_map, Function.comp_def] using
      congrArg (Option.bind · List.getLast?) h.labels
  rw [Survey.owner, Survey.owner, hlabels, h.label, h.heading]

/-- And so are the edges from it. -/
theorem readReferences (h : s.Alike s') (targets : List Text) :
    (targets.foldl Survey.readReference s).Alike (targets.foldl Survey.readReference s') := by
  have hedge : s.edge? = s'.edge? := funext fun target => by rw [edge?, edge?, h.owner]
  rw [readReferences_eq, readReferences_eq]
  refine { h with edges := ?_ }
  rw [EdgeLog.edges_foldl_push, EdgeLog.edges_foldl_push, h.edges, hedge]

/-- **Lines with the same tags** keep surveys alike. -/
theorem readLine (h : s.Alike s') (hline : SameTags line line') (number : Nat) :
    (s.readLine number line).Alike (s'.readLine number line') := by
  have htags := (h.readHeading hline number).readEnvironment hline
  have hlabels := htags.readLabels line line' number (labelsOf line)
  have hreferences := hlabels.readReferences (referencesOf line)
  have hread : s'.readLine number line' = (referencesOf line').foldl Survey.readReference
      ((labelsOf line').foldl (Survey.readLabel number line')
        ((s'.readHeading number (stripComment line')).readEnvironment line'
          (stripComment line'))) := rfl
  rw [hread, ← hline.references, ← hline.labels]
  exact hreferences

/-- Lines with the same tags, one by one, keep surveys alike. -/
theorem readLines (h : s.Alike s') {lines lines' : List Text}
    (hlines : List.Forall₂ SameTags lines lines') (n : Nat) :
    (s.readLines (lines.zipIdx n)).Alike (s'.readLines (lines'.zipIdx n)) := by
  induction hlines generalizing s s' n with
  | nil => exact h
  | cons hline _ ih =>
      rw [List.zipIdx_cons, List.zipIdx_cons, readLines_cons, readLines_cons]
      exact ih (h.readLine hline n) (n + 1)

/-- The graphs of surveys that are alike differ at most in the contents of their nodes. -/
theorem toGraph (h : s.Alike s') : s.toGraph.edges = s'.toGraph.edges ∧
    s.toGraph.nodes.map (·.withoutContent) = s'.toGraph.nodes.map (·.withoutContent) := by
  constructor
  · have hdefined : ∀ x, s.contains x = s'.contains x := fun x =>
      Bool.eq_iff_iff.2 (by rw [NodeTable.contains_iff, NodeTable.contains_iff, h.ids])
    simp only [Survey.toGraph, hdefined, h.edges]
  · -- the count of a node is read off the edges, so it can be put in behind
    have hcount : ∀ f : Survey, f.toGraph.nodes.map (·.withoutContent) =
        (f.nodes.map (·.withoutContent)).map
          fun n => { n with refCount := f.edges.countP (·.target = n.id) } := by
      intro f
      simp only [Survey.toGraph, EdgeLog.refCount_eq]
      rw [List.map_map, List.map_map]
      rfl
    rw [hcount, hcount, h.nodes, h.edges]

end Alike

end Survey

/-! ## Documents without comments -/

namespace Text

/-- A document whose lines end in front of their comments, each with a line feed behind it. -/
def withoutComments (t : Text) : Text :=
  t.lines.flatMap fun line => Survey.stripComment line ++ ['\n']

/-- Texts that a line feed is put behind are the lines of the whole, without the carriage returns in
front of the line feeds. -/
theorem lines_flatMap {lines : List Text} (h : ∀ l ∈ lines, '\n' ∉ l) :
    Text.lines (lines.flatMap (· ++ ['\n'])) = lines.map withoutReturn := by
  have hpieces : (lines.flatMap (· ++ ['\n'])).splitOn '\n' = lines ++ [[]] := by
    have hjoin := intercalate_concat lines []
    rw [List.append_nil] at hjoin
    rw [← hjoin]
    refine List.splitOn_intercalate '\n' (fun l hl => ?_) (by simp)
    rcases List.mem_append.1 hl with hl | hl
    · exact h l hl
    · simp [List.mem_singleton.1 hl]
  unfold Text.lines
  dsimp only
  rw [hpieces, List.dropLast_concat, List.getLast?_concat]
  rfl

/-- The lines of a document without comments are its lines without theirs. -/
theorem lines_withoutComments (t : Text) :
    (withoutComments t).lines =
      t.lines.map fun line => (Survey.stripComment line).withoutReturn := by
  have hcodes : withoutComments t = (t.lines.map Survey.stripComment).flatMap (· ++ ['\n']) := by
    rw [List.flatMap_map]
    rfl
  rw [hcodes, lines_flatMap, List.map_map]
  · rfl
  · intro code hcode hmem
    obtain ⟨line, hline, rfl⟩ := List.mem_map.1 hcode
    exact newline_not_mem_of_mem_lines hline (NumberedTag.mem_of_mem_stripComment hmem)

end Text

/-- **Comments do not matter for the graph.** A document whose lines end in front of their comments
has the edges and the nodes of the document itself, in their order. Its nodes may only have other
contents. -/
theorem ReferenceGraph.ofText_withoutComments (t : Text) :
    (ofText t.withoutComments).edges = (ofText t).edges ∧
      (ofText t.withoutComments).nodes.map (·.withoutContent) =
        (ofText t).nodes.map (·.withoutContent) := by
  have hlines : List.Forall₂ SameTags t.lines t.withoutComments.lines := by
    rw [Text.lines_withoutComments, List.forall₂_map_right_iff]
    refine List.forall₂_same.2 fun line _ => SameTags.of_stripComment ?_
    exact (Text.withoutReturn_cases (Survey.stripComment line)).imp_left Eq.symm
  have hempty : Survey.empty.Alike Survey.empty := ⟨rfl, rfl, rfl, rfl, rfl⟩
  obtain ⟨hedges, hnodes⟩ := (hempty.readLines hlines 1).toGraph
  exact ⟨hedges.symm, hnodes.symm⟩

end MathEdit
