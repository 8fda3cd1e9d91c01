import MathEdit.Proofs.Equation.Inner

/-! # The skeleton of a split equation

Where an equation is split depends only on its levels of nesting and on its equality signs. A split
keeps them in their order and puts them into an environment, so every `=` that was at the top is a
level deeper, and the rows cannot be split again. They can if the counter goes around a level
deeper, as it does behind 2³¹ - 1 open braces.

* **`skeleton t`**: the lexemes of a text that open or close a level, and its equality signs.
* **`Equation.skeleton_split?`**: a split puts the tags of an environment around the skeleton.
* **`Equation.split_of_split?`**: what has been split has no breaks left.
* **`Equation.steep`**: an equation that the counter cannot hold a level deeper. -/

namespace MathEdit

open Lexeme

/-! ## Skeletons -/

/-- Whether a lexeme of this kind opens or closes a level or is an equality sign. -/
def Token.Kind.isStructural : Token.Kind → Bool
  | opening _ | closing _ => true
  | operator sign => sign = '='
  | _ => false

/-- The lexemes of a run that open or close a level, and the equality signs. -/
def structural (ls : List Lexeme) : List Lexeme := ls.filter (·.kind.isStructural)

/-- The lexemes of a text that open or close a level, and its equality signs. -/
def skeleton (t : Text) : List Lexeme := structural (lex t)

/-- The structure of a run is that of its parts. -/
@[simp] theorem structural_append (ls ms : List Lexeme) :
    structural (ls ++ ms) = structural ls ++ structural ms := List.filter_append _ _

/-- And that of its first lexeme and of the rest. -/
theorem structural_cons (l : Lexeme) (ls : List Lexeme) :
    structural (l :: ls) = structural [l] ++ structural ls := structural_append [l] ls

/-- What is left out opens and closes nothing. -/
theorem shift_of_not_isStructural (k : Token.Kind) (h : k.isStructural = false) : k.shift = 0 := by
  revert h
  cases k <;> simp [Token.Kind.isStructural, Token.Kind.shift]

/-- Blanks are no part of a skeleton. -/
theorem structural_withoutBlanks (ls : List Lexeme) :
    structural (withoutBlanks ls) = structural ls := by
  rw [structural, withoutBlanks, List.filter_filter]
  apply List.filter_congr
  intro l hl
  by_cases hkind : l.kind = .blank <;> simp [hkind, Token.Kind.isStructural]

/-- For a skeleton it is enough to scan without blanks. -/
theorem skeleton_eq (t : Text) : skeleton t = structural (solid t) := by
  rw [solid, structural_withoutBlanks, skeleton]

/-- There is nothing in the skeleton of an empty text. -/
@[simp] theorem skeleton_nil : skeleton [] = [] := by simp [skeleton, structural]

/-- A blank in front is no part of the skeleton. -/
theorem skeleton_cons_of_isBlank {c : Char} {t : Text} (hc : Text.isBlank c = true) :
    skeleton (c :: t) = skeleton t := by
  rw [skeleton_eq, skeleton_eq, solid_cons_of_isBlank hc]

/-- So trimming in front keeps it. -/
theorem skeleton_trimStart (t : Text) : skeleton (Text.trimStart t) = skeleton t := by
  rw [skeleton_eq, skeleton_eq, solid_trimStart]

/-- So do any number of blanks in front. -/
theorem skeleton_blanks_append {t : Text} (h : ∀ c ∈ t, Text.isBlank c = true) (u : Text) :
    skeleton (t ++ u) = skeleton u := by
  induction t with
  | nil => rfl
  | cons c t ih =>
      obtain ⟨hc, ht⟩ := List.forall_mem_cons.1 h
      rw [List.cons_append, skeleton_cons_of_isBlank hc, ih ht]

/-! ## Whitespace behind a text -/

/-- Whether all lexemes of a text are complete. -/
def Complete (t : Text) : Prop := ∀ l ∈ lex t, l.Complete

/-- A text without lexemes is complete. -/
theorem complete_nil : Complete [] := by simp [Complete]

/-- A complete lexeme waits for no name. -/
theorem Lexeme.Complete.not_awaitsName {l : Lexeme} (h : l.Complete) : ¬ l.AwaitsName := by
  rintro ⟨name, htakes, rfl⟩
  exact h.command name htakes rfl

/-- A lexeme that begins a text adds itself to the skeleton of what is behind it. -/
theorem skeleton_text_append {l : Lexeme} {u : Text} (h : Begins l u) :
    skeleton (l.text ++ u) = structural [l] ++ skeleton u := by
  rw [skeleton, lex_text_append h, ← List.singleton_append, structural_append, skeleton]

/-- A complete lexeme at the end of a text shows the same when whitespace follows. -/
theorem Lexeme.Complete.skeleton_append {l : Lexeme} {c : Char} (hl : l.Complete)
    (h : Begins l []) (hc : Text.isBlank c = true) (u : Text) :
    skeleton (l.text ++ c :: u) = structural [l] ++ skeleton u := by
  by_cases hkind : l.kind = .blank
  · -- the whitespace makes a run of blanks longer
    have hnone : structural [l] = [] := by simp [structural, hkind, Token.Kind.isStructural]
    rw [skeleton_blanks_append (h.of_kind_blank hkind).1, skeleton_cons_of_isBlank hc, hnone,
      List.nil_append]
  · by_cases hslash : l = ⟨.plain, ['\\']⟩
    · -- a backslash and the whitespace become an escape, which shows as little
      subst hslash
      have hescaped : Begins ⟨.escaped c, ['\\', c]⟩ u := .escaped (isAlpha_of_isBlank hc)
      exact skeleton_text_append hescaped
    · rw [skeleton_text_append (hl.begins h hkind hslash hc), skeleton_cons_of_isBlank hc]

/-- Complete lexemes before a blank add themselves, whatever comes behind the blank. -/
theorem skeleton_join_append {ls : List Lexeme} {c : Char} (hls : BeginsEach ls [])
    (hcomplete : ∀ l ∈ ls, l.Complete) (hc : Text.isBlank c = true) (u : Text) :
    skeleton (join ls ++ c :: u) = structural ls ++ skeleton u := by
  induction ls with
  | nil => exact skeleton_cons_of_isBlank hc
  | cons l ls ih =>
      obtain ⟨hl, hls⟩ := hls
      obtain ⟨hlcomplete, hcomplete⟩ := List.forall_mem_cons.1 hcomplete
      rw [List.append_nil] at hl
      rw [join_cons, List.append_assoc, structural_cons, List.append_assoc]
      cases ls with
      | nil => exact hlcomplete.skeleton_append hl hc u
      | cons m ls =>
          -- the lexeme has another one behind it, so it ends where it did
          have hne : join (m :: ls) ≠ [] := by simp [hls.1.text_ne_nil]
          have hbegins := hl.append (v := c :: u) hne fun hawaits =>
            absurd hawaits hlcomplete.not_awaitsName
          rw [skeleton_text_append hbegins, ih hls hcomplete]

/-- Whitespace behind a complete text separates its skeleton from what follows. -/
theorem Complete.skeleton_append {s : Text} {c : Char} (hs : Complete s)
    (hc : Text.isBlank c = true) (u : Text) :
    skeleton (s ++ c :: u) = skeleton s ++ skeleton u := by
  have hjoin := skeleton_join_append (beginsEach_lex s) hs hc u
  rwa [join_lex] at hjoin

/-- Blanks behind a complete text are no part of the skeleton. -/
theorem Complete.skeleton_append_of_isBlank {s blanks : Text} (hs : Complete s)
    (hblanks : ∀ c ∈ blanks, Text.isBlank c = true) : skeleton (s ++ blanks) = skeleton s := by
  cases blanks with
  | nil => rw [List.append_nil]
  | cons c blanks =>
      obtain ⟨hc, hblanks⟩ := List.forall_mem_cons.1 hblanks
      have hnone := skeleton_blanks_append hblanks []
      rw [List.append_nil, skeleton_nil] at hnone
      rw [hs.skeleton_append hc, hnone, List.append_nil]

/-! ## Trimmed texts -/

/-- A complete lexeme alone is a complete text. -/
theorem complete_text {l : Lexeme} (h : Begins l []) (hl : l.Complete) : Complete l.text := by
  intro m hm
  rw [← List.append_nil l.text, lex_text_append h, lex_nil] at hm
  obtain rfl := List.mem_singleton.1 hm
  exact hl

/-- Blanks are complete. -/
theorem complete_of_isBlank {t : Text} (h : ∀ c ∈ t, Text.isBlank c = true) : Complete t := by
  by_cases hnil : t = []
  · rw [hnil]
    exact complete_nil
  · have hblank : Begins ⟨.blank, t⟩ [] := .blank hnil h (by simp [Stops])
    exact complete_text hblank ⟨by simp, by simp⟩

/-- Before the whitespace at the end of a complete lexeme there is a backslash or more of it. -/
theorem Lexeme.Complete.isBlank_of_concat {l : Lexeme} {front : Text} {c : Char} (hl : l.Complete)
    (h : Begins l []) (htext : l.text = front ++ [c]) (hc : Text.isBlank c = true) :
    front = ['\\'] ∨ ∀ d ∈ front, Text.isBlank d = true := by
  have hlast : l.text.getLast? = some c := by rw [htext, List.getLast?_concat]
  -- only blanks, comments and escaped blanks end in a blank
  rcases h.kind_of_getLast? hlast hc with hkind | hkind | hkind
  · right
    intro d hd
    exact (h.of_kind_blank hkind).1 d (by simp [htext, hd])
  · exact absurd hkind hl.comment
  · left
    cases h with
    | @escaped d =>
        have htext : ['\\'] ++ [d] = front ++ [c] := htext
        exact (List.append_inj' htext rfl).1.symm
    | sign h => exact absurd hkind ((ne_of_sign? h).2.2 c)
    | @word name => exact absurd hkind ((wordKind_ne name).2.2 c)
    | _ => cases hkind

/-- Without whitespace at its end a text is still complete: its last lexeme becomes a backslash or a
shorter run of blanks. -/
theorem Complete.of_concat {s : Text} {c : Char} (h : Complete (s ++ [c]))
    (hc : Text.isBlank c = true) : Complete s := by
  rcases List.eq_nil_or_concat' (lex (s ++ [c])) with hnil | ⟨a, l, hlex⟩
  · -- a text that is not empty has lexemes
    have hjoin := join_lex (s ++ [c])
    simp [hnil] at hjoin
  · have heach := beginsEach_lex (s ++ [c])
    rw [hlex, beginsEach_append_iff, join_cons, join_nil, List.append_nil, List.append_nil] at heach
    obtain ⟨hfront, hbegins, -⟩ := heach
    have hjoin := join_lex (s ++ [c])
    rw [hlex, join_append, join_cons, join_nil, List.append_nil] at hjoin
    have hl : l.Complete := h l (by simp [hlex])
    obtain ⟨front, htext⟩ : ∃ front, l.text = front ++ [c] := by
      have hne := hbegins.text_ne_nil
      rw [← List.getLast?_eq_some_iff, ← List.getLast?_append_of_ne_nil (join a) hne, hjoin,
        List.getLast?_concat]
    rw [htext, ← List.append_assoc] at hjoin
    obtain rfl : join a ++ front = s := List.append_cancel_right hjoin
    have hcut : lex (join a ++ front) = a ++ lex front :=
      lex_join_append_iff.2 (BeginsEach.of_append (htext ▸ hfront))
    have hcomplete : Complete front := by
      rcases hl.isBlank_of_concat hbegins htext hc with rfl | hblank
      · exact complete_text .backslash ⟨by simp, by simp⟩
      · exact complete_of_isBlank hblank
    intro m hm
    rw [hcut] at hm
    rcases List.mem_append.1 hm with hm | hm
    · exact h m (hlex ▸ List.mem_append_left _ hm)
    · exact hcomplete m hm

/-- A text is complete if it is so with blanks behind it. -/
theorem Complete.of_append_of_isBlank {s blanks : Text} (h : Complete (s ++ blanks))
    (hblanks : ∀ c ∈ blanks, Text.isBlank c = true) : Complete s := by
  induction blanks using List.reverseRecOn with
  | nil => rwa [List.append_nil] at h
  | append_singleton blanks c ih =>
      rw [← List.append_assoc] at h
      have hc : Text.isBlank c = true := hblanks c (by simp)
      exact ih (h.of_concat hc) fun d hd => hblanks d (by simp [hd])

/-- Trimming in front keeps a text complete. -/
theorem Complete.trimStart {t : Text} (h : Complete t) : Complete (Text.trimStart t) := by
  cases t with
  | nil => exact h
  | cons c t =>
      by_cases hc : Text.isBlank c = true
      · obtain ⟨l, -, hlex⟩ := lex_eq_of_isBlank (t := t) hc
        exact fun m hm => h m (by simp [hlex, hm])
      · rwa [Text.trimStart, List.dropWhile_cons_of_neg hc]

/-- Trimming leaves a complete text complete, and its skeleton as it was. -/
theorem Complete.trim {t : Text} (h : Complete t) :
    Complete (Text.trim t) ∧ skeleton (Text.trim t) = skeleton t := by
  obtain ⟨blanks, hsplit, hblanks⟩ := Text.exists_trimEnd_append (Text.trimStart t)
  have hstart := h.trimStart
  rw [hsplit] at hstart
  have hend : Complete (Text.trim t) := hstart.of_append_of_isBlank hblanks
  refine ⟨hend, ?_⟩
  rw [← hend.skeleton_append_of_isBlank hblanks, Text.trim, ← hsplit, skeleton_trimStart]

namespace Equation

/-! ## The skeleton of a split equation -/

/-- The skeleton can be read off the rows of complete sides, where each row has a new `=`. -/
theorem reading_skeleton : Reading skeleton Complete [⟨.operator '=', ['=']⟩] [] where
  nil := skeleton_nil
  blank hc _ := skeleton_cons_of_isBlank hc
  append hs _ hc u := hs.skeleton_append hc u
  alignment u := by
    rw [skeleton_eq, solid_alignment, structural_append, ← skeleton_eq]
    rfl
  rowBreak u := by
    rw [skeleton_eq, solid_rowBreak, structural_append, ← skeleton_eq]
    rfl

/-- A segment of complete lexemes has no comment to move, and keeps its skeleton. -/
theorem part_of_complete {s : Text} (h : Complete s) :
    Complete (part s).code ∧ skeleton (part s).code = skeleton s ∧ (part s).comment = none := by
  obtain ⟨hcomplete, hskeleton⟩ := h.trim
  have hcomment : ¬ EndsInComment (Text.trim s) := by
    rintro ⟨l, hl, hkind⟩
    exact (hcomplete l (List.mem_of_getLast? hl)).comment hkind
  rw [part_of_not_endsInComment hcomment]
  exact ⟨hcomplete, hskeleton, rfl⟩

/-- The rows of complete segments between the tags have the skeletons of the segments, with the
signs between them. -/
theorem skeleton_layOut {style : RowStyle} {left right : Text} {further : List Text}
    (hname : Environment.isName style.environment = true) (hleft : Complete left)
    (hrights : ∀ s ∈ right :: further, Complete s) :
    skeleton (layOut style ((sides left right further).map Sides.row)) =
      openingMark style.environment ++ (skeleton left ++
        (right :: further).flatMap fun s => ⟨.operator '=', ['=']⟩ :: skeleton s) ++
        closingMark style.environment := by
  obtain ⟨hright, hfurther⟩ := List.forall_mem_cons.1 hrights
  obtain ⟨hleft, hsleft, hcleft⟩ := part_of_complete hleft
  obtain ⟨hright, hsright, hcright⟩ := part_of_complete hright
  -- trimmed segments are complete, and there is no comment to move
  have hrows : ∀ s ∈ sides left right further,
      Complete s.left ∧ Complete s.right ∧ s.comments = [] := by
    intro s hs
    rcases List.mem_cons.1 hs with rfl | hs
    · exact ⟨hleft, hright, by simp [firstSides, hcleft, hcright]⟩
    · obtain ⟨x, hx, rfl⟩ := List.mem_map.1 hs
      obtain ⟨hcode, -, hcomment⟩ := part_of_complete (hfurther x hx)
      exact ⟨complete_nil, hcode, by simp [furtherSides, hcomment]⟩
  have hopening (u : Text) : skeleton (Environment.openingTag style.environment ++ u) =
      openingMark style.environment ++ skeleton u := by
    rw [skeleton_eq, solid_openingTag_append hname, structural_append, ← skeleton_eq]
    rfl
  have hclosing : skeleton (Environment.closingTag style.environment) =
      closingMark style.environment := by
    rw [skeleton_eq, solid_closingTag hname]
    rfl
  have hrest : (further.map furtherSides).flatMap (fun r => [] ++ skeleton r.left ++
        [⟨.operator '=', ['=']⟩] ++ skeleton r.right) =
      further.flatMap fun s => ⟨.operator '=', ['=']⟩ :: skeleton s := by
    rw [List.flatMap_map]
    apply List.flatMap_congr
    intro x hx
    simp [furtherSides, (part_of_complete (hfurther x hx)).2.1]
  -- the skeleton is a reading of the rows, with the sign of a row for its mark
  rw [sides, reading_skeleton.layOut hopening hclosing hrows, hrest, firstSides, hsleft, hsright,
    List.flatMap_cons]
  simp

/-- The runs around the breaks with the signs between them are all lexemes. -/
theorem runsOf_append {ts : List Token}
    (hsign : ∀ t ∈ ts, t.kind = .operator '=' → t.text = ['=']) :
    (runsOf ts).1 ++ (runsOf ts).2.flatMap (⟨.operator '=', ['=']⟩ :: ·) =
      ts.map Token.toLexeme := by
  induction ts with
  | nil => rfl
  | cons t ts ih =>
      have hrest := ih fun u hu => hsign u (List.mem_cons_of_mem t hu)
      rw [List.map_cons, ← hrest]
      -- a break is in no run, but it is an equality sign, which comes before the next run
      by_cases hbreak : isBreak t ts = true
      · have hkind : t.kind = .operator '=' := (kind_and_counter_of_isBreak hbreak).1
        have hlexeme : t.toLexeme = ⟨.operator '=', ['=']⟩ := by
          rw [← hkind, ← hsign t List.mem_cons_self hkind]
        rw [runsOf_of_isBreak hbreak, hlexeme]
        rfl
      · rw [runsOf_of_not_isBreak hbreak]
        rfl

/-- **Splitting keeps the skeleton**: a complete equation is put into the environment as it is, but
for what neither opens nor closes a level nor is an equality sign. -/
theorem skeleton_split? {style : RowStyle} {t r : Text}
    (hname : Environment.isName style.environment = true) (hcomplete : Complete (inner t))
    (h : split? style t = some r) :
    skeleton r = openingMark style.environment ++ skeleton (inner t) ++
      closingMark style.environment := by
  obtain ⟨left, right, further, hsegments⟩ := exists_segmentsOf (breaks_ne_nil_of_split? h)
  rw [split?_eq_layOut hsegments] at h
  rw [segmentsOf_eq_join] at hsegments
  obtain ⟨rfl, hrest⟩ := Prod.mk.inj hsegments
  have hmap : (scan (inner t)).map Token.toLexeme = lex (inner t) := Token.map_toLexeme_place 0 0 _
  have hsign : ∀ u ∈ scan (inner t), u.kind = .operator '=' → u.text = ['='] :=
    fun u hu hkind => text_of_operator (hmap ▸ List.mem_map_of_mem hu) hkind
  have hruns := runsOf_append hsign
  -- the segments are runs of the lexemes of the equation
  obtain ⟨hfirst, hothers⟩ := runsOf_infix_map (scan (inner t))
  rw [hmap] at hfirst hothers hruns
  have hrun {ls : List Lexeme} (hls : ls <:+: lex (inner t)) :
      Complete (join ls) ∧ skeleton (join ls) = structural ls := by
    have hlex := lex_join_of_infix_lex hls
    refine ⟨fun l hl => hcomplete l (hls.subset (hlex ▸ hl)), ?_⟩
    rw [skeleton, hlex]
  have hrights : ∀ s ∈ right :: further, Complete s := by
    rw [← hrest]
    intro s hs
    obtain ⟨ls, hls, rfl⟩ := List.mem_map.1 hs
    exact (hrun (hothers ls hls)).1
  have hskeleton : (right :: further).flatMap (fun s => ⟨.operator '=', ['=']⟩ :: skeleton s) =
      structural ((runsOf (scan (inner t))).2.flatMap (⟨.operator '=', ['=']⟩ :: ·)) := by
    rw [← hrest, List.flatMap_map, structural, List.filter_flatMap]
    apply List.flatMap_congr
    intro ls hls
    rw [(hrun (hothers ls hls)).2]
    rfl
  rw [← Option.some.inj h, skeleton_layOut hname (hrun hfirst.isInfix).1 hrights, hskeleton,
    (hrun hfirst.isInfix).2, ← structural_append, hruns, skeleton]

/-! ## Splitting again -/

/-- A split equation stands between no signs. -/
theorem inner_layOut (style : RowStyle) (rows : List Row) :
    inner (layOut style rows) = layOut style rows := by
  have htrim : Text.trim (layOut style rows) = layOut style rows := by
    apply Text.trim_eq_self
    · rw [layOut, Environment.openingTag_eq]
      rintro c ⟨⟩
      rfl
    · rw [layOut, Environment.closingTag_eq, ← List.cons_append, ← List.append_assoc]
      intro c hc
      rw [List.getLast?_concat] at hc
      obtain rfl := Option.some.inj hc
      rfl
  rw [inner, htrim, signs_eq, layOut, Environment.openingTag_eq]
  rfl

/-- What has been split stands between no signs. -/
theorem inner_of_split? {style : RowStyle} {t r : Text} (h : split? style t = some r) :
    inner r = r := by
  obtain ⟨left, right, further, hsegments⟩ := exists_segmentsOf (breaks_ne_nil_of_split? h)
  rw [split?_eq_layOut hsegments] at h
  rw [← Option.some.inj h, inner_layOut]

/-- A text is complete if none of its tokens is a comment or a command that takes a name. -/
theorem complete_of_scan {t : Text} (h : ∀ u ∈ scan t, u.kind ≠ .comment ∧
    u.kind ≠ .command "begin".toList ∧ u.kind ≠ .command "end".toList) : Complete t := by
  have hmap : (scan t).map Token.toLexeme = lex t := Token.map_toLexeme_place 0 0 _
  intro l hl
  rw [← hmap] at hl
  obtain ⟨u, hu, rfl⟩ := List.mem_map.1 hl
  obtain ⟨hcomment, hbegin, hend⟩ := h u hu
  refine ⟨hcomment, ?_⟩
  rintro name (rfl | rfl)
  · exact hbegin
  · exact hend

/-- The depths of the tokens that make up a skeleton are those of its lexemes. -/
theorem leveled_skeleton (t : Text) :
    leveled 0 (skeleton t) =
      ((scan t).filter (·.kind.isStructural)).map fun u => (u.toLexeme, u.depth) :=
  (filter_place_of_shift shift_of_not_isStructural 0 0 (lex t)).symm

/-- What a skeleton has at a depth is a token of the text at that depth, and what comes behind it in
the skeleton comes behind it in the text. -/
theorem exists_of_leveled_skeleton {t : Text} {before after : List (Lexeme × Int)} {l : Lexeme}
    {depth : Int} (h : leveled 0 (skeleton t) = before ++ (l, depth) :: after) :
    ∃ a u b, scan t = a ++ u :: b ∧ u.toLexeme = l ∧ u.depth = depth ∧
      after = (b.filter (·.kind.isStructural)).map fun v => (v.toLexeme, v.depth) := by
  rw [leveled_skeleton] at h
  obtain ⟨us, vs, hfilter, -, hvs⟩ := List.map_eq_append_iff.1 h
  obtain ⟨u, vs', rfl, hu, hafter⟩ := List.map_eq_cons_iff.1 hvs
  obtain ⟨a, rest, hscan, -, hrest⟩ := List.filter_eq_append_iff.1 hfilter
  obtain ⟨c, b, rfl, -, -, hb⟩ := List.filter_eq_cons_iff.1 hrest
  obtain ⟨hlexeme, hdepth⟩ := Prod.mk.inj hu
  refine ⟨a ++ c, u, b, by rw [hscan, List.append_assoc], hlexeme, hdepth, ?_⟩
  rw [hb, hafter]

/-- An equality sign in a text with the skeleton of another between tags is one of the other, a
level deeper. -/
theorem exists_token_of_skeleton {name t r : Text} {u : Token}
    (h : skeleton r = openingMark name ++ skeleton t ++ closingMark name) (hu : u ∈ scan r)
    (hkind : u.kind = .operator '=') :
    ∃ v ∈ scan t, v.kind = .operator '=' ∧ u.depth = v.depth + 1 := by
  have hone : (1 : Int) = 0 + 1 := rfl
  have hmem : (u.toLexeme, u.depth) ∈ leveled 0 (skeleton r) := by
    rw [leveled_skeleton]
    have hstructural : u ∈ (scan r).filter (·.kind.isStructural) :=
      List.mem_filter.2 ⟨hu, by rw [hkind]; rfl⟩
    exact List.mem_map_of_mem hstructural
  rw [h, leveled_between_tags, hone, leveled_add, leveled_skeleton] at hmem
  simp only [List.mem_append, List.mem_cons, List.not_mem_nil, or_false, List.map_map, List.mem_map,
    List.mem_filter, Prod.mk.injEq, Function.comp_apply] at hmem
  rcases hmem with (⟨hsign, -⟩ | ⟨v, ⟨hv, -⟩, hsign, hlevel⟩) | ⟨hsign, -⟩
  · -- a tag is no equality sign
    rw [hsign] at hkind
    cases hkind
  · exact ⟨v, hv, by rw [hsign, hkind], hlevel.symm⟩
  · rw [hsign] at hkind
    cases hkind

/-- An equality sign at the largest depth that the counter shows is a level deeper in the split. The
counter has gone around there, so the split has a break at the sign. -/
theorem breaks_ne_nil_of_depth {style : RowStyle} {t r : Text} {u : Token}
    (hname : Environment.isName style.environment = true) (hcomplete : Complete (inner t))
    (h : split? style t = some r) (hu : u ∈ scan (inner t)) (hkind : u.kind = .operator '=')
    (hdepth : u.depth = 2 ^ 31 - 1) : breaks (inner r) ≠ [] := by
  have hstructural : u ∈ (scan (inner t)).filter (·.kind.isStructural) :=
    List.mem_filter.2 ⟨hu, by rw [hkind]; rfl⟩
  obtain ⟨before, after, hfilter⟩ := List.append_of_mem hstructural
  have hone : (1 : Int) = 0 + 1 := rfl
  have hlevel : u.depth + 1 = 2 ^ 31 := by omega
  have hleveled : ∃ before after tag, leveled 0 (skeleton r) =
      before ++ (u.toLexeme, 2 ^ 31) :: (after ++ [tag]) := by
    rw [skeleton_split? hname hcomplete h, leveled_between_tags, hone, leveled_add,
      leveled_skeleton, hfilter, List.map_append, List.map_cons, List.map_append, List.map_cons,
      hlevel, ← List.cons_append, List.append_assoc]
    exact ⟨_, _, _, rfl⟩
  obtain ⟨before, after, tag, hleveled⟩ := hleveled
  obtain ⟨a, v, b, hscan, hv, hlevel, hbehind⟩ := exists_of_leveled_skeleton hleveled
  have hcounter : v.counter ≤ 0 := by
    rw [Token.counter, hlevel, shown_two_pow]
    decide
  -- the closing tag of the environment comes behind the sign
  obtain ⟨w, hw⟩ : ∃ w, w ∈ b.filter (·.kind.isStructural) := by
    refine List.exists_mem_of_ne_nil _ fun hnil => ?_
    simp [hnil] at hbehind
  obtain ⟨hw, hstructural⟩ := List.mem_filter.1 hw
  have hbreak : isBreak v b = true := by
    refine isBreak_of_mem (by rw [hv, hkind]) hcounter hw fun hblank => ?_
    simp [hblank, Token.Kind.isStructural] at hstructural
  rw [inner_of_split? h]
  exact List.ne_nil_of_mem (mem_breaksOf.2 ⟨a, v, b, hscan, hbreak, rfl⟩)

/-- **Splitting is idempotent** as far as the counter goes. Where no token of an equation is a
comment, a command that takes a name or at a negative depth, its split has no breaks of its own and
is left as it is, unless there is an equality sign at the largest depth that the counter shows. -/
theorem split_of_split? {style : RowStyle} {t r : Text}
    (hname : Environment.isName style.environment = true)
    (htokens : ∀ u ∈ scan (inner t), u.kind ≠ .comment ∧ u.kind ≠ .command "begin".toList ∧
      u.kind ≠ .command "end".toList ∧ 0 ≤ u.counter)
    (h : split? style t = some r) :
    breaks (inner r) = [] ∧ split? style r = none ∧ split style r = r ↔
      ∀ u ∈ scan (inner t), u.kind = .operator '=' → u.counter ≠ 2 ^ 31 - 1 := by
  have hcomplete : Complete (inner t) := complete_of_scan fun u hu =>
    ⟨(htokens u hu).1, (htokens u hu).2.1, (htokens u hu).2.2.1⟩
  have hnonneg : ∀ u ∈ scan (inner t), 0 ≤ u.counter := fun u hu => (htokens u hu).2.2.2
  constructor
  · rintro ⟨hbreaks, -⟩ u hu hkind hcounter
    rw [counter_eq_depth_of_nonneg hnonneg hu] at hcounter
    exact breaks_ne_nil_of_depth hname hcomplete h hu hkind hcounter hbreaks
  · intro hcounters
    have hbreaks : breaks (inner r) = [] := by
      rw [inner_of_split? h, List.eq_nil_iff_forall_not_mem]
      intro p hp
      obtain ⟨a, u, b, hsplit, hbreak, -⟩ := mem_breaksOf.1 hp
      obtain ⟨hkind, hcounter⟩ := kind_and_counter_of_isBreak hbreak
      -- the sign was at no negative depth, and is a level deeper now
      obtain ⟨v, hv, hsign, hlevel⟩ := exists_token_of_skeleton
        (skeleton_split? hname hcomplete h) (by simp [hsplit]) hkind
      obtain ⟨hlow, hhigh⟩ := depth_bounds_of_counter_nonneg (by omega) (by omega) hnonneg v hv
      have hne := hcounters v hv hsign
      rw [counter_eq_depth_of_nonneg hnonneg hv] at hne
      -- where the counter shows it
      have hfits : FitsCounter u.depth := by
        rw [FitsCounter]
        omega
      rw [Token.counter, hfits.shown_eq] at hcounter
      omega
    have hnone : split? style r = none := split?_eq_none hbreaks
    refine ⟨hbreaks, hnone, ?_⟩
    rw [split, hnone, Option.getD_none]

/-- The last segment ends in an escaped space, whose backslash is left at the end of a row, and its
own `=` lies in a bracket that is never closed. -/
theorem split_of_split?_unclosed :
    ∃ r, split? .standard "a = [b = c\\ ".toList = some r ∧
      r = "\\begin\x7balign\x7d\n    a &= [b = c\\\n\\end\x7balign\x7d".toList ∧
      breaks (inner r) = [] ∧ split? .standard r = none ∧ split .standard r = r := by
  have hname : Environment.isName RowStyle.standard.environment = true := by cbv
  have htokens : ∀ u ∈ scan (inner "a = [b = c\\ ".toList), u.kind ≠ .comment ∧
      u.kind ≠ .command "begin".toList ∧ u.kind ≠ .command "end".toList ∧ 0 ≤ u.counter := by
    have hall : (scan (inner "a = [b = c\\ ".toList)).all (fun u => u.kind ≠ .comment ∧
        u.kind ≠ .command "begin".toList ∧ u.kind ≠ .command "end".toList ∧ 0 ≤ u.counter) := by
      cbv
    intro u hu
    exact of_decide_eq_true (List.all_eq_true.1 hall u hu)
  have hsplit : split? .standard "a = [b = c\\ ".toList =
      some "\\begin\x7balign\x7d\n    a &= [b = c\\\n\\end\x7balign\x7d".toList := by
    cbv
  have hcounters : ∀ u ∈ scan (inner "a = [b = c\\ ".toList), u.kind = .operator '=' →
      u.counter ≠ 2 ^ 31 - 1 := by
    have hall : (scan (inner "a = [b = c\\ ".toList)).all (fun u => u.counter < 2 ^ 31 - 1) := by
      cbv
    intro u hu _
    have hlt := of_decide_eq_true (List.all_eq_true.1 hall u hu)
    omega
  exact ⟨_, hsplit, rfl, (split_of_split? hname htokens hsplit).2 hcounters⟩

/-! ## Splitting again what the counter cannot hold -/

/-- An equation with a sign behind braces that are not closed. -/
def steep (braces : Nat) : Text := "a=".toList ++ List.replicate braces '{' ++ "b=c".toList

/-- The lexemes of such an equation. -/
def steepLexemes (braces : Nat) : List Lexeme :=
  [⟨.plain, ['a']⟩, ⟨.operator '=', ['=']⟩] ++ List.replicate braces ⟨.opening .brace, ['{']⟩ ++
    [⟨.plain, ['b']⟩, ⟨.operator '=', ['=']⟩, ⟨.plain, ['c']⟩]

variable {braces : Nat}

/-- The equation is scanned into these lexemes: braces are signs of their own, and the letters have
signs behind them. -/
theorem lex_steep (braces : Nat) : lex (steep braces) = steepLexemes braces := by
  have hplain {c d : Char} (hc : isSpecial c = false) (hd : isSpecial d = true) (u : Text) :
      Begins ⟨.plain, [c]⟩ (d :: u) :=
    .plain (by simp) (by simpa using hc) (by rintro _ ⟨⟩; simp [hd])
  have hbraces : join (List.replicate braces ⟨.opening .brace, ['{']⟩) = List.replicate braces '{' ∧
      ∀ u, BeginsEach (List.replicate braces ⟨.opening .brace, ['{']⟩) u := by
    induction braces with
    | zero => exact ⟨rfl, fun _ => trivial⟩
    | succ n ih =>
        simp only [List.replicate_succ, join_cons, ih.1]
        exact ⟨rfl, fun u => ⟨.sign rfl, ih.2 u⟩⟩
  have hjoin : join (steepLexemes braces) = steep braces := by
    rw [steepLexemes, join_append, join_append, hbraces.1]
    rfl
  -- each of them begins what follows it
  have hbegins : BeginsEach (steepLexemes braces) [] := by
    rw [steepLexemes, beginsEach_append_iff, beginsEach_append_iff]
    refine ⟨⟨⟨hplain rfl rfl _, .sign rfl, trivial⟩, hbraces.2 _⟩, hplain rfl rfl _, .sign rfl, ?_,
      trivial⟩
    exact .plain (by simp) (by simp; rfl) (by rintro _ ⟨⟩)
  rw [← hjoin]
  exact (lex_join_of_beginsEach hbegins).1

/-- The equation stands between no signs. -/
theorem inner_steep (braces : Nat) : inner (steep braces) = steep braces := by
  have htrim : Text.trim (steep braces) = steep braces := by
    apply Text.trim_eq_self
    · rintro c ⟨⟩
      rfl
    · have hlast : steep braces =
          "a=".toList ++ List.replicate braces '{' ++ ['b', '='] ++ ['c'] := by simp [steep]
      intro c hc
      rw [hlast, List.getLast?_concat] at hc
      obtain rfl := Option.some.inj hc
      rfl
  rw [inner, htrim, signs_eq]
  rfl

/-- Every brace counts. -/
theorem depth_replicate (braces : Nat) :
    Lexeme.depth (List.replicate braces ⟨.opening .brace, ['{']⟩) = braces := by
  induction braces with
  | zero => rfl
  | succ n ih =>
      rw [List.replicate_succ, Lexeme.depth, ih]
      simp only [Token.Kind.shift]
      omega

/-- The equation has no comments and no commands, and the counter stays above zero as long as it
holds the number of braces. -/
theorem tokens_steep (h : braces < 2 ^ 31) : ∀ u ∈ scan (inner (steep braces)),
    u.kind ≠ .comment ∧ u.kind ≠ .command "begin".toList ∧ u.kind ≠ .command "end".toList ∧
      0 ≤ u.counter := by
  have hkinds : ∀ l ∈ lex (steep braces),
      l.kind = .plain ∨ l.kind = .operator '=' ∨ l.kind = .opening .brace := by
    intro l hl
    simp only [lex_steep, steepLexemes, List.mem_append, List.mem_cons, List.mem_replicate,
      List.not_mem_nil, or_false] at hl
    rcases hl with ((rfl | rfl) | ⟨-, rfl⟩) | (rfl | rfl | rfl) <;> simp
  have hshift : ∀ l ∈ lex (steep braces), 0 ≤ l.kind.shift := by
    intro l hl
    rcases hkinds l hl with hkind | hkind | hkind <;> rw [hkind] <;> decide
  have hdepth : Lexeme.depth (lex (steep braces)) = braces := by
    rw [lex_steep, steepLexemes, Lexeme.depth_append, Lexeme.depth_append, depth_replicate]
    simp [Lexeme.depth, Token.Kind.shift]
  rw [inner_steep]
  intro u hu
  -- nothing closes, so all depths are between zero and the number of braces
  have hbounds := Token.depth_bounds_of_mem_place hshift hu
  have hfits : FitsCounter u.depth := by
    rw [FitsCounter]
    omega
  have hmem : u.toLexeme ∈ lex (steep braces) := by
    rw [← Token.map_toLexeme_place 0 0 (lex _)]
    exact List.mem_map_of_mem hu
  rw [Token.counter, hfits.shown_eq]
  rcases hkinds _ hmem with hkind | hkind | hkind <;> rw [hkind] <;>
    exact ⟨by simp, by simp, by simp, by omega⟩

/-- The equation is split at its first sign. -/
theorem breaks_steep (braces : Nat) : breaks (inner (steep braces)) ≠ [] := by
  refine List.ne_nil_of_mem (a := 1) (mem_breaksOf.2 ?_)
  rw [inner_steep, scan, lex_steep, steepLexemes, List.append_assoc]
  refine ⟨[⟨⟨.plain, ['a']⟩, 0, 0⟩], ⟨⟨.operator '=', ['=']⟩, 1, 0⟩, _, rfl, ?_, rfl⟩
  have hb : ⟨.plain, ['b']⟩ ∈ (Token.place 2 0 (List.replicate braces ⟨.opening .brace, ['{']⟩ ++
      [⟨.plain, ['b']⟩, ⟨.operator '=', ['=']⟩, ⟨.plain, ['c']⟩])).map Token.toLexeme := by
    rw [Token.map_toLexeme_place]
    exact List.mem_append_right _ List.mem_cons_self
  obtain ⟨u, hu, hplain⟩ := List.mem_map.1 hb
  exact isBreak_of_mem rfl (by decide) hu (by rw [hplain]; simp)

/-- The sign behind the braces is at their depth. -/
theorem exists_sign_of_steep (braces : Nat) :
    ∃ u ∈ scan (inner (steep braces)), u.kind = .operator '=' ∧ u.depth = braces := by
  have hdepth : (0 : Int) + Lexeme.depth ([⟨.plain, ['a']⟩, ⟨.operator '=', ['=']⟩] ++
      List.replicate braces ⟨.opening .brace, ['{']⟩) = braces := by
    rw [Lexeme.depth_append, depth_replicate]
    simp [Lexeme.depth, Token.Kind.shift]
  rw [inner_steep, scan, lex_steep, steepLexemes, Token.place_append, hdepth]
  simp only [Token.place, List.mem_append, List.mem_cons]
  exact ⟨_, .inr (.inr (.inl rfl)), rfl, rfl⟩

/-- Splitting is not idempotent for equations of any length: the split of one with 2³¹ - 1 open
braces before its last sign is split again. -/
theorem not_forall_split_of_split? :
    ¬ ∀ (style : RowStyle) (t r : Text), Environment.isName style.environment = true →
      (∀ u ∈ scan (inner t), u.kind ≠ .comment ∧ u.kind ≠ .command "begin".toList ∧
        u.kind ≠ .command "end".toList ∧ 0 ≤ u.counter) →
      split? style t = some r →
        breaks (inner r) = [] ∧ split? style r = none ∧ split style r = r := by
  intro h
  have hname : Environment.isName RowStyle.standard.environment = true := by cbv
  obtain ⟨left, right, further, hsegments⟩ := exists_segmentsOf (breaks_steep (2 ^ 31 - 1))
  have hsplit : split? .standard (steep (2 ^ 31 - 1)) = some _ := split?_eq_layOut hsegments
  have htokens := @tokens_steep (2 ^ 31 - 1) (by decide)
  have hcomplete : Complete (inner (steep (2 ^ 31 - 1))) := complete_of_scan fun u hu =>
    ⟨(htokens u hu).1, (htokens u hu).2.1, (htokens u hu).2.2.1⟩
  -- the last sign is at the largest depth that the counter shows
  obtain ⟨u, hu, hkind, hdepth⟩ := exists_sign_of_steep (2 ^ 31 - 1)
  exact breaks_ne_nil_of_depth hname hcomplete hsplit hu hkind hdepth
    (h .standard _ _ hname htokens hsplit).1

end Equation

end MathEdit
