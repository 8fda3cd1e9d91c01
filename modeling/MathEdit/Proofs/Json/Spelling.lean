import MathEdit.Json.Reader
import MathEdit.Proofs.Json.Numbers
import MathEdit.Proofs.Json.Strings

/-! # Texts of JSON values

`Spells` is the grammar of JSON as a relation between texts and what they spell: values, the items
of an array, and the members of an object, each of them with the space around it. It says nothing of
tokens or of what is still open. The reader takes a value off the front of a text wherever it
expects one, whatever is open there, and from this it follows that it reads every text of the
grammar.

* **`Spells`**, **`IsTextOf`**: the grammar.
* **`Spells.runs`**: what the reader does with a phrase, by induction over the grammar.
* **`read?_of_isTextOf`**: every text of a value is read as that value. -/

namespace MathEdit.Json

/-! ## The grammar -/

/-- Whether a text is nothing but space between tokens. -/
def IsSpaces (t : Text) : Prop := ∀ c ∈ t, isSpace c = true

/-- What a piece of JSON spells. -/
inductive Phrase where
  | value (j : Json Str)
  /-- The items of an array that is not empty. -/
  | items (items : List (Json Str))
  /-- The members of an object that is not empty. -/
  | members (members : List (Str × Json Str))

/-- The ways to spell a phrase. Values begin and end without space, and items and members have the
space around them. -/
inductive Spells : Text → Phrase → Prop where
  | null : Spells "null".toList (.value .null)
  | true : Spells "true".toList (.value (.bool true))
  | false : Spells "false".toList (.value (.bool false))
  | integer (n : Int) : Spells (integerText n) (.value (.integer n))
  | decimal {t : Text} (h : IsDecimal t) : Spells t (.value (.decimal t))
  | string {t : Text} {s : Str} (h : SpellsString t s) : Spells t (.value (.string s))
  | emptyArray {w : Text} (hw : IsSpaces w) : Spells ('[' :: w ++ [']']) (.value (.array []))
  | array {t : Text} {items : List (Json Str)} (h : Spells t (.items items)) :
      Spells ('[' :: t ++ [']']) (.value (.array items))
  | emptyObject {w : Text} (hw : IsSpaces w) : Spells ('{' :: w ++ ['}']) (.value (.object []))
  | object {t : Text} {members : List (Str × Json Str)} (h : Spells t (.members members)) :
      Spells ('{' :: t ++ ['}']) (.value (.object members))
  | item {v w t : Text} {j : Json Str} (hv : IsSpaces v) (hw : IsSpaces w)
      (h : Spells t (.value j)) : Spells (v ++ t ++ w) (.items [j])
  | moreItems {v w t u : Text} {j : Json Str} {items : List (Json Str)} (hv : IsSpaces v)
      (hw : IsSpaces w) (h : Spells t (.value j)) (hu : Spells u (.items items)) :
      Spells (v ++ t ++ w ++ ',' :: u) (.items (j :: items))
  | member {v w x y k t : Text} {key : Str} {j : Json Str} (hv : IsSpaces v) (hw : IsSpaces w)
      (hx : IsSpaces x) (hy : IsSpaces y) (hk : SpellsString k key) (h : Spells t (.value j)) :
      Spells (v ++ k ++ w ++ ':' :: (x ++ t ++ y)) (.members [(key, j)])
  | moreMembers {v w x y k t u : Text} {key : Str} {j : Json Str}
      {members : List (Str × Json Str)} (hv : IsSpaces v) (hw : IsSpaces w) (hx : IsSpaces x)
      (hy : IsSpaces y) (hk : SpellsString k key) (h : Spells t (.value j))
      (hu : Spells u (.members members)) :
      Spells (v ++ k ++ w ++ ':' :: (x ++ t ++ y) ++ ',' :: u) (.members ((key, j) :: members))

/-- Whether a text is JSON for a value: the value, with space around it. -/
def IsTextOf (t : Text) (j : Json Str) : Prop :=
  ∃ v u w, t = v ++ u ++ w ∧ IsSpaces v ∧ IsSpaces w ∧ Spells u (.value j)

/-! ## Reading on -/

variable {s : Reading} {t u rest w : Text} {k : Token} {j : Json Str} {c : Char}

/-- Where the reader is after a text. -/
def run (s : Reading) (t : Text) : Option Reading := (tokens? t).bind (·.foldlM Reading.step s)

/-- A text is read if the reader is done behind it. -/
theorem read?_eq_run (t : Text) :
    read? t = (run (.value []) t).bind fun | .done j => some j | _ => none := by
  rw [read?, run, Option.bind_assoc]
  rfl

/-- Nothing leaves the reader where it is. -/
@[simp] theorem run_nil (s : Reading) : run s [] = some s := by
  rw [run, tokens?]
  rfl

/-- So does a space. -/
theorem run_of_isSpace (hc : isSpace c = true) (s : Reading) (t : Text) :
    run s (c :: t) = run s t := by
  rw [run, tokens?, if_pos hc]
  rfl

/-- A token takes the reader one step further. -/
theorem run_of_token? (hc : isSpace c = false) (h : token? c t = some (k, rest)) (s : Reading) :
    run s (c :: t) = (s.step k).bind (run · rest) := by
  rw [run, tokens?, if_neg (by simp [hc])]
  split
  · next k' rest' h' =>
      obtain ⟨rfl, rfl⟩ := Prod.mk.inj (Option.some.inj (h.symm.trans h'))
      cases hstep : s.step k <;> cases htokens : tokens? rest <;> simp [run, hstep, htokens]
  · next h' =>
      rw [h] at h'
      cases h'

/-- Spaces in front of a text change nothing. -/
theorem run_append_of_isSpaces (hw : IsSpaces w) (s : Reading) (t : Text) :
    run s (w ++ t) = run s t := by
  induction w with
  | nil => rfl
  | cons c w ih =>
      rw [List.cons_append, run_of_isSpace (hw c List.mem_cons_self),
        ih fun d hd => hw d (.tail c hd)]

/-- A token that is spelled out takes the reader one step further too. -/
theorem run_of_isToken (h : IsToken t k) (hrest : Ends rest) (s : Reading) :
    run s (t ++ rest) = (s.step k).bind (run · rest) := by
  obtain ⟨c, u, rfl, hc, htoken⟩ := h
  exact run_of_token? hc (htoken rest hrest) s

/-- Space does not go on with a number or a word. -/
theorem Ends.append (hw : IsSpaces w) (h : Ends rest) : Ends (w ++ rest) := by
  cases w with
  | nil => exact h
  | cons c w =>
      rintro d ⟨⟩
      exact .inl (hw c List.mem_cons_self)

/-- A comma ends what stands before it. -/
theorem ends_comma (t : Text) : Ends (',' :: t) := by
  rintro c ⟨⟩
  exact .inr (.inl rfl)

/-- So does a colon. -/
theorem ends_colon (t : Text) : Ends (':' :: t) := by
  rintro c ⟨⟩
  exact .inr (.inr (.inl rfl))

/-- So does a closing bracket. -/
theorem ends_bracket (t : Text) : Ends (']' :: t) := by
  rintro c ⟨⟩
  exact .inr (.inr (.inr (.inl rfl)))

/-- And so does a closing brace. -/
theorem ends_brace (t : Text) : Ends ('}' :: t) := by
  rintro c ⟨⟩
  exact .inr (.inr (.inr (.inr rfl)))

/-- A string between quotation marks is one token. -/
theorem isToken_string {s : Str} (h : SpellsString t s) : IsToken t (.string s) := by
  obtain ⟨body, rfl, hread⟩ := token?_string h
  exact ⟨'"', body, rfl, rfl, fun rest _ => hread rest⟩

/-- So is the word for no value. -/
theorem isToken_null : IsToken "null".toList (.scalar .null) :=
  ⟨'n', "ull".toList, rfl, rfl, fun rest _ => by
    rw [token?, literal?, Text.dropPrefix?_append]
    rfl⟩

/-- So is the word for true. -/
theorem isToken_true : IsToken "true".toList (.scalar (.bool true)) :=
  ⟨'t', "rue".toList, rfl, rfl, fun rest _ => by
    rw [token?, literal?, Text.dropPrefix?_append]
    rfl⟩

/-- And so is the word for false. -/
theorem isToken_false : IsToken "false".toList (.scalar (.bool false)) :=
  ⟨'f', "alse".toList, rfl, rfl, fun rest _ => by
    rw [token?, literal?, Text.dropPrefix?_append]
    rfl⟩

/-! ## Phrases -/

namespace Reading

/-- Whether a value comes next, inside what is open: behind a colon or a comma, or as the first item
of an array. -/
inductive Expects : Reading → List Frame → Prop where
  | value (frames : List Frame) : Expects (.value frames) frames
  | firstItem (frames : List Frame) : Expects (.itemOrEnd frames) (.array [] :: frames)

/-- Whether a key comes next, behind some members. -/
inductive ExpectsKey : Reading → List (Str × Json Str) → List Frame → Prop where
  | first (frames : List Frame) : ExpectsKey (.keyOrEnd frames) [] frames
  | next (members : List (Str × Json Str)) (frames : List Frame) :
      ExpectsKey (.nextKey members frames) members frames

variable {s : Reading} {frames : List Frame} {members : List (Str × Json Str)} {k : Token}

/-- The first token of a value is taken as such. -/
theorem Expects.step (h : s.Expects frames) (hk : k ≠ .rightBracket) :
    s.step k = start k frames := by
  cases h with
  | value => rfl
  | firstItem =>
      cases k with
      | rightBracket => exact absurd rfl hk
      | _ => rfl

/-- Where a key comes next, a string is that key. -/
theorem ExpectsKey.step (h : s.ExpectsKey members frames) (key : Str) :
    s.step (.string key) = some (colon members key frames) := by
  cases h <;> rfl

end Reading

/-- What the reader does with a phrase, wherever it expects one and whatever ends it. -/
def Phrase.Runs (t : Text) : Phrase → Prop
  | value j => ∀ s frames rest, s.Expects frames → Ends rest →
      run s (t ++ rest) = run (.complete j frames) rest
  | items js => ∀ s before frames rest, s.Expects (.array before :: frames) → Ends rest →
      run s (t ++ rest) = run (.afterItem (before ++ js) frames) rest
  | members ms => ∀ s before frames rest, s.ExpectsKey before frames → Ends rest →
      run s (t ++ rest) = run (.afterMember (before ++ ms) frames) rest

/-- A bracket where a value comes next begins an array. -/
theorem run_leftBracket {frames : List Frame} (hs : s.Expects frames) (t : Text) :
    run s ('[' :: t) = run (.itemOrEnd frames) t := by
  rw [run_of_token? rfl rfl, hs.step (by simp)]
  rfl

/-- And a brace begins an object. -/
theorem run_leftBrace {frames : List Frame} (hs : s.Expects frames) (t : Text) :
    run s ('{' :: t) = run (.keyOrEnd frames) t := by
  rw [run_of_token? rfl rfl, hs.step (by simp)]
  rfl

/-- A value that is one token is read as itself. -/
theorem runs_of_isToken_scalar (h : IsToken t (.scalar j)) : (Phrase.value j).Runs t := by
  intro s frames rest hs hrest
  rw [run_of_isToken h hrest, hs.step (by simp)]
  rfl

section

variable {s : Reading} {frames : List Frame} {before : List (Str × Json Str)} {key : Str}
  {v x y k : Text}

/-- A member is read with the space around it and its colon. -/
theorem run_member (hv : IsSpaces v) (hw : IsSpaces w) (hx : IsSpaces x) (hy : IsSpaces y)
    (hk : SpellsString k key) (h : (Phrase.value j).Runs t) (hs : s.ExpectsKey before frames)
    (hrest : Ends rest) : run s (v ++ k ++ w ++ ':' :: (x ++ t ++ y) ++ rest) =
      run (.afterMember (before ++ [(key, j)]) frames) rest := by
  have hcolon : run (.colon before key frames) (':' :: (x ++ (t ++ (y ++ rest)))) =
      run (.value (.object before key :: frames)) (x ++ (t ++ (y ++ rest))) := by
    rw [run_of_token? rfl rfl]
    rfl
  calc run s (v ++ k ++ w ++ ':' :: (x ++ t ++ y) ++ rest)
      = run s (v ++ (k ++ (w ++ ':' :: (x ++ (t ++ (y ++ rest)))))) := by simp
    _ = run s (k ++ (w ++ ':' :: (x ++ (t ++ (y ++ rest))))) := run_append_of_isSpaces hv _ _
    _ = run (.colon before key frames) (w ++ ':' :: (x ++ (t ++ (y ++ rest)))) := by
        rw [run_of_isToken (isToken_string hk) (.append hw (ends_colon _)), hs.step]
        rfl
    _ = run (.value (.object before key :: frames)) (t ++ (y ++ rest)) := by
        rw [run_append_of_isSpaces hw, hcolon, run_append_of_isSpaces hx]
    _ = run (.afterMember (before ++ [(key, j)]) frames) rest := by
        rw [h _ _ _ (.value _) (.append hy hrest), run_append_of_isSpaces hy]
        rfl

end

/-- **What is spelled is read**, phrase by phrase. -/
theorem Spells.runs {p : Phrase} (h : Spells t p) : p.Runs t := by
  -- behind a phrase the reader is where its rule says, and space never matters
  induction h with
  | null => exact runs_of_isToken_scalar isToken_null
  | true => exact runs_of_isToken_scalar isToken_true
  | false => exact runs_of_isToken_scalar isToken_false
  | integer n => exact runs_of_isToken_scalar (isToken_integer n)
  | decimal h => exact runs_of_isToken_scalar (isToken_decimal h)
  | string h =>
      intro s frames rest hs hrest
      rw [run_of_isToken (isToken_string h) hrest, hs.step (by simp)]
      rfl
  | emptyArray hw =>
      intro s frames rest hs hrest
      rw [List.append_assoc, List.cons_append, List.singleton_append, run_leftBracket hs,
        run_append_of_isSpaces hw, run_of_token? rfl rfl]
      rfl
  | array _ ih =>
      intro s frames rest hs hrest
      rw [List.append_assoc, List.cons_append, List.singleton_append, run_leftBracket hs,
        ih _ [] frames _ (.firstItem frames) (ends_bracket rest), run_of_token? rfl rfl]
      rfl
  | emptyObject hw =>
      intro s frames rest hs hrest
      rw [List.append_assoc, List.cons_append, List.singleton_append, run_leftBrace hs,
        run_append_of_isSpaces hw, run_of_token? rfl rfl]
      rfl
  | object _ ih =>
      intro s frames rest hs hrest
      rw [List.append_assoc, List.cons_append, List.singleton_append, run_leftBrace hs,
        ih _ [] frames _ (.first frames) (ends_brace rest), run_of_token? rfl rfl]
      rfl
  | item hv hw _ ih =>
      intro s before frames rest hs hrest
      rw [List.append_assoc, List.append_assoc, run_append_of_isSpaces hv,
        ih s _ _ hs (.append hw hrest), run_append_of_isSpaces hw]
      rfl
  | @moreItems v w t u j items hv hw _ _ ih ihu =>
      intro s before frames rest hs hrest
      have hcomma : run (.afterItem (before ++ [j]) frames) (',' :: (u ++ rest)) =
          run (.value (.array (before ++ [j]) :: frames)) (u ++ rest) := by
        rw [run_of_token? rfl rfl]
        rfl
      calc run s (v ++ t ++ w ++ ',' :: u ++ rest)
          = run s (v ++ (t ++ (w ++ ',' :: (u ++ rest)))) := by simp
        _ = run (.afterItem (before ++ [j]) frames) (',' :: (u ++ rest)) := by
            rw [run_append_of_isSpaces hv, ih s _ _ hs (.append hw (ends_comma _)),
              run_append_of_isSpaces hw]
            rfl
        _ = run (.afterItem (before ++ j :: items) frames) rest := by
            rw [hcomma, ihu _ _ frames _ (.value _) hrest, List.append_assoc,
              List.singleton_append]
  | member hv hw hx hy hk _ ih =>
      intro s before frames rest hs hrest
      exact run_member hv hw hx hy hk ih hs hrest
  | @moreMembers v w x y k t u key j members hv hw hx hy hk _ _ ih ihu =>
      intro s before frames rest hs hrest
      have hcomma : run (.afterMember (before ++ [(key, j)]) frames) (',' :: (u ++ rest)) =
          run (.nextKey (before ++ [(key, j)]) frames) (u ++ rest) := by
        rw [run_of_token? rfl rfl]
        rfl
      rw [List.append_assoc, List.cons_append,
        run_member hv hw hx hy hk ih hs (ends_comma _), hcomma,
        ihu _ _ frames _ (.next _ _) hrest, List.append_assoc, List.singleton_append]

/-- **Every text of a value** is read as that value. -/
theorem read?_of_isTextOf (h : IsTextOf t j) : read? t = some j := by
  obtain ⟨v, u, w, rfl, hv, hw, h⟩ := h
  have hend : Ends w := by
    intro c hc
    exact .inl (hw c (List.mem_of_mem_head? hc))
  have hrun := h.runs (.value []) [] w (.value []) hend
  have hspaces := run_append_of_isSpaces hw (.done j) []
  rw [List.append_nil] at hspaces
  rw [read?_eq_run, List.append_assoc, run_append_of_isSpaces hv, hrun]
  change (run (.done j) w).bind _ = _
  rw [hspaces, run_nil]
  rfl

end MathEdit.Json
