import MathEdit.Proofs.Json.Spelling

/-! # Values that are written

`Json.render` writes a value as one of its texts, so the reader finds the value again. What is
written has texts for strings and what is read may have strings without a text, so the value is the
same up to `Json.asRead`.

* **`spellsString_stringText`**: a text is escaped to a string with the value of that text.
* **`isTextOf_render`**, **`read?_render`**: what is written is a text of its value. -/

namespace MathEdit.Json

/-! ## The value that is read -/

mutual

/-- A value with texts for strings, as it is read. -/
def asRead : Json Text → Json Str
  | .null => .null
  | .bool b => .bool b
  | .integer n => .integer n
  | .decimal spelling => .decimal spelling
  | .string s => .string (some s)
  | .array items => .array (itemsAsRead items)
  | .object members => .object (membersAsRead members)

/-- The items of an array, as they are read. -/
def itemsAsRead : List (Json Text) → List (Json Str)
  | [] => []
  | item :: items => item.asRead :: itemsAsRead items

/-- The members of an object, as they are read. -/
def membersAsRead : List (Text × Json Text) → List (Str × Json Str)
  | [] => []
  | (key, value) :: members => (some key, value.asRead) :: membersAsRead members

end

mutual

/-- Whether the numbers of a value other than integers are spelled as such. -/
def HasDecimals : Json Text → Prop
  | .decimal spelling => IsDecimal spelling
  | .array items => ItemsHaveDecimals items
  | .object members => MembersHaveDecimals members
  | _ => True

/-- Whether the numbers in the items of an array are spelled as such. -/
def ItemsHaveDecimals : List (Json Text) → Prop
  | [] => True
  | item :: items => item.HasDecimals ∧ ItemsHaveDecimals items

/-- Whether the numbers in the members of an object are spelled as such. -/
def MembersHaveDecimals : List (Text × Json Text) → Prop
  | [] => True
  | (_, value) :: members => value.HasDecimals ∧ MembersHaveDecimals members

end

/-! ## Strings -/

/-- The digit of a number below sixteen has that value. -/
theorem hexValue?_digitChar : ∀ d < 16, hexValue? d.digitChar = some d := by decide

/-- Four hexadecimal digits are read as the number that they were made from. -/
theorem unit?_hex4 {n : Nat} (hn : n < 0x10000) :
    ∃ a b c d, hex4 n = [a, b, c, d] ∧ unit? a b c d = some n := by
  refine ⟨_, _, _, _, rfl, ?_⟩
  have hdigits : (((n / 4096 % 16) * 16 + n / 256 % 16) * 16 + n / 16 % 16) * 16 + n % 16 = n := by
    omega
  have hdigit (m : Nat) : hexValue? (m % 16).digitChar = some (m % 16) :=
    hexValue?_digitChar _ (Nat.mod_lt m (by decide))
  simp only [unit?, hdigit, Option.bind_eq_bind, Option.bind_some, Option.pure_def, hdigits]

/-- A character of a string is written as one piece, a control character perhaps by its unit. -/
theorem spellsPiece_escapeChar (c : Char) :
    SpellsPiece (escapeChar c) (.char c) ∨
      SpellsPiece (escapeChar c) (.unit c.toNat) ∧ c.toNat < 0x20 := by
  unfold escapeChar
  -- seven characters have a letter behind the backslash
  iterate 7
    split
    · next h =>
        subst h
        exact .inl (.letter rfl)
  next hquote hbackslash _ _ _ _ _ =>
    split
    · next hc =>
        obtain ⟨a, b, c', d, hhex, hunit⟩ := unit?_hex4 (Nat.lt_trans hc (by decide))
        rw [hhex]
        exact .inr ⟨.unit hunit, hc⟩
    · next hc => exact .inl (.plain hquote hbackslash (Nat.not_lt.1 hc))

/-- The escaped characters of a text spell pieces that make up the text. -/
theorem exists_spellsPieces (s : Text) :
    ∃ ps, SpellsPieces (s.flatMap escapeChar) ps ∧ MakesUp ps s := by
  induction s with
  | nil => exact ⟨[], .nil, .nil⟩
  | cons c s ih =>
      obtain ⟨ps, hspells, hmakes⟩ := ih
      rcases spellsPiece_escapeChar c with hc | ⟨hc, hlt⟩
      · exact ⟨_, .cons hc hspells, .char c hmakes⟩
      · have hunits : utf16Units c = [c.toNat] := if_pos (Nat.lt_trans hlt (by decide))
        have hmakes' := hmakes.units c
        rw [hunits] at hmakes'
        exact ⟨_, .cons hc hspells, hmakes'⟩

/-- **A text is written as a string** that has the text as its value. -/
theorem spellsString_stringText (s : Text) : SpellsString (stringText s) (some s) := by
  obtain ⟨ps, hspells, hmakes⟩ := exists_spellsPieces s
  exact .text hspells hmakes

/-! ## Values -/

/-- Nothing is written where there may be space. -/
theorem isSpaces_nil : IsSpaces [] := fun _ h => nomatch h

/-- Or a space is. -/
theorem isSpaces_space : IsSpaces [' '] := by
  rintro c hc
  obtain rfl := List.mem_singleton.1 hc
  rfl

/-- Or a new line with its indentation. -/
theorem isSpaces_newline (level : Nat) : IsSpaces (newline level) := by
  rintro c hc
  rcases List.mem_cons.1 hc with rfl | hc
  · rfl
  · obtain rfl := List.eq_of_mem_replicate hc
    rfl

mutual

/-- A value is written as it is spelled, at each level. -/
theorem spells_renderAt (level : Nat) :
    ∀ j : Json Text, j.HasDecimals → Spells (renderAt level j) (.value j.asRead)
  | .null, _ => .null
  | .bool true, _ => .true
  | .bool false, _ => .false
  | .integer n, _ => .integer n
  | .decimal _, h => .decimal h
  | .string s, _ => .string (spellsString_stringText s)
  | .array [], _ => .emptyArray isSpaces_nil
  | .array (item :: items), ⟨hitem, hitems⟩ => by
      have h := spells_renderItems (level + 1) items hitems (isSpaces_newline (level + 1))
        (isSpaces_newline level) (spells_renderAt (level + 1) item hitem)
      simpa [renderAt, asRead, itemsAsRead] using h.array
  | .object [], _ => .emptyObject isSpaces_nil
  | .object ((key, value) :: members), ⟨hvalue, hmembers⟩ => by
      have h := spells_renderMembers (level + 1) members hmembers (isSpaces_newline (level + 1))
        (isSpaces_newline level) key (spells_renderAt (level + 1) value hvalue)
      simpa [renderAt, asRead, membersAsRead] using h.object

/-- The items of an array are written behind the first one. -/
theorem spells_renderItems (level : Nat) :
    ∀ items : List (Json Text), ItemsHaveDecimals items →
      ∀ {v w t : Text} {j : Json Str}, IsSpaces v → IsSpaces w → Spells t (.value j) →
        Spells (v ++ t ++ renderItems level items ++ w) (.items (j :: itemsAsRead items))
  | [], _, v, w, t, j, hv, hw, ht => by
      simpa [renderItems, itemsAsRead] using Spells.item hv hw ht
  | item :: items, ⟨hitem, hitems⟩, v, w, t, j, hv, hw, ht => by
      have h := spells_renderItems level items hitems (isSpaces_newline level) hw
        (spells_renderAt level item hitem)
      simpa [renderItems, itemsAsRead] using Spells.moreItems hv isSpaces_nil ht h

/-- The members of an object are written behind the first one. -/
theorem spells_renderMembers (level : Nat) :
    ∀ members : List (Text × Json Text), MembersHaveDecimals members →
      ∀ {v w t : Text} {j : Json Str}, IsSpaces v → IsSpaces w → ∀ key : Text,
        Spells t (.value j) →
        Spells (v ++ stringText key ++ ':' :: ' ' :: t ++ renderMembers level members ++ w)
          (.members ((some key, j) :: membersAsRead members))
  | [], _, v, w, t, j, hv, hw, key, ht => by
      have h := Spells.member hv isSpaces_nil isSpaces_space hw (spellsString_stringText key) ht
      simpa [renderMembers, membersAsRead] using h
  | (key', value) :: members, ⟨hvalue, hmembers⟩, v, w, t, j, hv, hw, key, ht => by
      have hmore := spells_renderMembers level members hmembers (isSpaces_newline level) hw key'
        (spells_renderAt level value hvalue)
      have h := Spells.moreMembers hv isSpaces_nil isSpaces_space isSpaces_nil
        (spellsString_stringText key) ht hmore
      simpa [renderMembers, membersAsRead] using h

end

/-- **What is written** is a text of its value. -/
theorem isTextOf_render {j : Json Text} (h : j.HasDecimals) : IsTextOf j.render j.asRead :=
  ⟨[], j.render, [], by simp, isSpaces_nil, isSpaces_nil, spells_renderAt 0 j h⟩

/-- What is written is read again. -/
theorem read?_render {j : Json Text} (h : j.HasDecimals) : read? j.render = some j.asRead :=
  read?_of_isTextOf (isTextOf_render h)

end MathEdit.Json
