import MathEdit.Config.Reader
import MathEdit.Proofs.Json.Rendered
import MathEdit.Proofs.Text.ByteOrder
import Mathlib.Data.List.Nodup
import Mathlib.Data.Option.Basic

/-! # Configurations over the standard one

A text gives some members of a configuration, in any order and among members that nobody asks for,
and the others keep their standard values. An `Overlay` is what a text can give. It is read back
from every text that gives it, so the configuration of the text is the overlay over the standard
one, unless a name in it is bad.

* **`IsRecord`**, **`Overlay.IsGivenBy`**: which values give an overlay.
* **`fields?_of_isRecord`**: the named members of an object are found.
* **`ofJson?_of_isGivenBy`**: an overlay is read over the standard configuration.
* **`Verdict`**, **`verdict_validate`**: what becomes of a configuration that was read.
* **`ofText_overlay`**: the configuration of a text, and of what was written. -/

namespace MathEdit

open Json (Str IsTextOf)

/-! ## What a text gives -/

/-- The members of a recognition that are given. -/
structure RecognitionOverlay where
  environments : Option (List Text)
  anyEnvironment : Option Bool
  window : Option UInt64

/-- The members of a layout of rows that are given. -/
structure RowOverlay where
  environment : Option Text
  indent : Option UInt64

/-- The members of a configuration that are given, with their own members. -/
structure Overlay where
  recognition : Option RecognitionOverlay
  rows : Option RowOverlay
  autoBrace : Option Bool

/-- A recognition with the given members in place of its own. The names are taken as a set. -/
def RecognitionOverlay.over (o : RecognitionOverlay) (r : Recognition) : Recognition where
  environments := (o.environments.map Ascending.ofList).getD r.environments
  anyEnvironment := o.anyEnvironment.getD r.anyEnvironment
  window := (o.window.map UInt64.toNat).getD r.window

/-- A layout of rows with the given members in place of its own. -/
def RowOverlay.over (o : RowOverlay) (s : RowStyle) : RowStyle where
  environment := o.environment.getD s.environment
  indent := (o.indent.map UInt64.toNat).getD s.indent

/-- A configuration with the given members in place of its own. -/
def Overlay.over (o : Overlay) (c : Config) : Config where
  recognition := (o.recognition.map (·.over c.recognition)).getD c.recognition
  rows := (o.rows.map (·.over c.rows)).getD c.rows
  autoBrace := o.autoBrace.getD c.autoBrace

namespace Config

/-- A name and the value of the member with that name, if it is given. -/
abbrev Field := String × Option (Json Str)

/-- The members that are given, in the order of the names. -/
def given (fields : List Field) : List (Str × Json Str) :=
  fields.filterMap fun (name, value?) => value?.map (some name.toList, ·)

/-- Whether a value is an object with the given members, in any order and each once, and besides
them only members with other names. -/
def IsRecord (fields : List Field) (j : Json Str) : Prop :=
  ∃ members others, j = .object members ∧ members.Perm (given fields ++ others) ∧
    ∀ m ∈ others, ∃ key : Text, m.1 = some key ∧ ∀ f ∈ fields, f.1.toList ≠ key

end Config

/-- The members of a recognition as they are written. -/
def RecognitionOverlay.fields (o : RecognitionOverlay) : List Config.Field :=
  [("recognizedEnvironments", o.environments.map fun names => .array (names.map (.string ∘ some))),
    ("allowArbitraryEnvironmentNames", o.anyEnvironment.map .bool),
    ("window", o.window.map fun n => .integer n.toNat)]

/-- The members of a layout of rows as they are written. -/
def RowOverlay.fields (o : RowOverlay) : List Config.Field :=
  [("environment", o.environment.map (.string ∘ some)),
    ("indent", o.indent.map fun n => .integer n.toNat)]

/-- Whether a value gives the members of a configuration. -/
def Overlay.IsGivenBy (o : Overlay) (j : Json Str) : Prop :=
  ∃ recognition rows : Option (Json Str),
    Option.Rel (fun r j => Config.IsRecord (RecognitionOverlay.fields r) j) o.recognition
      recognition ∧
    Option.Rel (fun r j => Config.IsRecord (RowOverlay.fields r) j) o.rows rows ∧
    Config.IsRecord
      [("locator", recognition), ("split", rows), ("autoBrace", o.autoBrace.map .bool)] j

namespace Config

/-! ## Records -/

/-- If every member of a list can be read, the list is read as what its members give. -/
theorem mapM_eq_some_map {α β : Type} {read : α → Option β} {f : α → β} {xs : List α}
    (h : ∀ x ∈ xs, read x = some (f x)) : xs.mapM read = some (xs.map f) := by
  induction xs with
  | nil => rfl
  | cons x xs ih =>
      obtain ⟨hx, hxs⟩ := List.forall_mem_cons.1 h
      rw [List.mapM_cons, hx, ih hxs]
      rfl

variable {fields : List Field} {name : String} {value? : Option (Json Str)} {j : Json Str}

/-- The member of a field comes before those of the fields behind it, if it is given. -/
theorem given_cons (f : Field) (fields : List Field) :
    given (f :: fields) = (f.2.map (some f.1.toList, ·)).toList ++ given fields := by
  obtain ⟨name, _ | value⟩ := f <;> rfl

/-- A member that is given has the name of a field. -/
theorem exists_of_mem_given {m : Str × Json Str} (h : m ∈ given fields) :
    ∃ name ∈ fields.map Prod.fst, m.1 = some name.toList := by
  obtain ⟨⟨name, value?⟩, hf, hm⟩ := List.mem_filterMap.1 h
  obtain ⟨value, -, rfl⟩ := Option.map_eq_some_iff.1 hm
  exact ⟨name, List.mem_map_of_mem hf, rfl⟩

/-- No member has a name that no field has. -/
theorem filter_given_of_notMem (h : name ∉ fields.map Prod.fst) :
    (given fields).filter (·.1 = some name.toList) = [] := by
  refine List.filter_eq_nil_iff.2 fun m hm hkey => ?_
  obtain ⟨other, hother, hm⟩ := exists_of_mem_given hm
  have heq : other = name := String.toList_inj.1 (by simpa [hm] using hkey)
  exact h (heq ▸ hother)

/-- The member with a name is the one that is given for it. -/
theorem filter_given (hnames : (fields.map Prod.fst).Nodup) (h : (name, value?) ∈ fields) :
    (given fields).filter (·.1 = some name.toList) =
      (value?.map (some name.toList, ·)).toList := by
  induction fields with
  | nil => cases h
  | cons f fields ih =>
      obtain ⟨hf, hnames⟩ := List.nodup_cons.1 hnames
      rw [given_cons, List.filter_append]
      -- names occur once, so the member is that of the first field or of a later one
      rcases List.mem_cons.1 h with rfl | h
      · rw [filter_given_of_notMem hf, List.append_nil]
        cases value? <;> simp
      · have hne : f.1 ≠ name := by
          rintro rfl
          exact hf (List.mem_map.2 ⟨_, h, rfl⟩)
        rw [ih hnames h]
        cases f.2 <;> simp [String.toList_inj, hne]

/-- **The named members of an object** are found, wherever they stand. -/
theorem fields?_of_isRecord (h : IsRecord fields j) (hnames : (fields.map Prod.fst).Nodup) :
    fields? (fields.map Prod.fst) j = some (fields.map Prod.snd) := by
  obtain ⟨members, others, rfl, hmembers, hothers⟩ := h
  have hkeys : members.all (·.1.isSome) = true := by
    refine List.all_eq_true.2 fun m hm => ?_
    rcases List.mem_append.1 (hmembers.mem_iff.1 hm) with hm | hm
    · obtain ⟨name, -, hm⟩ := exists_of_mem_given hm
      rw [hm, Option.isSome_some]
    · obtain ⟨key, hm, -⟩ := hothers m hm
      rw [hm, Option.isSome_some]
  -- the order of the members is lost, but of at most one member there is only one order
  have hfilter (f : Field) (hf : f ∈ fields) :
      (members.filter (·.1 = some f.1.toList)).Perm (f.2.map (some f.1.toList, ·)).toList := by
    have hrest : others.filter (·.1 = some f.1.toList) = [] := by
      refine List.filter_eq_nil_iff.2 fun m hm hkey => ?_
      obtain ⟨key, hm, hne⟩ := hothers m hm
      exact hne f hf (by simpa [hm, eq_comm] using hkey)
    have hperm := hmembers.filter (·.1 = some f.1.toList)
    rwa [List.filter_append, filter_given hnames hf, hrest, List.append_nil] at hperm
  rw [fields?, if_pos hkeys, List.mapM_map]
  refine mapM_eq_some_map fun f hf => ?_
  obtain ⟨name, _ | value⟩ := f
  · rw [Function.comp_apply, (hfilter _ hf).eq_nil]
  · rw [Function.comp_apply, List.perm_singleton.1 (hfilter _ hf)]

/-- A member is read, or keeps its standard value. -/
theorem read?_of_rel {α β : Type} {R : α → Json Str → Prop} {read : Json Str → Option β} {f : α → β}
    {x : Option α} (default : β) (h : Option.Rel R x value?)
    (hread : ∀ a j, R a j → read j = some (f a)) :
    read? read default value? = some ((x.map f).getD default) := by
  cases h with
  | none => rfl
  | some h => exact hread _ _ h

/-- A member that is written in one way is read, or keeps its standard value. -/
theorem read?_map {α β : Type} {write : α → Json Str} {read : Json Str → Option β} {f : α → β}
    (x : Option α) (default : β) (hread : ∀ a, read (write a) = some (f a)) :
    read? read default (x.map write) = some ((x.map f).getD default) := by
  cases x with
  | none => rfl
  | some a => exact hread a

/-- A list of names is read as the set of them. -/
theorem texts?_array (names : List Text) :
    texts? (.array (names.map (.string ∘ some))) = some (Ascending.ofList names) := by
  have htexts : names.mapM (text? ∘ .string ∘ some) = some (names.map id) :=
    mapM_eq_some_map fun _ _ => rfl
  rw [texts?, List.mapM_map, htexts, List.map_id, Option.map_some]

/-- A number of 64 bits is read as itself. -/
theorem word?_integer (n : UInt64) : word? (.integer n.toNat) = some n.toNat :=
  if_pos ⟨Int.natCast_nonneg _, n.toNat_lt_size⟩

/-- A flag is read as itself, in the shape of the other readers. -/
theorem flag?_bool (b : Bool) : flag? (.bool b) = some (id b) := rfl

/-- So is a text. -/
theorem text?_string (t : Text) : text? ((.string ∘ some) t) = some (id t) := rfl

/-- A recognition is read with what is not given at its default. -/
theorem recognition?_of_isRecord {o : RecognitionOverlay} (h : IsRecord o.fields j) :
    recognition? j = some (o.over .standard) := by
  have hfields : fields? ["recognizedEnvironments", "allowArbitraryEnvironmentNames", "window"] j =
      some (o.fields.map Prod.snd) :=
    fields?_of_isRecord h (by simp [RecognitionOverlay.fields])
  rw [recognition?, hfields]
  simp only [RecognitionOverlay.fields, List.map_cons, List.map_nil, Option.bind_eq_bind,
    Option.bind_some, read?_map o.environments _ texts?_array,
    read?_map o.anyEnvironment _ flag?_bool, read?_map o.window _ word?_integer, Option.map_id]
  rfl

/-- So is a layout of rows. -/
theorem rows?_of_isRecord {o : RowOverlay} (h : IsRecord o.fields j) :
    rows? j = some (o.over .standard) := by
  have hfields : fields? ["environment", "indent"] j = some (o.fields.map Prod.snd) :=
    fields?_of_isRecord h (by simp [RowOverlay.fields])
  rw [rows?, hfields]
  simp only [RowOverlay.fields, List.map_cons, List.map_nil, Option.bind_eq_bind, Option.bind_some,
    read?_map o.environment _ text?_string, read?_map o.indent _ word?_integer, Option.map_id]
  rfl

/-- **An overlay** is read over the standard configuration. -/
theorem ofJson?_of_isGivenBy {o : Overlay} (h : o.IsGivenBy j) :
    ofJson? j = some (o.over standard) := by
  obtain ⟨recognition, rows, hrecognition, hrows, h⟩ := h
  have hfields : fields? ["locator", "split", "autoBrace"] j =
      some [recognition, rows, o.autoBrace.map .bool] := fields?_of_isRecord h (by simp)
  rw [ofJson?, hfields]
  simp only [Option.bind_eq_bind, Option.bind_some, read?_map o.autoBrace _ flag?_bool,
    read?_of_rel _ hrecognition fun _ _ => recognition?_of_isRecord,
    read?_of_rel _ hrows fun _ _ => rows?_of_isRecord, Option.map_id]
  rfl

/-! ## Validation -/

/-- What becomes of a configuration that was read: it holds, or its first bad name in the order of
bytes is reported, where the names to recognize come before the name for rows. -/
inductive Verdict (c : Config) : Except EditError Config → Prop where
  | valid (hnames : ∀ name ∈ c.recognition.environments, Environment.isName name = true)
      (hrows : Environment.isName c.rows.environment = true) : Verdict c (.ok c)
  | badName {name : Text} (hmem : name ∈ c.recognition.environments)
      (hname : Environment.isName name = false)
      (hfirst : ∀ other ∈ c.recognition.environments, Environment.isName other = false →
        other ≠ name → name.utf8 < other.utf8) : Verdict c (.error (.invalidEnvironment name))
  | badRows (hnames : ∀ name ∈ c.recognition.environments, Environment.isName name = true)
      (hrows : Environment.isName c.rows.environment = false) :
      Verdict c (.error (.invalidEnvironment c.rows.environment))

/-- The bad name that is found is the first one, since the names are in ascending order. -/
theorem verdict_validate_of_invalidName? {c : Config} {name : Text}
    (h : c.recognition.environments.Pairwise (· < ·))
    (hbad : c.recognition.invalidName? = some name) :
    Verdict c (.error (.invalidEnvironment name)) := by
  obtain ⟨hname, before, behind, heq, hbefore⟩ := List.find?_eq_some_iff_append.1 hbad
  refine .badName (heq ▸ by simp) (by simpa using hname) fun other hother hbad hne => ?_
  rw [heq] at h hother
  rcases List.mem_append.1 hother with hother | hother
  · exact absurd (hbefore other hother) (by simp [hbad])
  · have hbehind := (List.mem_cons.1 hother).resolve_left hne
    exact Text.utf8_lt_utf8 ((List.pairwise_cons.1 (List.pairwise_append.1 h).2.1).1 other hbehind)

/-- **A configuration is validated** by its verdict if its names are a set. -/
theorem verdict_validate {c : Config} (h : c.recognition.environments.Pairwise (· < ·)) :
    Verdict c (do c.validate; return c) := by
  -- a bad name of the recognition is reported before the name for rows is looked at
  cases hbad : c.recognition.invalidName? with
  | some name =>
      have hvalidate : c.validate = .error (.invalidEnvironment name) := by
        rw [validate, Recognition.validate, hbad]
        rfl
      rw [hvalidate]
      exact verdict_validate_of_invalidName? h hbad
  | none =>
      have hnames : ∀ name ∈ c.recognition.environments, Environment.isName name = true := by
        simpa using List.find?_eq_none.1 hbad
      have hvalidate : c.validate = c.rows.validate := by
        rw [validate, Recognition.validate, hbad]
        rfl
      rw [hvalidate, RowStyle.validate]
      split
      · next hrows => exact .valid hnames hrows
      · next hrows => exact .badRows hnames (Bool.eq_false_iff.2 hrows)

/-- Where all names are valid, the verdict is that the configuration holds. -/
theorem Verdict.eq_ok {c : Config} {r : Except EditError Config} (h : Verdict c r)
    (hnames : ∀ name ∈ c.recognition.environments, Environment.isName name = true)
    (hrows : Environment.isName c.rows.environment = true) : r = .ok c := by
  cases h with
  | valid => rfl
  | badName hmem hname => exact absurd (hnames _ hmem) (by simp [hname])
  | badRows _ hrows' => exact absurd hrows (by simp [hrows'])

/-- The standard names are in ascending order. -/
theorem pairwise_environments_standard :
    Recognition.standard.environments.Pairwise (· < ·) := by
  decide +kernel

/-- An overlay over the standard leaves the names in ascending order. -/
theorem pairwise_environments_over (o : Overlay) :
    (o.over standard).recognition.environments.Pairwise (· < ·) := by
  obtain ⟨_ | ⟨_ | names, _, _⟩, _, _⟩ := o
  · exact pairwise_environments_standard
  · exact pairwise_environments_standard
  · exact Ascending.pairwise_ofList names

/-! ## What is written -/

/-- Whether a configuration is one that can be written: its names are a set, and its numbers have 64
bits. -/
structure IsWritable (c : Config) : Prop where
  environments : c.recognition.environments.Pairwise (· < ·)
  window : c.recognition.window < UInt64.size
  indent : c.rows.indent < UInt64.size

/-- The overlay that gives every member of a configuration. -/
def IsWritable.overlay {c : Config} (h : c.IsWritable) : Overlay where
  recognition := some ⟨some c.recognition.environments, some c.recognition.anyEnvironment,
    some (.ofNatLT c.recognition.window h.window)⟩
  rows := some ⟨some c.rows.environment, some (.ofNatLT c.rows.indent h.indent)⟩
  autoBrace := some c.autoBrace

/-- An overlay that gives every member leaves nothing of what it is over. -/
theorem IsWritable.overlay_over {c : Config} (h : c.IsWritable) (d : Config) :
    h.overlay.over d = c := by
  simp [overlay, Overlay.over, RecognitionOverlay.over, RowOverlay.over,
    Ascending.ofList_eq_self h.environments]

/-- A list of strings is read back as it was written. -/
theorem itemsAsRead_map_string (names : List Text) :
    Json.itemsAsRead (names.map .string) = names.map (.string ∘ some) := by
  induction names with
  | nil => rfl
  | cons name names ih => rw [List.map_cons, Json.itemsAsRead, ih]; rfl

/-- A list of strings has no numbers in it. -/
theorem itemsHaveDecimals_map_string (names : List Text) :
    Json.ItemsHaveDecimals (names.map .string) := by
  induction names with
  | nil => trivial
  | cons name names ih => exact ⟨trivial, ih⟩

/-- The numbers of a configuration are integers. -/
theorem hasDecimals_toJson (c : Config) : c.toJson.HasDecimals := by
  simp [toJson, Json.record, Json.nat, Json.HasDecimals, Json.MembersHaveDecimals,
    itemsHaveDecimals_map_string]

/-- An object with exactly the given members, in the order of their names. -/
theorem isRecord_given (fields : List Field) : IsRecord fields (.object (given fields)) :=
  ⟨given fields, [], rfl, by simp, by simp⟩

/-- **What is written** gives every member. -/
theorem IsWritable.isGivenBy {c : Config} (h : c.IsWritable) :
    h.overlay.IsGivenBy c.toJson.asRead := by
  refine ⟨_, _, .some (isRecord_given _), .some (isRecord_given _), ?_⟩
  have hjson : c.toJson.asRead = .object (given
      [("locator", some (.object (given (RecognitionOverlay.fields ⟨some c.recognition.environments,
          some c.recognition.anyEnvironment, some (.ofNatLT c.recognition.window h.window)⟩)))),
        ("split", some (.object (given (RowOverlay.fields
          ⟨some c.rows.environment, some (.ofNatLT c.rows.indent h.indent)⟩)))),
        ("autoBrace", some (.bool c.autoBrace))]) := by
    simp [toJson, Json.record, Json.nat, Json.asRead, Json.membersAsRead, given,
      RecognitionOverlay.fields, RowOverlay.fields, itemsAsRead_map_string]
  rw [hjson]
  exact isRecord_given _

/-! ## Texts -/

/-- What a text gives has its verdict over the standard configuration. -/
theorem verdict_ofText {t : Text} {j : Json Str} {o : Overlay} (ht : IsTextOf t j)
    (hj : o.IsGivenBy j) : Verdict (o.over standard) (ofText t) := by
  rw [ofText, Json.read?_of_isTextOf ht, Option.bind_some, ofJson?_of_isGivenBy hj]
  exact verdict_validate (pairwise_environments_over o)

/-- A configuration with good names is read from every text of it. -/
theorem IsWritable.ofText_eq {c : Config} (h : c.IsWritable) {t : Text}
    (ht : IsTextOf t c.toJson.asRead)
    (hnames : ∀ name ∈ c.recognition.environments, Environment.isName name = true)
    (hrows : Environment.isName c.rows.environment = true) : ofText t = .ok c := by
  have hverdict := verdict_ofText ht h.isGivenBy
  rw [h.overlay_over] at hverdict
  exact hverdict.eq_ok hnames hrows

/-- **The configuration of a text** is the standard one with what the text gives in its place, or
its first bad name is reported. So a configuration with good names is read from what is written for
it, and from every other text of the same value. -/
theorem ofText_overlay :
    (∀ (t : Text) (j : Json Str) (o : Overlay), IsTextOf t j → o.IsGivenBy j →
      Verdict (o.over standard) (ofText t)) ∧
    ∀ c : Config, c.IsWritable →
      (∀ name ∈ c.recognition.environments, Environment.isName name = true) →
      Environment.isName c.rows.environment = true →
      ofText c.toJson.render = .ok c ∧ ∀ t, IsTextOf t c.toJson.asRead → ofText t = .ok c := by
  refine ⟨fun t j o => verdict_ofText, fun c hc hnames hrows => ⟨?_, fun t ht => ?_⟩⟩
  · exact hc.ofText_eq (Json.isTextOf_render (hasDecimals_toJson c)) hnames hrows
  · exact hc.ofText_eq ht hnames hrows

/-- An object with a member that nobody asks for, which has half of a surrogate pair inside, and
with an escape in the key of another one. -/
theorem ofText_overlay_with_note :
    Verdict ⟨.standard, ⟨"align".toList, 2⟩, true⟩
      (ofText "\x7b\"note\": [\"\\ud800\"], \"\\u0073plit\": \x7b\"indent\": 2\x7d\x7d".toList) ∧
    ofText standard.toJson.render = .ok standard := by
  have hhalf : Json.SpellsString "\"\\ud800\"".toList none := by
    have hspells : Json.SpellsPieces "\\ud800".toList [.unit 0xd800] := .cons (.unit rfl) .nil
    -- half of a surrogate pair is a string, but one without a value
    refine .halves hspells fun s hs => ?_
    cases (Json.joinPieces_eq_some_iff hspells.lt_of_mem).2 hs
  -- the key has its first letter escaped
  have hkey : Json.SpellsString "\"\\u0073plit\"".toList (some "split".toList) := by
    obtain ⟨ps, hspells, hmakes⟩ := Json.exists_spellsPieces "plit".toList
    exact .text (.cons (.unit rfl) hspells) (hmakes.units 's')
  have hnote : Json.Spells "[\"\\ud800\"]".toList (.value (.array [.string none])) :=
    .array (.item Json.isSpaces_nil Json.isSpaces_nil (.string hhalf))
  have hindent : Json.Spells "\x7b\"indent\": 2\x7d".toList
      (.value (.object [(some "indent".toList, .integer 2)])) :=
    .object (.member Json.isSpaces_nil Json.isSpaces_nil Json.isSpaces_space Json.isSpaces_nil
      (Json.spellsString_stringText "indent".toList) (.integer 2))
  have htext : IsTextOf
      "\x7b\"note\": [\"\\ud800\"], \"\\u0073plit\": \x7b\"indent\": 2\x7d\x7d".toList
      (.object [(some "note".toList, .array [.string none]),
        (some "split".toList, .object [(some "indent".toList, .integer 2)])]) :=
    ⟨[], _, [], rfl, Json.isSpaces_nil, Json.isSpaces_nil,
      .object (.moreMembers Json.isSpaces_nil Json.isSpaces_nil Json.isSpaces_space
        Json.isSpaces_nil (Json.spellsString_stringText "note".toList) hnote
        (.member Json.isSpaces_space Json.isSpaces_nil Json.isSpaces_space Json.isSpaces_nil hkey
          hindent))⟩
  have hgiven : Overlay.IsGivenBy ⟨none, some ⟨none, some 2⟩, none⟩
      (.object [(some "note".toList, .array [.string none]),
        (some "split".toList, .object [(some "indent".toList, .integer 2)])]) := by
    refine ⟨none, some _, .none, .some (isRecord_given _), _, [(some "note".toList, _)], rfl,
      .swap _ _ _, ?_⟩
    simp
  refine ⟨ofText_overlay.1 _ _ _ htext hgiven, (ofText_overlay.2 standard ?_ ?_ ?_).1⟩
  · exact ⟨pairwise_environments_standard, by decide, by decide⟩
  · decide +kernel
  · decide +kernel

end Config

end MathEdit
