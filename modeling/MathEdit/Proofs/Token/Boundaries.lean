import Mathlib.Data.List.TakeWhile
import MathEdit.Proofs.Tags
import MathEdit.Proofs.Text.Runs

/-! # Boundaries between lexemes

Where a lexeme ends depends on the text behind it: a run ends where its class of characters does,
and the commands `\begin` and `\end` take a name group along. `Lexeme.Begins l u` says that `l` is
the first lexeme of `l.text ++ u`, with one constructor for each way a lexeme can come about.

* **`Lexeme.begins_iff`**: `Begins` describes exactly what `Lexeme.first` does.
* **`lex_join_append_iff`**: lexemes are scanned as themselves before a text exactly if each of them
  begins what follows it.
* **`lex_append_iff`**: a place in a text is a boundary exactly if the lexemes of the text are those
  of its two sides. -/

namespace MathEdit

/-- Whether a text does not go on with a character of a class. -/
def Stops (p : Char → Bool) (u : Text) : Prop := ∀ c ∈ u.head?, p c = false

/-- Whether tokens of a kind are single characters with a meaning of their own. -/
def Token.Kind.isSign : Token.Kind → Bool
  | opening .brace | opening .bracket | opening .paren => true
  | closing .brace | closing .bracket | closing .paren => true
  | operator _ | script _ | dollar => true
  | _ => false

namespace Lexeme

/-- The kind of a backslash and letters that take no name group along. -/
def wordKind (name : Text) : Token.Kind :=
  if name = "left".toList then .opening .delimiter
  else if name = "right".toList then .closing .delimiter
  else .command name

/-- The commands that take a name group along. -/
def TakesName (name : Text) : Prop := name = "begin".toList ∨ name = "end".toList

/-- The commands that take a name have names themselves. -/
theorem TakesName.ne_nil {name : Text} (h : TakesName name) : name ≠ [] := by
  rcases h with rfl | rfl <;> decide

/-- These are made of letters. -/
theorem TakesName.isAlpha {name : Text} (h : TakesName name) : ∀ c ∈ name, c.isAlpha = true := by
  rw [← List.all_eq_true]
  rcases h with rfl | rfl <;> decide

/-- Without a name group they are commands like others. -/
theorem TakesName.wordKind_eq {name : Text} (h : TakesName name) :
    wordKind name = .command name := by
  rcases h with rfl | rfl <;> rfl

/-- Whether a lexeme is the first one of its text with `u` behind it. -/
inductive Begins : Lexeme → Text → Prop where
  | sign {c : Char} {kind : Token.Kind} {u : Text} (h : sign? c = some kind) : Begins ⟨kind, [c]⟩ u
  | comment {s u : Text} (hs : ∀ c ∈ s, inComment c = true) (hu : Stops inComment u) :
      Begins ⟨.comment, '%' :: s⟩ u
  | blank {s u : Text} (hne : s ≠ []) (hs : ∀ c ∈ s, Text.isBlank c = true)
      (hu : Stops Text.isBlank u) : Begins ⟨.blank, s⟩ u
  | plain {s u : Text} (hne : s ≠ []) (hs : ∀ c ∈ s, isSpecial c = false)
      (hu : Stops (!isSpecial ·) u) : Begins ⟨.plain, s⟩ u
  | backslash : Begins ⟨.plain, ['\\']⟩ []
  | escaped {c : Char} {u : Text} (h : c.isAlpha = false) : Begins ⟨.escaped c, ['\\', c]⟩ u
  | word {name u : Text} (hne : name ≠ []) (hname : ∀ c ∈ name, c.isAlpha = true)
      (hu : Stops Char.isAlpha u) (hgroup : TakesName name → nameGroup? u = none) :
      Begins ⟨wordKind name, '\\' :: name⟩ u
  | openingTag {name u : Text} (hne : name ≠ []) (hname : ∀ c ∈ name, endsName c = false) :
      Begins ⟨.opening (.environment name), Environment.openingTag name⟩ u
  | closingTag {name u : Text} (hne : name ≠ []) (hname : ∀ c ∈ name, endsName c = false) :
      Begins ⟨.closing (.environment name), Environment.closingTag name⟩ u

/-! ## The first lexeme -/

/-- What is left behind a run does not go on with it. -/
theorem stops_dropWhile (p : Char → Bool) (u : Text) : Stops p (u.dropWhile p) :=
  Text.head?_dropWhile u

/-- A name group is a name in braces. -/
theorem nameGroup?_eq_some_iff {u name rest : Text} :
    nameGroup? u = some (name, rest) ↔
      u = '{' :: name ++ '}' :: rest ∧ name ≠ [] ∧ ∀ c ∈ name, endsName c = false := by
  constructor
  · intro h
    refine ⟨eq_append_of_nameGroup? h, ?_⟩
    -- a brace, a name that is not empty, and the brace that ends it
    unfold nameGroup? at h
    split at h
    · next t =>
        split at h
        · simp at h
        · next hne =>
            obtain ⟨rfl, rfl⟩ := Prod.mk.inj (Option.some.inj h)
            exact ⟨hne, fun c hc => by simpa using List.mem_takeWhile_imp hc⟩
        · simp at h
    · simp at h
  · rintro ⟨rfl, hne, hname⟩
    have hall : ∀ c ∈ name, (!endsName c) = true := fun c hc => by simp [hname c hc]
    have hstop : ∀ c ∈ ('}' :: rest : Text).head?, (!endsName c) = false := by
      rintro c ⟨⟩
      rfl
    rw [List.cons_append, nameGroup?, Text.takeWhile_append_of_all hall hstop,
      Text.dropWhile_append_of_all hall hstop]
    cases name with
    | nil => exact absurd rfl hne
    | cons c name => rfl

/-- No sign is whitespace. -/
theorem isBlank_of_sign? {c : Char} {kind : Token.Kind} (h : sign? c = some kind) :
    Text.isBlank c = false := by
  unfold sign? at h
  split at h
  case h_10 =>
    split at h
    · next hc =>
        simp only [operators, List.mem_cons, List.not_mem_nil, or_false] at hc
        rcases hc with rfl | rfl | rfl | rfl | rfl | rfl | rfl | rfl | rfl | rfl | rfl <;> rfl
    · simp at h
  all_goals rfl

/-- The kind of a sign is one of those that a single character has. -/
theorem isSign_of_sign? {c : Char} {kind : Token.Kind} (h : sign? c = some kind) :
    kind.isSign = true := by
  unfold sign? at h
  split at h
  case h_10 =>
    split at h
    · obtain rfl := Option.some.inj h
      rfl
    · simp at h
  all_goals
    obtain rfl := Option.some.inj h
    rfl

/-- A backslash and letters are no single character. -/
theorem isSign_wordKind (name : Text) : (wordKind name).isSign = false := by
  unfold wordKind
  split
  · rfl
  · split <;> rfl

/-- A sign is written as one character. -/
theorem Begins.of_isSign {l : Lexeme} {u : Text} (h : Begins l u) (hkind : l.kind.isSign = true) :
    ∃ c, l.text = [c] ∧ sign? c = some l.kind := by
  cases h with
  | @sign c _ _ h => exact ⟨c, rfl, h⟩
  | @word name =>
      rw [isSign_wordKind] at hkind
      cases hkind
  | _ => cases hkind

/-! ## Commands -/

/-- Before a name group `begin` is an opening tag. -/
theorem word_begin {u name rest : Text} (h : nameGroup? u = some (name, rest)) :
    word "begin".toList u
      = (⟨.opening (.environment name), Environment.openingTag name⟩, rest) := by
  rw [Environment.openingTag_eq, word]
  simp [h]

/-- And `end` is a closing tag. -/
theorem word_end {u name rest : Text} (h : nameGroup? u = some (name, rest)) :
    word "end".toList u
      = (⟨.closing (.environment name), Environment.closingTag name⟩, rest) := by
  rw [Environment.closingTag_eq, word]
  simp [h]

/-- Without a name group a backslash and letters stand alone. -/
theorem word_of_nameGroup?_eq_none {name u : Text} (h : TakesName name → nameGroup? u = none) :
    word name u = (⟨wordKind name, '\\' :: name⟩, u) := by
  -- the cases are those of `word`, in its order
  simp only [word, wordKind]
  by_cases hleft : name = "left".toList
  · rw [if_pos hleft, if_pos hleft]
  · by_cases hright : name = "right".toList
    · rw [if_neg hleft, if_neg hleft, if_pos hright, if_pos hright]
    · rw [if_neg hleft, if_neg hleft, if_neg hright, if_neg hright]
      by_cases htakes : TakesName name
      · simp [h htakes]
      · obtain ⟨hbegin, hend⟩ := not_or.1 htakes
        rw [if_neg hbegin, if_neg hend]

/-- What is read behind a backslash begins what it is read from. -/
theorem begins_word {name u : Text} (hne : name ≠ []) (hname : ∀ c ∈ name, c.isAlpha = true)
    (hu : Stops Char.isAlpha u) : Begins (word name u).1 (word name u).2 := by
  by_cases h : TakesName name ∧ nameGroup? u ≠ none
  · obtain ⟨htakes, hgroup⟩ := h
    obtain ⟨⟨env, rest⟩, hgroup⟩ := Option.ne_none_iff_exists'.1 hgroup
    obtain ⟨-, henv, hends⟩ := nameGroup?_eq_some_iff.1 hgroup
    rcases htakes with rfl | rfl
    · rw [word_begin hgroup]
      exact .openingTag henv hends
    · rw [word_end hgroup]
      exact .closingTag henv hends
  · have hgroup : TakesName name → nameGroup? u = none := fun htakes =>
      Classical.not_not.1 fun hne => h ⟨htakes, hne⟩
    rw [word_of_nameGroup?_eq_none hgroup]
    exact .word hne hname hu hgroup

/-! ## The first lexeme -/

/-- The first lexeme begins the text. -/
theorem begins_first (c : Char) (t : Text) : Begins (first c t).1 (first c t).2 := by
  unfold first
  split
  · unfold backslash
    split
    · exact .backslash
    · next d t =>
        split
        · next hd =>
            refine begins_word ?_ ?_ (stops_dropWhile _ _)
            · simp [hd]
            · intro e he
              exact List.mem_takeWhile_imp he
        · next hd => exact .escaped (by simpa using hd)
  · next hb =>
      split
      · next kind hkind => exact .sign hkind
      · next hsign =>
          split
          · next hp =>
              subst hp
              exact .comment (fun d hd => List.mem_takeWhile_imp hd) (stops_dropWhile _ _)
          · next hp =>
              split
              · next hblank =>
                  refine .blank (List.cons_ne_nil _ _) ?_ (stops_dropWhile _ _)
                  intro d hd
                  rcases List.mem_cons.1 hd with rfl | hd
                  · exact hblank
                  · exact List.mem_takeWhile_imp hd
              · next hblank =>
                  refine .plain (List.cons_ne_nil _ _) ?_ (stops_dropWhile _ _)
                  intro d hd
                  rcases List.mem_cons.1 hd with rfl | hd
                  · simp [isSpecial, hb, hp, hsign, hblank]
                  · simpa using List.mem_takeWhile_imp hd

/-- What begins a text is not empty. -/
theorem Begins.text_ne_nil {l : Lexeme} {u : Text} (h : Begins l u) : l.text ≠ [] := by
  cases h with
  | blank hne => exact hne
  | plain hne => exact hne
  | openingTag =>
      rw [Environment.openingTag_eq]
      exact List.cons_ne_nil _ _
  | closingTag =>
      rw [Environment.closingTag_eq]
      exact List.cons_ne_nil _ _
  | _ => exact List.cons_ne_nil _ _

/-- A run of a class is read in one piece. -/
theorem run_of_stops {p : Char → Bool} {c : Char} {s u : Text} (kind : Token.Kind)
    (hs : ∀ d ∈ s, p d = true) (hu : Stops p u) :
    run kind c p (s ++ u) = (⟨kind, c :: s⟩, u) := by
  rw [run, Text.takeWhile_append_of_all hs hu, Text.dropWhile_append_of_all hs hu]

/-- A backslash and letters are read up to the end of the letters. -/
theorem first_word {name u : Text} (hne : name ≠ []) (hname : ∀ c ∈ name, c.isAlpha = true)
    (hu : Stops Char.isAlpha u) : first '\\' (name ++ u) = word name u := by
  obtain ⟨c, name, rfl⟩ := List.exists_cons_of_ne_nil hne
  have hc : c.isAlpha = true := hname c List.mem_cons_self
  rw [first, if_pos rfl, List.cons_append, backslash, if_pos hc, ← List.cons_append,
    Text.takeWhile_append_of_all hname hu, Text.dropWhile_append_of_all hname hu]

/-- No letter is a brace. -/
theorem stops_brace (u : Text) : Stops Char.isAlpha ('{' :: u) := by
  rintro c ⟨⟩
  rfl

/-- A command with a name in braces behind it takes the name along. -/
theorem first_of_takesName {name env u : Text} (htakes : TakesName name) (hne : env ≠ [])
    (henv : ∀ c ∈ env, endsName c = false) :
    first '\\' (name ++ ('{' :: env ++ '}' :: u)) = word name ('{' :: env ++ '}' :: u) ∧
      nameGroup? ('{' :: env ++ '}' :: u) = some (env, u) :=
  ⟨first_word htakes.ne_nil htakes.isAlpha (stops_brace _),
    nameGroup?_eq_some_iff.2 ⟨rfl, hne, henv⟩⟩

/-- A lexeme that begins a text is the first lexeme. -/
theorem first_of_begins {l : Lexeme} {u : Text} (h : Begins l u) {c : Char} {t : Text}
    (ht : l.text ++ u = c :: t) : first c t = (l, u) := by
  -- one case for each branch of `first`, whose earlier tests must fail
  cases h with
  | @sign _ kind _ h =>
      obtain ⟨rfl, rfl⟩ := List.cons.inj ht
      have hb : ∀ d, sign? d = some kind → d ≠ '\\' := by
        rintro d hd rfl
        simp [sign?, operators] at hd
      rw [first, if_neg (hb _ h), h]
      rfl
  | comment hs hu =>
      obtain ⟨rfl, rfl⟩ := List.cons.inj ht
      exact run_of_stops .comment hs hu
  | @blank s _ hne hs hu =>
      obtain ⟨d, s, rfl⟩ := List.exists_cons_of_ne_nil hne
      obtain ⟨rfl, rfl⟩ := List.cons.inj ht
      have hd : Text.isBlank d = true := hs d List.mem_cons_self
      have hsign : sign? d = none := by
        rw [Option.eq_none_iff_forall_ne_some]
        intro kind h
        simp [isBlank_of_sign? h] at hd
      have hb : d ≠ '\\' := by
        rintro rfl
        exact absurd hd (by decide)
      have hp : d ≠ '%' := by
        rintro rfl
        exact absurd hd (by decide)
      rw [first, if_neg hb, hsign]
      simp only [if_neg hp, if_pos hd]
      exact run_of_stops .blank (fun e he => hs e (List.mem_cons_of_mem d he)) hu
  | @plain s _ hne hs hu =>
      obtain ⟨d, s, rfl⟩ := List.exists_cons_of_ne_nil hne
      obtain ⟨rfl, rfl⟩ := List.cons.inj ht
      have hd : isSpecial d = false := hs d List.mem_cons_self
      simp only [isSpecial, Bool.or_eq_false_iff, decide_eq_false_iff_not,
        Option.isSome_eq_false_iff, Option.isNone_iff_eq_none] at hd
      obtain ⟨⟨⟨hb, hp⟩, hsign⟩, hblank⟩ := hd
      rw [first, if_neg hb, hsign]
      simp only [if_neg hp, hblank]
      exact run_of_stops .plain (fun e he => by simp [hs e (List.mem_cons_of_mem d he)]) hu
  | backslash =>
      obtain ⟨rfl, rfl⟩ := List.cons.inj ht
      rfl
  | escaped h =>
      obtain ⟨rfl, rfl⟩ := List.cons.inj ht
      rw [first, if_pos rfl]
      exact if_neg (by simp [h])
  | @word name _ hne hname hu hgroup =>
      obtain ⟨rfl, rfl⟩ := List.cons.inj ht
      rw [← word_of_nameGroup?_eq_none hgroup]
      exact first_word hne hname hu
  | openingTag hne hname =>
      obtain ⟨hword, hgroup⟩ := first_of_takesName (u := u) (.inl rfl) hne hname
      rw [word_begin hgroup] at hword
      rw [Environment.openingTag_eq] at ht
      obtain ⟨rfl, rfl⟩ := List.cons.inj ht
      simpa using hword
  | closingTag hne hname =>
      obtain ⟨hword, hgroup⟩ := first_of_takesName (u := u) (.inr rfl) hne hname
      rw [word_end hgroup] at hword
      rw [Environment.closingTag_eq] at ht
      obtain ⟨rfl, rfl⟩ := List.cons.inj ht
      simpa using hword

/-- `Begins` is what `first` does. -/
theorem begins_iff {l : Lexeme} {u : Text} {c : Char} {t : Text} :
    Begins l u ∧ l.text ++ u = c :: t ↔ first c t = (l, u) := by
  constructor
  · rintro ⟨h, ht⟩
    exact first_of_begins h ht
  · intro h
    have hbegins := begins_first c t
    have htext := text_append_first c t
    rw [h] at hbegins htext
    exact ⟨hbegins, htext⟩

end Lexeme

/-! ## Boundaries -/

namespace Lexeme

/-- Whether each of a run of lexemes begins what follows it, with `u` behind the run. -/
def BeginsEach : List Lexeme → Text → Prop
  | [], _ => True
  | l :: ls, u => Begins l (join ls ++ u) ∧ BeginsEach ls u

/-- No lexemes make up the empty text. -/
@[simp] theorem join_nil : join [] = [] := rfl

/-- A lexeme stands before the text of the lexemes behind it. -/
@[simp] theorem join_cons (l : Lexeme) (ls : List Lexeme) :
    join (l :: ls) = l.text ++ join ls := rfl

/-- The texts of two runs follow on each other. -/
@[simp] theorem join_append (ls ms : List Lexeme) : join (ls ++ ms) = join ls ++ join ms :=
  List.flatMap_append

end Lexeme

open Lexeme

/-- A lexeme that begins a text is scanned first. -/
theorem lex_text_append {l : Lexeme} {u : Text} (h : Begins l u) :
    lex (l.text ++ u) = l :: lex u := by
  obtain ⟨c, s, hs⟩ := List.exists_cons_of_ne_nil h.text_ne_nil
  have hfirst : first c (s ++ u) = (l, u) := first_of_begins h (by rw [hs, List.cons_append])
  rw [hs, List.cons_append, lex_cons, hfirst]

/-- The first lexeme of a scan begins what the others make up. -/
theorem lex_eq_cons_iff {t : Text} {l : Lexeme} {ls : List Lexeme} :
    lex t = l :: ls ↔ t = l.text ++ join ls ∧ Begins l (join ls) ∧ lex (join ls) = ls := by
  constructor
  · intro h
    cases t with
    | nil => simp at h
    | cons c t =>
        rw [lex_cons] at h
        obtain ⟨rfl, rfl⟩ := List.cons.inj h
        rw [join_lex]
        exact ⟨(text_append_first c t).symm, begins_first c t, rfl⟩
  · rintro ⟨rfl, hbegins, hlex⟩
    rw [lex_text_append hbegins, hlex]

/-- Lexemes are scanned as themselves before a text exactly if each of them begins what follows
it. -/
theorem lex_join_append_iff {ls : List Lexeme} {u : Text} :
    lex (join ls ++ u) = ls ++ lex u ↔ BeginsEach ls u := by
  -- each step of the scan is one lexeme of the run
  induction ls with
  | nil => simp [BeginsEach]
  | cons l ls ih =>
      rw [join_cons, List.append_assoc, List.cons_append, lex_eq_cons_iff, BeginsEach, ← ih]
      simp

/-- Each lexeme of a text begins what is left of it there. -/
theorem beginsEach_lex (t : Text) : BeginsEach (lex t) [] := by
  rw [← lex_join_append_iff, join_lex]
  simp

/-- Two runs do so if the first does before the text of the second. -/
theorem beginsEach_append_iff {ls ms : List Lexeme} {u : Text} :
    BeginsEach (ls ++ ms) u ↔ BeginsEach ls (join ms ++ u) ∧ BeginsEach ms u := by
  induction ls with
  | nil => simp [BeginsEach]
  | cons l ls ih => simp [BeginsEach, ih, and_assoc]

/-- Each of a run of lexemes begins what follows it, wherever it stands. -/
theorem beginsEach_iff_forall {ls : List Lexeme} {u : Text} :
    BeginsEach ls u ↔ ∀ a l b, ls = a ++ l :: b → Begins l (join b ++ u) := by
  constructor
  · rintro h a l b rfl
    exact (beginsEach_append_iff.1 h).2.1
  · intro h
    induction ls with
    | nil => trivial
    | cons l ls ih =>
        refine ⟨h [] l ls rfl, ih fun a m b hsplit => h (l :: a) m b ?_⟩
        rw [hsplit, List.cons_append]

/-- Every lexeme of a scan begins some text. -/
theorem exists_begins_of_mem_lex {t : Text} {l : Lexeme} (h : l ∈ lex t) :
    ∃ u, Begins l u := by
  obtain ⟨a, b, hsplit⟩ := List.append_of_mem h
  have heach := beginsEach_lex t
  rw [hsplit, beginsEach_append_iff] at heach
  exact ⟨_, heach.2.1⟩

/-! ## Less text behind -/

/-- A text that does not go on with a class does not when cut short. -/
theorem Stops.of_append {p : Char → Bool} {u v : Text} (h : Stops p (u ++ v)) : Stops p u := by
  intro c hc
  apply h c
  rw [List.head?_append, Option.mem_def.1 hc]
  rfl

/-- A lexeme ends no later when less text stands behind it. -/
theorem Lexeme.Begins.of_append {l : Lexeme} {u v : Text} (h : Begins l (u ++ v)) :
    Begins l u := by
  -- `cases` needs a variable for the text behind
  generalize hw : u ++ v = w at h
  cases h with
  | sign h => exact .sign h
  | comment hs hu => exact .comment hs (Stops.of_append (hw ▸ hu))
  | blank hne hs hu => exact .blank hne hs (Stops.of_append (hw ▸ hu))
  | plain hne hs hu => exact .plain hne hs (Stops.of_append (hw ▸ hu))
  | backslash =>
      rw [(List.append_eq_nil_iff.1 hw).1]
      exact .backslash
  | escaped h => exact .escaped h
  | word hne hname hu hgroup =>
      refine .word hne hname (Stops.of_append (hw ▸ hu)) ?_
      intro htakes
      -- a name group in `u` would be one in `u ++ v`
      rw [Option.eq_none_iff_forall_ne_some]
      rintro ⟨name, rest⟩ hsome
      obtain ⟨rfl, hname⟩ := nameGroup?_eq_some_iff.1 hsome
      have hwhole : nameGroup? w = some (name, rest ++ v) :=
        nameGroup?_eq_some_iff.2 ⟨by simp [← hw], hname⟩
      rw [hgroup htakes] at hwhole
      cases hwhole
  | openingTag hne hname => exact .openingTag hne hname
  | closingTag hne hname => exact .closingTag hne hname

/-- Nor do lexemes need all of what follows to begin it. -/
theorem Lexeme.BeginsEach.of_append {ls : List Lexeme} {u v : Text} (h : BeginsEach ls (u ++ v)) :
    BeginsEach ls u := by
  induction ls with
  | nil => trivial
  | cons l ls ih =>
      obtain ⟨hl, hls⟩ := h
      rw [← List.append_assoc] at hl
      exact ⟨hl.of_append, ih hls⟩

/-! ## Texts that are scanned apart -/

/-- Whether the place between two texts is a boundary between lexemes. -/
def Apart (s u : Text) : Prop := lex (s ++ u) = lex s ++ lex u

/-- There is a boundary between two texts if the lexemes of one begin what comes behind them. -/
theorem apart_iff_beginsEach {s u : Text} : Apart s u ↔ BeginsEach (lex s) u := by
  rw [← lex_join_append_iff, join_lex, Apart]

/-- Lexemes that are scanned as themselves before a text are scanned apart from it. -/
theorem lex_join_of_beginsEach {ls : List Lexeme} {u : Text} (h : BeginsEach ls u) :
    lex (join ls) = ls ∧ Apart (join ls) u := by
  have hlex : lex (join ls) = ls := by
    have hnil : BeginsEach ls ([] ++ u) := h
    simpa using lex_join_append_iff.2 hnil.of_append
  exact ⟨hlex, apart_iff_beginsEach.2 (by rwa [hlex])⟩

/-- **Any boundary will do**: if some of the lexemes of a text make up its front, they are the
lexemes of the front, and the others those of the rest. -/
theorem lex_append_iff {s u : Text} :
    Apart s u ↔ ∃ a b, lex (s ++ u) = a ++ b ∧ join a = s := by
  constructor
  · intro h
    exact ⟨lex s, lex u, h, join_lex s⟩
  · rintro ⟨a, b, h, rfl⟩
    have hjoin : join b = u := by
      have := join_lex (join a ++ u)
      rw [h, join_append] at this
      exact List.append_cancel_left this
    -- the lexemes in front begin what follows them, so they are also scanned on their own
    have heach : BeginsEach (a ++ b) [] := by
      rw [← h]
      exact beginsEach_lex _
    rw [beginsEach_append_iff, hjoin, List.append_nil] at heach
    exact (lex_join_of_beginsEach heach.1).2

/-- A text is scanned apart from less of what stands behind it. -/
theorem Apart.of_append {s u v : Text} (h : Apart s (u ++ v)) : Apart s u := by
  rw [apart_iff_beginsEach] at h ⊢
  exact h.of_append

/-- Behind a boundary the boundaries are those of the text behind it. -/
theorem Apart.append_iff {s u v : Text} (hs : Apart s (u ++ v)) :
    Apart (s ++ u) v ↔ Apart u v := by
  have hsu : Apart s u := hs.of_append
  rw [Apart] at hs hsu
  rw [Apart, Apart, List.append_assoc, hs, hsu, List.append_assoc, List.append_cancel_left_eq]

end MathEdit
