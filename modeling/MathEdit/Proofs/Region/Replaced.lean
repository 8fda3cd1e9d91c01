import MathEdit.Proofs.Region.Levels

/-! # Replaced math

Math in a document is replaced by an environment. What was found before it is still found, and what
was opened before it without a closer is still not closed, if the environment makes the same turns
as the math did, or only those of its own tags.

* **`turns_append_cons`**, **`turns_append_escape`**: the turns on either side of an atom that is in
  no delimiter, and of an escape.
* **`Covers`**: atoms that close nothing but what others close, wherever they take their place;
  `covers_of_turns` says this of an environment.
* **`Covers.mem_regions`**: what is found in such atoms is found where the math was. -/

namespace MathEdit

open Region

/-! ## The atoms of the delimiters -/

/-- Whether an atom can be part of the tag of an environment. -/
def Atom.inTag : Atom → Bool
  | plain c => isNameCharacter c || c = '{' || c = '}'
  | escape c => c = 'b' || c = 'e'
  | comment _ | backslash => false

/-- Whether an atom can be part of a delimiter that opens or closes a level. -/
def Atom.inDelimiter (a : Atom) : Bool :=
  a.inTag || a = .plain '$' || a = .escape ']' || a = .escape ')'

/-- The atoms of a tag can be part of one. -/
theorem inTag_of_mem {name : Text} (hname : ∀ c ∈ name, isNameCharacter c = true) {a : Atom}
    (h : a ∈ atoms (Environment.openingTag name) ∨ a ∈ atoms (Environment.closingTag name)) :
    a.inTag = true := by
  have hplain := plain_of_isNameCharacter hname
  -- both tags are an escape, a word in letters, the name and a brace
  have hin {first : Atom} (hfirst : first.inTag = true) {word : Text}
      (hword : word.all (fun c => (Atom.plain c).inTag) = true)
      (hmem : a ∈ first :: (word ++ name ++ ['}']).map .plain) : a.inTag = true := by
    rcases List.mem_cons.1 hmem with rfl | hmem
    · exact hfirst
    · obtain ⟨c, hc, rfl⟩ := List.mem_map.1 hmem
      simp only [List.mem_append, List.mem_singleton] at hc
      rcases hc with (hc | hc) | rfl
      · exact List.all_eq_true.1 hword c hc
      · simp [Atom.inTag, hname c hc]
      · rfl
  rw [atoms_openingTag_eq_cons hplain, atoms_closingTag hplain] at h
  rcases h with h | h
  · exact hin rfl (by decide) h
  · exact hin rfl (by decide) h

/-- Tags end in a closing brace, and have no other one. -/
theorem exists_append_brace {name : Text} (hname : ∀ c ∈ name, isNameCharacter c = true) :
    (∃ as, atoms (Environment.openingTag name) = as ++ [.plain '}'] ∧ .plain '}' ∉ as) ∧
      ∃ as, atoms (Environment.closingTag name) = as ++ [.plain '}'] ∧ .plain '}' ∉ as := by
  have hplain := plain_of_isNameCharacter hname
  have hbrace : '}' ∉ name := fun hc => ne_of_isNameCharacter (hname _ hc) (by decide) rfl
  rw [atoms_openingTag_eq_cons hplain, atoms_closingTag hplain]
  constructor
  · exact ⟨.escape 'b' :: (['e', 'g', 'i', 'n', '{'] ++ name).map .plain, by simp, by simp [hbrace]⟩
  · exact ⟨.escape 'e' :: (['n', 'd', '{'] ++ name).map .plain, by simp, by simp [hbrace]⟩

/-- Tags end in a closing brace. -/
theorem getLast?_atoms_tags {name : Text} (hname : ∀ c ∈ name, isNameCharacter c = true) :
    (atoms (Environment.openingTag name)).getLast? = some (.plain '}') ∧
      (atoms (Environment.closingTag name)).getLast? = some (.plain '}') := by
  obtain ⟨⟨as, hopening, -⟩, bs, hclosing, -⟩ := exists_append_brace hname
  rw [hopening, hclosing]
  exact ⟨List.getLast?_concat, List.getLast?_concat⟩

/-- And they have no other. -/
theorem brace_notMem_dropLast {name : Text} (hname : ∀ c ∈ name, isNameCharacter c = true) :
    .plain '}' ∉ (atoms (Environment.openingTag name)).dropLast ∧
      .plain '}' ∉ (atoms (Environment.closingTag name)).dropLast := by
  obtain ⟨⟨as, hopening, has⟩, bs, hclosing, hbs⟩ := exists_append_brace hname
  rw [hopening, hclosing, List.dropLast_concat, List.dropLast_concat]
  exact ⟨has, hbs⟩

namespace Delimiters

variable {accepts : Text → Bool} {d : Delimiters}

/-- The atoms that open or close a level can be part of a delimiter. -/
theorem inDelimiter_of_mem (hd : Named accepts d) {a : Atom}
    (h : a ∈ d.nested ∨ a ∈ atoms d.closing) : a.inDelimiter = true := by
  cases d with
  | displayDollar =>
      rw [nested, or_self, atoms_displayDollar.2] at h
      obtain rfl : a = .plain '$' := by simpa using h
      rfl
  | inlineDollar =>
      rw [nested, or_self, atoms_inlineDollar.2] at h
      obtain rfl := List.mem_singleton.1 h
      rfl
  | displayBracket =>
      rw [nested, or_self, atoms_displayBracket.2] at h
      obtain rfl := List.mem_singleton.1 h
      rfl
  | inlineParen =>
      rw [nested, or_self, atoms_inlineParen.2] at h
      obtain rfl := List.mem_singleton.1 h
      rfl
  | environment name =>
      have htag := inTag_of_mem (hd name rfl).1 h
      rw [Atom.inDelimiter, htag]
      rfl

/-- What opens a further level is like a delimiter. -/
theorem delimiting_nested (hd : Named accepts d) : Delimiting d.nested := by
  cases d with
  | environment name => exact delimiting_opening hd
  | _ => exact delimiting_closing hd

/-- An escape can only start a delimiter. -/
theorem escape_notMem_tail {as : List Atom} (h : Delimiting as) (c : Char) :
    .escape c ∉ as.tail := by
  obtain ⟨a, s, rfl, -, -⟩ := h
  simp

section

variable (hd : Named accepts d)
include hd

/-- Atoms that are in no delimiter make no turns. -/
theorem turns_append_of_inDelimiter (as : List Atom) (h : ∀ a ∈ as, a.inDelimiter = false)
    (bs : List Atom) : d.turns (as ++ bs) = d.turns bs := by
  apply turns_append_of_notMem (delimiting_nested hd).ne_nil (delimiting_closing hd).ne_nil
  intro a ha
  have hfalse := h a ha
  constructor <;> intro hmem
  · simp [inDelimiter_of_mem hd (.inl hmem)] at hfalse
  · simp [inDelimiter_of_mem hd (.inr hmem)] at hfalse

/-- The turns on either side of an atom that is in no delimiter. -/
theorem turns_append_cons {a : Atom} (ha : a.inDelimiter = false) (as bs : List Atom) :
    d.turns (as ++ a :: bs) = d.turns as ++ d.turns bs := by
  have hcons : d.turns (a :: bs) = d.turns bs :=
    turns_append_of_inDelimiter hd [a] (by simpa using ha) bs
  rw [← hcons]
  apply turns_append_of_head
  rintro b ⟨⟩
  constructor <;> intro hmem
  · simp [inDelimiter_of_mem hd (.inl (List.mem_of_mem_tail hmem))] at ha
  · simp [inDelimiter_of_mem hd (.inr (List.mem_of_mem_tail hmem))] at ha

/-- The turns on either side of the place in front of an escape. -/
theorem turns_append_escape (c : Char) (as bs : List Atom) :
    d.turns (as ++ .escape c :: bs) = d.turns as ++ d.turns (.escape c :: bs) := by
  apply turns_append_of_head
  rintro b ⟨⟩
  exact ⟨escape_notMem_tail (delimiting_nested hd) c, escape_notMem_tail (delimiting_closing hd) c⟩

/-- The turns on either side of the place behind a closing brace. -/
theorem turns_append_of_brace {as : List Atom} (h : as.getLast? = some (.plain '}'))
    (bs : List Atom) : d.turns (as ++ bs) = d.turns as ++ d.turns bs := by
  apply turns_append_of_last
  rw [h]
  rintro b ⟨⟩
  cases d with
  | displayDollar => simp [nested, atoms_displayDollar.2]
  | inlineDollar => simp [nested, atoms_inlineDollar.2]
  | displayBracket => simp [nested, atoms_displayBracket.2]
  | inlineParen => simp [nested, atoms_inlineParen.2]
  | environment name => exact brace_notMem_dropLast (hd name rfl).1

end

/-- The tags of an environment are not among the signs around other math. -/
theorem turns_around_signs {name : Text} (hname : ∀ c ∈ name, isNameCharacter c = true)
    (hsign : ∀ m, d ≠ .environment m) (cs content bs : List Atom) :
    (environment name).turns (cs ++ (atoms d.opening ++ (content ++ (atoms d.closing ++ bs)))) =
      (environment name).turns cs ++
        ((environment name).turns content ++ (environment name).turns bs) := by
  have hd : Named (fun _ => true) (.environment name) := by
    rintro _ ⟨⟩
    exact ⟨hname, rfl⟩
  have hnone {a : Atom} (ha : a.inTag = false) :
      a ∉ (environment name).nested ∧ a ∉ atoms (environment name).closing := by
    constructor <;> intro hmem
    · simp [inTag_of_mem hname (.inl hmem)] at ha
    · simp [inTag_of_mem hname (.inr hmem)] at ha
  -- atoms that are in no tag separate what stands on either side
  have haround {signs : List Atom} (hne : signs ≠ []) (h : ∀ a ∈ signs, a.inTag = false)
      (cs bs : List Atom) : (environment name).turns (cs ++ (signs ++ bs)) =
        (environment name).turns cs ++ (environment name).turns bs := by
    have hsigns : (environment name).turns (signs ++ bs) = (environment name).turns bs :=
      turns_append_of_notMem (delimiting_nested hd).ne_nil
        (delimiting_closing hd).ne_nil fun a ha => hnone (h a ha)
    obtain ⟨a, signs, rfl⟩ := List.exists_cons_of_ne_nil hne
    rw [← hsigns]
    apply turns_append_of_head
    rintro b ⟨⟩
    obtain ⟨hopening, hclosing⟩ := hnone (h a List.mem_cons_self)
    exact ⟨fun hmem => hopening (List.mem_of_mem_tail hmem),
      fun hmem => hclosing (List.mem_of_mem_tail hmem)⟩
  have hsigns : (atoms d.opening ≠ [] ∧ ∀ a ∈ atoms d.opening, a.inTag = false) ∧
      atoms d.closing ≠ [] ∧ ∀ a ∈ atoms d.closing, a.inTag = false := by
    cases d with
    | environment m => exact absurd rfl (hsign m)
    | displayDollar => rw [atoms_displayDollar.1, atoms_displayDollar.2]; decide
    | inlineDollar => rw [atoms_inlineDollar.1, atoms_inlineDollar.2]; decide
    | displayBracket => rw [atoms_displayBracket.1, atoms_displayBracket.2]; decide
    | inlineParen => rw [atoms_inlineParen.1, atoms_inlineParen.2]; decide
  obtain ⟨⟨hopening, hopening'⟩, hclosing, hclosing'⟩ := hsigns
  rw [haround hopening hopening', haround hclosing hclosing']

/-- A tag is at the front of another one only if both have the same name. -/
theorem eq_of_tag_prefix {start n m : Text} (hn : '}' ∉ n) (hm : '}' ∉ m)
    (h : start ++ n ++ ['}'] <+: start ++ m ++ ['}']) : n = m := by
  rw [List.append_assoc, List.append_assoc, List.prefix_append_right_inj] at h
  obtain ⟨rest, hrest⟩ := h
  rw [List.append_assoc] at hrest
  have hname {name : Text} (hname : '}' ∉ name) (u : Text) :
      (name ++ '}' :: u).takeWhile (· ≠ '}') = name := by
    refine Text.takeWhile_append_of_all ?_ (by simp)
    intro c hc
    exact decide_eq_true fun heq : c = '}' => hname (heq ▸ hc)
  have htake := congrArg (List.takeWhile (· ≠ '}')) hrest
  rwa [List.singleton_append, hname hn, hname hm] at htake

/-- **The turns of a tag** are that of its own environment. -/
theorem turns_tags (hd : Named accepts d) {m : Text} (hm : ∀ c ∈ m, isNameCharacter c = true) :
    d.turns (atoms (Environment.openingTag m)) = (if d = .environment m then [true] else []) ∧
      d.turns (atoms (Environment.closingTag m)) =
        if d = .environment m then [false] else [] := by
  have hsigns (hsign : ∀ n, d ≠ .environment n) {as : List Atom}
      (has : ∀ a ∈ as, a.inTag = true) : d.turns as = [] := by
    rw [(Delimiters.turns_eq_nil_iff hsign).1]
    intro hin
    have hclosing : ∃ a ∈ atoms d.closing, a.inTag = false := by
      cases d with
      | environment n => exact absurd rfl (hsign n)
      | displayDollar => exact ⟨.plain '$', by simp [atoms_displayDollar.2], rfl⟩
      | inlineDollar => exact ⟨.plain '$', by simp [atoms_inlineDollar.2], rfl⟩
      | displayBracket => exact ⟨.escape ']', by simp [atoms_displayBracket.2], rfl⟩
      | inlineParen => exact ⟨.escape ')', by simp [atoms_inlineParen.2], rfl⟩
    obtain ⟨a, ha, hfalse⟩ := hclosing
    rw [has a (hin.subset ha)] at hfalse
    cases hfalse
  by_cases henvironment : ∃ n, d = .environment n
  · obtain ⟨n, rfl⟩ := henvironment
    have hn := (hd n rfl).1
    have hbrace {name : Text} (h : ∀ c ∈ name, isNameCharacter c = true) : '}' ∉ name :=
      fun hc => ne_of_isNameCharacter (h _ hc) (by decide) rfl
    have hopening : atoms (Environment.openingTag n) <+: atoms (Environment.openingTag m) ↔
        n = m := ⟨fun h => eq_of_tag_prefix (hbrace hn) (hbrace hm) (isPrefix_of_atoms h),
          fun h => h ▸ List.prefix_refl _⟩
    have hclosing : atoms (Environment.closingTag n) <+: atoms (Environment.closingTag m) ↔
        n = m := ⟨fun h => eq_of_tag_prefix (hbrace hn) (hbrace hm) (isPrefix_of_atoms h),
          fun h => h ▸ List.prefix_refl _⟩
    have hatoms {name : Text} (h : ∀ c ∈ name, isNameCharacter c = true) :=
      atoms_openingTag_eq_cons (plain_of_isNameCharacter h)
    have hatoms' {name : Text} (h : ∀ c ∈ name, isNameCharacter c = true) :=
      atoms_closingTag (plain_of_isNameCharacter h)
    rw [← List.isPrefixOf_iff_prefix, hatoms hn, hatoms hm] at hopening
    rw [← List.isPrefixOf_iff_prefix, hatoms' hn, hatoms' hm] at hclosing
    have htail (tail opening closing : List Atom) (h : ∃ s : Text, tail = s.map .plain) :
        Region.turns (.escape 'b' :: opening) (.escape 'e' :: closing) tail = [] := by
      obtain ⟨s, rfl⟩ := h
      exact turns_eq_nil_of_notMem (by simp) (by simp)
    have hne : Delimiters.environment n = .environment m ↔ n = m := by simp
    rw [turns, turns, nested, opening, closing, hatoms hn, hatoms' hn, hatoms hm, hatoms' hm,
      if_congr hne rfl rfl, if_congr hne rfl rfl]
    -- only the first atom of a tag is an escape
    constructor
    · rw [Region.turns, htail _ _ _ ⟨_, rfl⟩, if_neg (by simp), if_congr hopening rfl rfl]
    · rw [Region.turns, htail _ _ _ ⟨_, rfl⟩, if_congr hclosing rfl rfl]
      split
      · rfl
      · rw [if_neg (by simp)]
  · have hsign : ∀ n, d ≠ .environment n := fun n h => henvironment ⟨n, h⟩
    rw [if_neg (hsign m), if_neg (hsign m)]
    exact ⟨hsigns hsign fun a ha => inTag_of_mem hm (.inl ha),
      hsigns hsign fun a ha => inTag_of_mem hm (.inr ha)⟩

end Delimiters

/-! ## Atoms in the place of others -/

namespace Region

variable {accepts : Text → Bool}

/-- Whether atoms may take the place of others in a document: both begin as an opening delimiter
does, the new ones as a tag, and whatever opens before them has a closer behind its place only if it
had one. -/
structure Covers (accepts : Text → Bool) (old new : List Atom) : Prop where
  old_eq : ∃ a rest, old = a :: rest ∧ a ∈ [.plain '$', .escape '[', .escape '(', .escape 'b']
  new_eq : ∃ rest, new = .escape 'b' :: rest
  staysOpen_turns : ∀ d, Named accepts d → ∀ front,
    staysOpen 0 (d.turns (front ++ old)) = true → staysOpen 0 (d.turns (front ++ new)) = true

/-- The first atom of an opening delimiter. -/
theorem exists_cons_of_named {d : Delimiters} (hd : Named accepts d) :
    ∃ a rest, atoms d.opening = a :: rest ∧
      a ∈ [Atom.plain '$', .escape '[', .escape '(', .escape 'b'] := by
  cases d with
  | displayDollar => exact ⟨_, _, atoms_displayDollar.1, by simp⟩
  | inlineDollar => exact ⟨_, _, atoms_inlineDollar.1, by simp⟩
  | displayBracket => exact ⟨_, _, atoms_displayBracket.1, by simp⟩
  | inlineParen => exact ⟨_, _, atoms_inlineParen.1, by simp⟩
  | environment name =>
      exact ⟨_, _, atoms_openingTag_eq_cons (plain_of_isNameCharacter (hd name rfl).1), by simp⟩

/-- The turns of an environment around math are those around the equation in it. -/
theorem turns_environment_of_math {name : Text} (hd : Named accepts (.environment name))
    {d₀ : Delimiters} (hd₀ : Named accepts d₀) {content inner : List Atom}
    (hinner : inner = content ∧ (∀ m, d₀ ≠ .environment m) ∨
      inner = atoms d₀.opening ++ (content ++ atoms d₀.closing)) (front rest : List Atom) :
    (Delimiters.environment name).turns
        (front ++ (atoms d₀.opening ++ (content ++ (atoms d₀.closing ++ rest)))) =
      (Delimiters.environment name).turns front ++
        ((Delimiters.environment name).turns inner ++
          (Delimiters.environment name).turns rest) := by
  by_cases henvironment : ∃ m, d₀ = .environment m
  · -- the math is an environment itself, and not freed from its tags
    obtain ⟨m, rfl⟩ := henvironment
    rcases hinner with ⟨-, h⟩ | rfl
    · exact absurd rfl (h m)
    · have hlast : (atoms (Delimiters.environment m).opening ++
          (content ++ atoms (Delimiters.environment m).closing)).getLast? =
            some (.plain '}') := by
        have hne := (delimiting_closing hd₀).ne_nil
        rw [← List.append_assoc, List.getLast?_append_of_ne_nil _ hne, Delimiters.closing,
          (getLast?_atoms_tags (hd₀ m rfl).1).2]
      rw [← Delimiters.turns_append_of_brace hd hlast]
      simp only [List.append_assoc]
      rw [Delimiters.opening, atoms_openingTag_eq_cons (plain_of_isNameCharacter (hd₀ m rfl).1)]
      exact Delimiters.turns_append_escape hd 'b' front _
  · have hsign : ∀ m, d₀ ≠ .environment m := fun m h => henvironment ⟨m, h⟩
    have hsame : (Delimiters.environment name).turns inner =
        (Delimiters.environment name).turns content := by
      rcases hinner with ⟨rfl, -⟩ | rfl
      · rfl
      · have haround := Delimiters.turns_around_signs (hd name rfl).1 hsign [] content []
        rw [List.append_nil, List.nil_append] at haround
        rw [haround]
        exact List.append_nil _
    rw [Delimiters.turns_around_signs (hd name rfl).1 hsign, hsame]

/-- **An environment in the place of math** covers it, if it makes the turns of the equation in the
math, or only those of its own tags. -/
theorem covers_of_turns {d₀ : Delimiters} (hd₀ : Named accepts d₀)
    {content inner block rest : List Atom}
    (hinner : inner = content ∧ (∀ m, d₀ ≠ .environment m) ∨
      inner = atoms d₀.opening ++ (content ++ atoms d₀.closing))
    (hfirst : ∃ as, block = .escape 'b' :: as) (hlast : block.getLast? = some (.plain '}'))
    (hturns : ∀ d, Named accepts d → d.turns block = d.turns inner ∨
      d.turns inner = [] ∧ d.turns block = [true, false]) :
    Covers accepts (atoms d₀.opening ++ (content ++ (atoms d₀.closing ++ rest)))
      (block ++ rest) := by
  obtain ⟨as, rfl⟩ := hfirst
  refine ⟨?_, ⟨as ++ rest, rfl⟩, ?_⟩
  · obtain ⟨a, tail, hopening, ha⟩ := exists_cons_of_named hd₀
    exact ⟨a, _, by rw [hopening]; rfl, ha⟩
  intro d hd front hold
  have hnew : d.turns (front ++ (.escape 'b' :: as ++ rest)) =
      d.turns front ++ d.turns (.escape 'b' :: as) ++ d.turns rest := by
    rw [List.cons_append, Delimiters.turns_append_escape hd, ← List.cons_append,
      Delimiters.turns_append_of_brace hd hlast, List.append_assoc]
  -- the turns of the math are those of the equation in it
  have hequation : staysOpen 0 (d.turns front ++ d.turns inner ++ d.turns rest) = true := by
    by_cases henvironment : ∃ name, d = .environment name
    · obtain ⟨name, rfl⟩ := henvironment
      rw [turns_environment_of_math hd hd₀ hinner] at hold
      rwa [List.append_assoc]
    · have hsign : ∀ name, d ≠ .environment name := fun name h => henvironment ⟨name, h⟩
      have hnone := (Delimiters.turns_eq_nil_iff hsign).1.1
        ((Delimiters.turns_eq_nil_iff hsign).2.1 hold)
      have hpart {part : List Atom} (before after : List Atom)
          (h : before ++ part ++ after =
            front ++ (atoms d₀.opening ++ (content ++ (atoms d₀.closing ++ rest)))) :
          d.turns part = [] := by
        rw [(Delimiters.turns_eq_nil_iff hsign).1]
        rw [← h] at hnone
        exact fun hin => hnone (hin.trans ⟨before, after, rfl⟩)
      have hin : d.turns inner = [] := by
        rcases hinner with ⟨rfl, -⟩ | rfl
        · exact hpart (front ++ atoms d₀.opening) (atoms d₀.closing ++ rest) (by simp)
        · exact hpart front rest (by simp)
      rw [hpart [] _ rfl, hin, hpart (front ++ atoms d₀.opening ++ content ++ atoms d₀.closing) []
        (by simp)]
      rfl
  rw [hnew]
  rcases hturns d hd with hsame | ⟨hnone, hpair⟩
  · rwa [hsame]
  · rw [hpair, staysOpen_append_pair]
    rwa [hnone, List.append_nil] at hequation

/-! ## The walk before the place -/

/-- The first atom of an opening delimiter closes no math between signs, so a search that leaves out
an atom may start at it. -/
theorem turns_searched {d : Delimiters} {mid : List Atom} (hmid : mid = [] → d ≠ .displayDollar)
    {a : Atom} (ha : a ∈ [Atom.plain '$', .escape '[', .escape '(', .escape 'b'])
    (rest : List Atom) :
    d.turns (d.searched (mid ++ a :: rest)) = d.turns (d.searched mid ++ a :: rest) := by
  cases mid with
  | cons b mid => cases d <;> rfl
  | nil =>
      -- the sign in front closes nothing, so the searches that pass it see the same turns
      have hskip {c : Char} (hc : c = ']' ∨ c = ')') :
          turns [.escape c] [.escape c] rest = turns [.escape c] [.escape c] (a :: rest) := by
        have hnotMem : ∀ b ∈ [a], b ∉ [Atom.escape c] ∧ b ∉ [Atom.escape c] := by
          rcases hc with rfl | rfl <;> (revert a; decide)
        exact (turns_append_of_notMem (List.cons_ne_nil _ _) (List.cons_ne_nil _ _) hnotMem).symm
      cases d with
      | displayDollar => exact absurd rfl (hmid rfl)
      | displayBracket =>
          simp only [Delimiters.turns, Delimiters.nested, Delimiters.searched,
            atoms_displayBracket.2]
          exact hskip (.inl rfl)
      | inlineParen =>
          simp only [Delimiters.turns, Delimiters.nested, Delimiters.searched, atoms_inlineParen.2]
          exact hskip (.inr rfl)
      | _ => rfl

/-- Only a closing tag can follow its opening tag at once. -/
theorem eq_environment_of_close?_nil {d : Delimiters} {as rest : List Atom}
    (hdollar : d = .inlineDollar → as.head? ≠ some (.plain '$'))
    (h : d.close? as = some ([], rest)) :
    ∃ name, d = .environment name ∧ as = atoms d.closing ++ rest := by
  -- a search that passes its first atom has it in the body
  have hclosed {closing : List Atom} : closedBy? closing as ≠ some ([], rest) := by
    cases as with
    | nil => simp [closedBy?]
    | cons a as => cases hfound : splitAround? closing as <;> simp [closedBy?, hfound]
  cases d with
  | environment name => exact ⟨name, rfl, append_of_balancedBy? h⟩
  | inlineDollar =>
      have has := append_of_splitAround? h
      rw [atoms_inlineDollar.2] at has
      exact absurd (by rw [has]; rfl) (hdollar rfl)
  | _ => exact absurd h hclosed

/-- A closing tag does not reach into an opening delimiter. -/
theorem closing_prefix_of_append {name : Text} (hd : Named accepts (.environment name))
    {a : Atom} (ha : a ∈ [Atom.plain '$', .escape '[', .escape '(', .escape 'b'])
    {mid rest : List Atom}
    (h : atoms (Delimiters.environment name).closing <+: mid ++ a :: rest) :
    atoms (Delimiters.environment name).closing <+: mid := by
  have hname := (hd name rfl).1
  have hdollar : '$' ∉ name := fun hc => ne_of_isNameCharacter (hname _ hc) (by decide) rfl
  have hclosing := atoms_closingTag (plain_of_isNameCharacter hname)
  rw [Delimiters.closing, hclosing] at h ⊢
  have hmid : mid ≠ [] := by
    rintro rfl
    rw [List.nil_append, List.cons_prefix_cons] at h
    obtain ⟨rfl, -⟩ := h
    simp at ha
  -- the sign is none of the atoms behind the first of the tag
  have hnotMem : a ∉ (Atom.escape 'e' :: (['n', 'd', '{'] ++ name ++ ['}']).map .plain).tail := by
    simp only [List.mem_cons, List.not_mem_nil, or_false] at ha
    rcases ha with rfl | rfl | rfl | rfl <;> simp [hdollar]
  rwa [← List.isPrefixOf_iff_prefix, isPrefixOf_append_of_notMem hnotMem hmid,
    List.isPrefixOf_iff_prefix] at h

/-- **What was not closed** before the place is not closed if other atoms are put there that cover
those that were. -/
theorem matchHead_absent_of_covers {old new : List Atom} (h : Covers accepts old new)
    {front : List Atom} (hne : front ≠ []) (hlast : front.getLast? ≠ some (.plain '$'))
    (habsent : matchHead accepts false (front ++ old) = .absent) :
    matchHead accepts false (front ++ new) = .absent := by
  obtain ⟨a, old, rfl, ha⟩ := h.old_eq
  obtain ⟨new, rfl⟩ := h.new_eq
  rcases opensWith_or_not accepts (front ++ .escape 'b' :: new) with ⟨d, rest, hopens⟩ | hnone
  · -- the opening delimiter stands in front of the place
    obtain ⟨mid, rfl⟩ : atoms d.opening <+: front := by
      have hfront := isPrefixOf_append_of_notMem (p := atoms d.opening)
        (Delimiters.escape_notMem_tail (delimiting_opening hopens.named) 'b') hne new
      rw [← List.isPrefixOf_iff_prefix, ← hfront, List.isPrefixOf_iff_prefix]
      exact ⟨rest, hopens.append_eq.symm⟩
    obtain rfl : rest = mid ++ .escape 'b' :: new := by
      have := hopens.append_eq
      rwa [List.append_assoc, List.append_cancel_left_eq, eq_comm] at this
    have hmid : mid = [] → d ≠ .displayDollar ∧ d ≠ .inlineDollar := by
      rintro rfl
      rw [List.append_nil] at hlast
      constructor <;> rintro rfl
      · simp [atoms_displayDollar.1] at hlast
      · simp [atoms_inlineDollar.1] at hlast
    have hdollar (rest : List Atom) :
        d = .inlineDollar → (mid ++ rest).head? ≠ some (.plain '$') := by
      intro hd
      have hhead := hopens.dollar hd
      cases mid with
      | nil => exact absurd hd (hmid rfl).2
      | cons b mid => exact hhead
    rw [List.append_assoc, matchHead_opening ⟨rfl, hopens.named, hdollar _⟩] at habsent ⊢
    cases hclose : d.close? (mid ++ a :: old) with
    | none =>
        have hopen := Delimiters.close?_eq_none_iff.1 hclose
        rw [turns_searched (fun hnil => (hmid hnil).1) ha] at hopen
        have hnew := h.staysOpen_turns d hopens.named _ hopen
        rw [← turns_searched (fun hnil => (hmid hnil).1) (by simp)] at hnew
        rw [Delimiters.close?_eq_none_iff.2 hnew]
        rfl
    | some found =>
        obtain ⟨body, rest⟩ := found
        rw [hclose] at habsent
        cases body with
        | cons b body => simp [conclude] at habsent
        | nil =>
            -- the environment is empty, and so it is with the new atoms behind it
            obtain ⟨name, rfl, htag⟩ := eq_environment_of_close?_nil (hdollar _) hclose
            obtain ⟨mid, rfl⟩ := closing_prefix_of_append hopens.named ha ⟨rest, htag.symm⟩
            have hempty : (Delimiters.environment name).close?
                ([] ++ atoms (Delimiters.environment name).closing ++
                  (mid ++ .escape 'b' :: new)) = some ([], mid ++ .escape 'b' :: new) :=
              balancedBy?_append
                (delimiting_closing hopens.named).ne_nil
                fun bs hbs hne => absurd (List.suffix_nil.1 hbs) hne
            rw [List.nil_append] at hempty
            rw [List.append_assoc, hempty]
            rfl
  · exact matchHead_of_unopened hnone

/-- **The walk before the place** goes as it went, if other atoms are put there that cover those
that were. -/
theorem ComesBy.of_covers {old new as : List Atom} (h : Covers accepts old new)
    (hlast : as.getLast? ≠ some (.plain '$')) (hcomes : ComesBy accepts old as) :
    ComesBy accepts new as := by
  -- along the atoms in front: what is absent stays absent, and what is found stays found
  induction hcomes with
  | here => exact .here
  | @absent a as hm _ ih =>
      have hnew := matchHead_absent_of_covers h (List.cons_ne_nil a as) hlast hm
      refine .absent hnew (ih fun hdollar => hlast ?_)
      exact List.mem_getLast?_cons hdollar
  | @found front as m hm hrest _ ih =>
      obtain ⟨front', hf, -, hcongr⟩ := matchHead_congr hm
      rw [hrest, List.append_cancel_right_eq] at hf
      subst hf
      refine .found (hcongr _) rfl (ih fun hdollar => hlast ?_)
      exact List.mem_getLast?_append_of_mem_getLast? hdollar

/-- **What is found at atoms that cover math** is found where the math was. -/
theorem Covers.mem_regions {front old new : List Atom} (h : Covers accepts old new)
    (hlast : front.getLast? ≠ some (.plain '$')) {region : Region}
    (hregion : region ∈ regions accepts 0 (front ++ old))
    (hstart : region.start = Text.width (Atom.join front)) {m : Match}
    (hm : matchHead accepts false new = .found m) :
    m.region (Text.width (Atom.join front)) ∈ regions accepts 0 (front ++ new) := by
  have hcomes : ComesBy accepts old front := by
    refine comesBy_of_not_cross fun r (hr : r ∈ regions accepts 0 (front ++ old)) hcross => ?_
    -- what crosses the start of the math overlaps with it
    have hlt := region.start_lt_stop
    rcases eq_or_stop_le_of_mem (pairwise_regions 0 (front ++ old)) hr hregion with
      rfl | hle | hle <;> omega
  obtain ⟨before, happend, -⟩ := (hcomes.of_covers h hlast).regions_append 0
  obtain ⟨as, rfl⟩ := h.new_eq
  rw [happend, Nat.zero_add, regions_of_found hm]
  exact List.mem_append_right _ List.mem_cons_self

end Region

end MathEdit
