import MathEdit.Proofs.Region.Openers

/-! # Searches in a document that is cut off

A search over the atoms that a cut has left of a document either comes to the end of them, and is
inconclusive, or it has the answer that it has on the whole document: `confirms_matchHead` for one
place and `findContaining_of_shows` for the walk along the document. The searches for closing
delimiters are compared first; what they have found lies before the cut, where both documents are
the same. -/

namespace MathEdit

/-! ## The part before the cut -/

namespace Atom

/-- What a cut leaves begins as the document does, up to its last atom. -/
theorem Shows.of_append {p q bs : List Atom} (h : Shows (p ++ q) bs)
    (hcut : q ≠ [] ∨ ∀ a ∈ p, a.isOpen = false) : ∃ bs', bs = p ++ bs' ∧ Shows q bs' := by
  induction p generalizing bs with
  | nil => exact ⟨bs, rfl, h⟩
  | cons a p ih =>
      rw [List.cons_append] at h
      generalize hr : p ++ q = r at h
      -- an open atom that the cut could change is the last one
      have hlast (ha : a.isOpen = true) (hnil : r = []) : False := by
        rw [hnil, List.append_eq_nil_iff] at hr
        rcases hcut with hq | hp
        · exact hq hr.2
        · simp [hp a List.mem_cons_self] at ha
      cases h with
      | backslash => exact (hlast rfl rfl).elim
      | comment => exact (hlast rfl rfl).elim
      | cons _ h =>
          subst hr
          obtain ⟨bs', rfl, hs⟩ := ih h (hcut.imp_right fun hp b hb =>
            hp b (List.mem_cons_of_mem a hb))
          exact ⟨bs', rfl, hs⟩

/-- A document that shows something holds something. -/
theorem Shows.ne_nil {as bs : List Atom} (h : Shows as bs) (hne : as ≠ []) : bs ≠ [] := by
  cases h with
  | nil => exact absurd rfl hne
  | _ => exact List.cons_ne_nil _ _

/-- No plain atom is open. -/
theorem isOpen_of_mem_map_plain {s : Text} : ∀ a ∈ s.map plain, a.isOpen = false := by
  simp only [List.mem_map]
  rintro a ⟨c, -, rfl⟩
  rfl

/-- What a cut leaves has a delimiter where the document has it. -/
theorem Shows.of_delimited {body delimiter rest bs : List Atom} (hne : delimiter ≠ [])
    (hd : ∀ a ∈ delimiter, a.isOpen = false) (h : Shows (body ++ delimiter ++ rest) bs) :
    ∃ rest', bs = body ++ delimiter ++ rest' ∧ Shows rest rest' := by
  rw [List.append_assoc] at h
  obtain ⟨_, rfl, hbody⟩ := h.of_append (.inl (List.append_ne_nil_of_left_ne_nil hne rest))
  obtain ⟨rest', rfl, hrest⟩ := hbody.of_append (.inr hd)
  exact ⟨rest', (List.append_assoc ..).symm, hrest⟩

/-- What a cut leaves has an atom that is not the last one where the document has it. -/
theorem Shows.of_cons {a : Atom} {as bs : List Atom} (h : Shows (a :: as) bs) (hne : as ≠ []) :
    ∃ bs', bs = a :: bs' ∧ Shows as bs' :=
  h.of_append (p := [a]) (.inl hne)

/-- Of plain atoms at the front, a cut leaves as many as there is room for. -/
theorem Shows.prefix_or_prefix {as bs p : List Atom} (h : Shows as bs)
    (hp : ∀ a ∈ p, ∃ c, a = plain c) (hb : p <+: bs ∨ bs <+: p) : p <+: as ∨ as <+: p := by
  induction h generalizing p with
  | nil => exact .inr List.nil_prefix
  | backslash c bs =>
      cases p with
      | nil => exact .inl List.nil_prefix
      | cons a p =>
          obtain ⟨d, rfl⟩ := hp a List.mem_cons_self
          simp at hb
  | comment body body' bs =>
      cases p with
      | nil => exact .inl List.nil_prefix
      | cons a p =>
          obtain ⟨d, rfl⟩ := hp a List.mem_cons_self
          simp at hb
  | cons a h ih =>
      cases p with
      | nil => exact .inl List.nil_prefix
      | cons b p =>
          simp only [List.cons_prefix_cons] at hb ⊢
          have hpb := fun a ha => hp a (List.mem_cons_of_mem b ha)
          rcases hb with ⟨rfl, hb⟩ | ⟨rfl, hb⟩
          · exact (ih hpb (.inl hb)).imp (⟨rfl, ·⟩) (⟨rfl, ·⟩)
          · exact (ih hpb (.inr hb)).imp (⟨rfl, ·⟩) (⟨rfl, ·⟩)

end Atom

namespace Region

open Atom (Shows)

/-! ## Patterns -/

/-- A pattern that fits into the front does not depend on what follows. -/
theorem isPrefixOf_append {p front : List Atom} (h : p.length ≤ front.length) (as : List Atom) :
    p.isPrefixOf (front ++ as) = p.isPrefixOf front := by
  rw [Bool.eq_iff_iff, List.isPrefixOf_iff_prefix, List.isPrefixOf_iff_prefix]
  exact ⟨fun hp => List.prefix_of_prefix_length_le hp (List.prefix_append _ _) h,
    fun hp => hp.trans (List.prefix_append _ _)⟩

/-- A pattern does not reach over an atom that is none of its further atoms. -/
theorem isPrefixOf_append_of_notMem {p front : List Atom} {a : Atom} (h : a ∉ p.tail)
    (hf : front ≠ []) (as : List Atom) :
    p.isPrefixOf (front ++ a :: as) = p.isPrefixOf front := by
  rw [Bool.eq_iff_iff, List.isPrefixOf_iff_prefix, List.isPrefixOf_iff_prefix]
  refine ⟨fun hp => ?_, fun hp => hp.trans (List.prefix_append _ _)⟩
  rcases List.prefix_or_prefix_of_prefix hp (List.prefix_append front (a :: as)) with hpf | hfp
  · exact hpf
  · -- otherwise `p` is `front` and more, and the next atom of it is `a`
    obtain ⟨rest, rfl⟩ := hfp
    cases rest with
    | nil => simp
    | cons b rest =>
        rw [List.prefix_append_right_inj, List.cons_prefix_cons] at hp
        obtain ⟨c, front, rfl⟩ := List.exists_cons_of_ne_nil hf
        exact absurd (by simp [hp.1]) h

/-! ## Closing delimiters -/

/-- A result with `a` put in front of what comes before the delimiter. -/
theorem map_cons_eq_some {a : Atom} {found : Option (List Atom × List Atom)}
    {body rest : List Atom} :
    (found.map fun (body, rest) => (a :: body, rest)) = some (a :: body, rest) ↔
      found = some (body, rest) := by
  cases found with
  | none => simp
  | some p =>
      obtain ⟨body', rest'⟩ := p
      simp

/-- The first occurrence of a pattern does not depend on what follows it. -/
theorem splitAround?_congr {pattern body rest : List Atom} (hp : pattern ≠ [])
    (h : splitAround? pattern (body ++ pattern ++ rest) = some (body, rest)) (rest' : List Atom) :
    splitAround? pattern (body ++ pattern ++ rest') = some (body, rest') := by
  induction body with
  | nil =>
      obtain ⟨a, as, rfl⟩ := List.exists_cons_of_ne_nil hp
      simp [splitAround?]
  | cons a body ih =>
      -- whether the pattern is at the front is seen before the pattern that ends the body is over
      have hfit : pattern.length ≤ (a :: (body ++ pattern)).length := by simp; omega
      have hfront (as : List Atom) :
          pattern.isPrefixOf (a :: (body ++ pattern) ++ as) =
            pattern.isPrefixOf (a :: (body ++ pattern)) := isPrefixOf_append hfit as
      simp only [List.cons_append] at h hfront ⊢
      rw [splitAround?, hfront] at h ⊢
      split at h
      · simp at h
      · next hn =>
          rw [if_neg hn]
          rw [map_cons_eq_some] at h ⊢
          exact ih h

/-- The closing tag that balances does not depend on what follows it, since no opening tag reaches
over the start of a closing tag. -/
theorem balancedBy?_congr {opening closing body rest : List Atom} {depth : Nat} {a : Atom}
    (ha : a ∉ opening.tail)
    (h : balancedBy? opening (a :: closing) depth (body ++ a :: closing ++ rest) =
      some (body, rest)) (rest' : List Atom) :
    balancedBy? opening (a :: closing) depth (body ++ a :: closing ++ rest') =
      some (body, rest') := by
  induction body generalizing depth with
  | nil =>
      cases depth with
      | zero => simp [balancedBy?]
      | succ depth => simp [balancedBy?] at h
  | cons b body ih =>
      have hclosing (as : List Atom) :
          (a :: closing).isPrefixOf (b :: body ++ a :: closing ++ as) =
            (a :: closing).isPrefixOf (b :: body ++ a :: closing) :=
        isPrefixOf_append (by simp; omega) as
      have hopening (as : List Atom) :
          opening.isPrefixOf (b :: body ++ a :: closing ++ as) =
            opening.isPrefixOf (b :: body) := by
        rw [List.append_assoc, List.cons_append]
        exact isPrefixOf_append_of_notMem ha (List.cons_ne_nil b body) _
      simp only [List.cons_append] at h hclosing hopening ⊢
      simp only [balancedBy?] at h ⊢
      rw [hclosing, hopening] at h ⊢
      split at h
      · next hc =>
          rw [if_pos hc]
          cases depth with
          | zero => simp at h
          | succ depth =>
              rw [map_cons_eq_some] at h ⊢
              exact ih h
      · next hc =>
          rw [if_neg hc]
          rw [map_cons_eq_some] at h ⊢
          exact ih h

/-- What a search before the cut has found, it finds in the whole document. -/
theorem splitAround?_of_shows {pattern as bs body rest : List Atom} (hne : pattern ≠ [])
    (hp : ∀ a ∈ pattern, a.isOpen = false) (h : Shows as bs)
    (hs : splitAround? pattern as = some (body, rest)) :
    ∃ rest', Shows rest rest' ∧ splitAround? pattern bs = some (body, rest') := by
  obtain rfl := append_of_splitAround? hs
  obtain ⟨rest', rfl, hr⟩ := Shows.of_delimited hne hp h
  exact ⟨rest', hr, splitAround?_congr hne hs rest'⟩

/-- What a search with an atom before the delimiter has found, it finds in the whole document. -/
theorem closedBy?_of_shows {closing as bs body rest : List Atom} (hne : closing ≠ [])
    (hc : ∀ a ∈ closing, a.isOpen = false) (h : Shows as bs)
    (hs : closedBy? closing as = some (body, rest)) :
    ∃ rest', Shows rest rest' ∧ closedBy? closing bs = some (body, rest') := by
  cases as with
  | nil => simp [closedBy?] at hs
  | cons a as =>
      obtain ⟨⟨b, r⟩, hb, he⟩ := Option.map_eq_some_iff.1 hs
      obtain ⟨rfl, rfl⟩ := Prod.mk.inj he
      have hnil : as ≠ [] := by
        rintro rfl
        simp [splitAround?] at hb
      obtain ⟨bs, rfl, hbs⟩ := h.of_cons hnil
      obtain ⟨rest', hr, hs'⟩ := splitAround?_of_shows hne hc hbs hb
      exact ⟨rest', hr, by simp [closedBy?, hs']⟩

/-- The closing tag that balances before the cut balances in the whole document. -/
theorem balancedBy?_of_shows {name : Text} (hname : ∀ c ∈ name, c ≠ '\\' ∧ c ≠ '%')
    {as bs body rest : List Atom} {depth : Nat} (h : Shows as bs)
    (hs : balancedBy? (atoms (Environment.openingTag name)) (atoms (Environment.closingTag name))
      depth as = some (body, rest)) :
    ∃ rest', Shows rest rest' ∧
      balancedBy? (atoms (Environment.openingTag name)) (atoms (Environment.closingTag name))
        depth bs = some (body, rest') := by
  obtain rfl := append_of_balancedBy? hs
  rw [atoms_openingTag hname, atoms_closingTag hname, atoms_openingStart] at *
  obtain ⟨rest', rfl, hr⟩ := Shows.of_delimited (List.cons_ne_nil _ _)
    (List.forall_mem_cons.2 ⟨rfl, Atom.isOpen_of_mem_map_plain⟩) h
  exact ⟨rest', hr, balancedBy?_congr (by simp) hs rest'⟩

/-! ## Names -/

/-- A name that ends before the cut is the name in the whole document. -/
theorem nameRun_of_shows {as bs rest : List Atom} {name : Text} (h : Shows as bs)
    (hn : nameRun as = (name, rest)) (hne : rest ≠ []) :
    ∃ rest', nameRun bs = (name, rest') ∧ Shows rest rest' := by
  induction h generalizing name with
  | nil bs =>
      obtain ⟨-, rfl⟩ := Prod.mk.inj hn
      exact absurd rfl hne
  | backslash c bs =>
      obtain ⟨rfl, rfl⟩ := Prod.mk.inj hn
      exact ⟨_, rfl, .backslash c bs⟩
  | comment body body' bs =>
      obtain ⟨rfl, rfl⟩ := Prod.mk.inj hn
      exact ⟨_, rfl, .comment body body' bs⟩
  | @cons a as bs h ih =>
      cases a with
      | plain c =>
          by_cases hc : isNameCharacter c = true
          · simp only [nameRun, hc, if_true] at hn ⊢
            obtain ⟨rfl, rfl⟩ := Prod.mk.inj hn
            obtain ⟨rest', hrun, hr⟩ := ih rfl
            exact ⟨rest', by rw [hrun], hr⟩
          · simp only [nameRun, hc] at hn ⊢
            obtain ⟨rfl, rfl⟩ := Prod.mk.inj hn
            exact ⟨_, rfl, .cons _ h⟩
      | escape c =>
          obtain ⟨rfl, rfl⟩ := Prod.mk.inj hn
          exact ⟨_, rfl, .cons _ h⟩
      | comment body =>
          obtain ⟨rfl, rfl⟩ := Prod.mk.inj hn
          exact ⟨_, rfl, .cons _ h⟩
      | backslash =>
          obtain ⟨rfl, rfl⟩ := Prod.mk.inj hn
          exact ⟨_, rfl, .cons _ h⟩

/-! ## Math at the front -/

/-- The outcome of a search before the cut, if it is conclusive, is the outcome in the whole
document; only what follows a match may be more there. -/
inductive Confirms : Search Match → Search Match → Prop where
  | found (delimiters : Delimiters) (body : List Atom) {rest rest' : List Atom}
      (h : Shows rest rest') :
      Confirms (.found ⟨delimiters, body, rest⟩) (.found ⟨delimiters, body, rest'⟩)
  | absent : Confirms .absent .absent
  | inconclusive (outcome : Search Match) : Confirms .inconclusive outcome

variable {accepts : Text → Bool}

/-- What is concluded before the cut is confirmed if the closing delimiter is. -/
theorem confirms_conclude {d : Delimiters} {before whole : Option (List Atom × List Atom)}
    (h : ∀ body rest, before = some (body, rest) →
      ∃ rest', Shows rest rest' ∧ whole = some (body, rest')) :
    Confirms (conclude true d before) (conclude false d whole) := by
  cases before with
  | none => exact .inconclusive _
  | some found =>
      obtain ⟨body, rest⟩ := found
      obtain ⟨rest', hr, rfl⟩ := h body rest rfl
      cases body with
      | nil => exact .absent
      | cons a body => exact .found d _ hr

/-- So is an environment. -/
theorem confirms_matchEnvironment {as bs : List Atom} (h : Shows as bs) :
    Confirms (matchEnvironment accepts true as) (matchEnvironment accepts false bs) := by
  obtain ⟨name, rest, hn⟩ : ∃ name rest, nameRun as = (name, rest) := ⟨_, _, rfl⟩
  cases rest with
  | nil =>
      -- the cut may have shortened the name
      rw [matchEnvironment_atEnd hn]
      exact .inconclusive _
  | cons a rest =>
      obtain ⟨rest', hn', hr⟩ := nameRun_of_shows h hn (List.cons_ne_nil _ _)
      cases hr with
      | backslash c bs =>
          rw [matchEnvironment_other hn (by simp), matchEnvironment_other hn' (by simp)]
          exact .absent
      | comment body body' bs =>
          rw [matchEnvironment_other hn (by simp), matchEnvironment_other hn' (by simp)]
          exact .absent
      | cons _ hr =>
          by_cases ha : a = .plain '}'
          · subst ha
            rw [matchEnvironment_brace hn, matchEnvironment_brace hn']
            split
            · exact confirms_conclude fun _ _ =>
                balancedBy?_of_shows (plain_of_nameRun hn) hr
            · exact .absent
          · rw [matchEnvironment_other hn ha, matchEnvironment_other hn' ha]
            exact .absent

/-- An opening delimiter that the document has is there before the cut, or it is cut short. -/
theorem opens_or_cutShort {as bs : List Atom} (h : Shows as bs) (hne : as ≠ [])
    (ho : Opens bs) : Opens as ∨ cutShort as = true := by
  cases h with
  | nil => exact absurd rfl hne
  | backslash => exact .inr (cutShort_iff.2 (.inl rfl))
  | comment => cases ho
  | @cons a as bs h =>
      cases ho with
      | dollar => exact .inl (.dollar as)
      | bracket => exact .inl (.bracket as)
      | paren => exact .inl (.paren as)
      | environment bs =>
          rcases h.prefix_or_prefix (p := ['e', 'g', 'i', 'n', '{'].map .plain) (by simp)
            (.inl (List.prefix_append _ _)) with ⟨rest, rfl⟩ | has
          · exact .inl (.environment rest)
          · -- the cut has left a part of the tag, or just the tag
            by_cases heq : as = ['e', 'g', 'i', 'n', '{'].map .plain
            · exact .inl (heq ▸ .environment [])
            · refine .inr (cutShort_iff.2 (.inr (.inr ?_)))
              rw [atoms_openingStart]
              exact ⟨List.cons_prefix_cons.2 ⟨rfl, has⟩, fun he => heq (List.cons.inj he).2⟩

/-- A dollar before the cut starts the math that it starts in the whole document. -/
theorem confirms_dollar {a : Atom} {as bs : List Atom} (h : Shows (a :: as) bs) :
    Confirms (matchHead accepts true (.plain '$' :: a :: as))
      (matchHead accepts false (.plain '$' :: bs)) := by
  by_cases ha : a = .plain '$'
  · subst ha
    obtain ⟨bs, rfl, hs⟩ := h.of_append (p := [.plain '$']) (.inr (by simp [Atom.isOpen]))
    rw [matchHead_dollars, List.singleton_append, matchHead_dollars]
    exact confirms_conclude fun _ _ =>
      closedBy?_of_shows (List.cons_ne_nil _ _) (by simp [Atom.isOpen]) hs
  · -- what the cut has changed of the next atom makes it no dollar
    obtain ⟨b, bs, rfl, hb⟩ : ∃ b bs', bs = b :: bs' ∧ b ≠ .plain '$' := by
      cases h with
      | backslash => exact ⟨_, _, rfl, by simp⟩
      | comment => exact ⟨_, _, rfl, by simp⟩
      | cons => exact ⟨_, _, rfl, ha⟩
    rw [matchHead_dollar ha, matchHead_dollar hb]
    exact confirms_conclude fun _ _ =>
      splitAround?_of_shows (List.cons_ne_nil _ _) (by simp [Atom.isOpen]) h

/-- **Math at one place.** A conclusive look for math before the cut sees what the document holds
there. -/
theorem confirms_matchHead {as bs : List Atom} (h : Shows as bs) (hne : as ≠ []) :
    Confirms (matchHead accepts true as) (matchHead accepts false bs) := by
  by_cases hcut : cutShort as = true
  · rw [matchHead_of_cutShort hcut]
    exact .inconclusive _
  by_cases hopen : Opens as
  · cases hopen with
    | dollar as =>
        cases as with
        | nil => exact absurd (cutShort_iff.2 (by simp)) hcut
        | cons a as =>
            obtain ⟨bs, rfl, hs⟩ := h.of_cons (List.cons_ne_nil a as)
            exact confirms_dollar hs
    | bracket as =>
        obtain ⟨bs, rfl, hs⟩ := h.of_append (p := [.escape '[']) (.inr (by simp [Atom.isOpen]))
        rw [matchHead_bracket, List.singleton_append, matchHead_bracket]
        exact confirms_conclude fun _ _ =>
          closedBy?_of_shows (List.cons_ne_nil _ _) (by simp [Atom.isOpen]) hs
    | paren as =>
        obtain ⟨bs, rfl, hs⟩ := h.of_append (p := [.escape '(']) (.inr (by simp [Atom.isOpen]))
        rw [matchHead_paren, List.singleton_append, matchHead_paren]
        exact confirms_conclude fun _ _ =>
          closedBy?_of_shows (List.cons_ne_nil _ _) (by simp [Atom.isOpen]) hs
    | environment as =>
        obtain ⟨bs, rfl, hs⟩ := h.of_append
          (p := .escape 'b' :: ['e', 'g', 'i', 'n', '{'].map .plain) (q := as)
          (.inr (List.forall_mem_cons.2 ⟨rfl, Atom.isOpen_of_mem_map_plain⟩))
        rw [List.cons_append, matchHead_environment, matchHead_environment]
        exact confirms_matchEnvironment hs
  · rw [matchHead_of_not_opens hopen (Bool.eq_false_iff.2 hcut), matchHead_whole_of_not_opens]
    · exact .absent
    · exact fun ho => (opens_or_cutShort h hne ho).elim hopen hcut

/-- Where there is no math before the cut there is none in the whole document. -/
theorem matchHead_whole_of_absent {as bs : List Atom} (h : Shows as bs) (hne : as ≠ [])
    (hm : matchHead accepts true as = .absent) : matchHead accepts false bs = .absent := by
  have hconf : Confirms (matchHead accepts true as) (matchHead accepts false bs) :=
    confirms_matchHead h hne
  rw [hm] at hconf
  generalize matchHead accepts false bs = whole at hconf ⊢
  cases hconf
  rfl

/-- Math before the cut is math of the whole document, with the same delimiters and body. -/
theorem matchHead_whole_of_found {as bs : List Atom} {m : Match} (h : Shows as bs) (hne : as ≠ [])
    (hm : matchHead accepts true as = .found m) :
    ∃ rest', matchHead accepts false bs = .found ⟨m.delimiters, m.body, rest'⟩ ∧
      Shows m.rest rest' := by
  have hconf : Confirms (matchHead accepts true as) (matchHead accepts false bs) :=
    confirms_matchHead h hne
  rw [hm] at hconf
  generalize matchHead accepts false bs = whole at hconf ⊢
  cases hconf with
  | found _ _ hrest => exact ⟨_, rfl, hrest⟩

/-! ## The walk along the document -/

/-- **The walk before the cut.** A region that is found before the cut is found in the whole
document. -/
theorem findContaining_of_shows {offset position : Nat} {as bs : List Atom} {r : Region}
    (h : Shows as bs) (hr : findContaining accepts true offset position as = .found r) :
    findContaining accepts false offset position bs = .found r := by
  fun_induction findContaining accepts true offset position as generalizing bs with
  | case1 => simp at hr
  | case2 => simp at hr
  | case3 => simp at hr
  | case4 position a rest hp hm ih =>
      have hwhole := matchHead_whole_of_absent h (List.cons_ne_nil a rest) hm
      -- the last atom before a cut has no rest that could hold the region
      have hrest : rest ≠ [] := by
        rintro rfl
        simp [findContaining] at hr
      obtain ⟨bs, rfl, hs⟩ := h.of_cons hrest
      rw [findContaining_of_absent (Nat.le_of_not_lt hp) hwhole]
      exact ih hs hr
  | case5 position a rest hp m hm region =>
      rename_i ho
      -- the region reaches the offset, on both walks
      obtain ⟨rest', hwhole, -⟩ := matchHead_whole_of_found h (List.cons_ne_nil a rest) hm
      obtain ⟨b, bs, rfl⟩ := List.exists_cons_of_ne_nil (h.ne_nil (List.cons_ne_nil a rest))
      rw [findContaining_of_found (Nat.le_of_not_lt hp) hwhole]
      exact (if_pos ho).trans hr
  | case6 position a rest hp m hm region ho =>
      rename_i ih
      -- both walks pass the region over
      obtain ⟨rest', hwhole, hs⟩ := matchHead_whole_of_found h (List.cons_ne_nil a rest) hm
      obtain ⟨b, bs, rfl⟩ := List.exists_cons_of_ne_nil (h.ne_nil (List.cons_ne_nil a rest))
      rw [findContaining_of_found (Nat.le_of_not_lt hp) hwhole]
      exact (if_neg ho).trans (ih hs hr)

end Region

end MathEdit
