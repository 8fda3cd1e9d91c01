import MathEdit.Proofs.Region.Closers
import MathEdit.Stops

/-! # The first closer

A region between fixed signs ends at the first place where its closing delimiter stands behind the
content. Display math and math in parentheses must not be empty, so a closer right behind their
opening delimiter belongs to the content; single dollars that meet are no math at all.

* **`Delimiters.ClosesAt`**: where the closing delimiter of a kind stands at a live place.
* **`not_prefix_of_splitAround?`**, **`eq_nil_of_close?`**: the search for a closer stops at the
  first one.
* **`closesAt_iff_of_locate?`**: the closers inside the content of a region. -/

namespace MathEdit

/-- Whether the closing delimiter of a kind stands at an offset of a text that is a live place. -/
def Delimiters.ClosesAt (d : Delimiters) (t : Text) (offset : Nat) : Prop :=
  ∃ before after, t = before ++ (d.closing ++ after) ∧ Text.width before = offset ∧ Live before

namespace Region

variable {accepts : Text → Bool} {d : Delimiters} {as body rest xs ys : List Atom}

/-! ## The search for a closer -/

/-- No pattern stands before its first occurrence. -/
theorem not_prefix_of_splitAround? {pattern : List Atom}
    (h : splitAround? pattern as = some (body, rest)) (hbody : body = xs ++ ys) (hne : ys ≠ []) :
    ¬ pattern <+: ys ++ pattern ++ rest := by
  induction as generalizing body xs with
  | nil => simp [splitAround?] at h
  | cons a as ih =>
      have happend := append_of_splitAround? h
      rw [splitAround?] at h
      split at h
      · obtain ⟨rfl, rfl⟩ := Prod.mk.inj (Option.some.inj h)
        exact absurd (List.append_eq_nil_iff.1 hbody.symm).2 hne
      · next hfront =>
          obtain ⟨⟨body', rest'⟩, hb, he⟩ := Option.map_eq_some_iff.1 h
          obtain ⟨rfl, rfl⟩ := Prod.mk.inj he
          cases xs with
          | nil =>
              -- this is where the search looked first
              obtain rfl : a :: body' = ys := hbody
              rw [← happend]
              exact fun hp => hfront (List.isPrefixOf_iff_prefix.2 hp)
          | cons x xs => exact ih hb (List.cons.inj hbody).2

/-- A closer inside the body of math stands at its front, where the first atom is passed over. -/
theorem eq_nil_of_close? (hd : d ∈ Delimiters.signs) (h : d.close? as = some (body, rest))
    (hbody : body = xs ++ ys) (hne : ys ≠ [])
    (hp : atoms d.closing <+: ys ++ atoms d.closing ++ rest) : xs = [] ∧ d ≠ .inlineDollar := by
  have passed (h : closedBy? (atoms d.closing) as = some (body, rest)) : xs = [] := by
    cases as with
    | nil => simp [closedBy?] at h
    | cons a as =>
        obtain ⟨⟨body', rest'⟩, hb, he⟩ := Option.map_eq_some_iff.1 h
        obtain ⟨rfl, rfl⟩ := Prod.mk.inj he
        cases xs with
        | nil => rfl
        | cons x xs => exact absurd hp (not_prefix_of_splitAround? hb (List.cons.inj hbody).2 hne)
  cases d with
  | inlineDollar => exact absurd hp (not_prefix_of_splitAround? h hbody hne)
  | environment name => simp [Delimiters.signs] at hd
  | _ => exact ⟨passed h, by simp⟩

/-- What is found is an opening delimiter with a body behind it, up to its closer. -/
theorem close?_of_matchHead {m : Match} (h : matchHead accepts false as = .found m) :
    ∃ behind, as = atoms m.delimiters.opening ++ behind ∧
      m.delimiters.close? behind = some (m.body, m.rest) := by
  rcases opensWith_or_not accepts as with ⟨d, behind, hopens⟩ | hnone
  · have hfound := (matchHead_opening hopens).symm.trans h
    obtain ⟨hclose, rfl, -⟩ := eq_of_conclude hfound
    exact ⟨behind, hopens.append_eq, hclose⟩
  · rw [matchHead_of_unopened hnone] at h
    cases h

/-! ## In a document -/

/-- The atoms behind a closing delimiter are those of the text there. -/
theorem atoms_closing_append (hd : Named accepts d) (t : Text) :
    atoms (d.closing ++ t) = atoms d.closing ++ atoms t :=
  atoms_append_of_forall (fun a ha => ((delimiting_closing hd).forall_mem a ha).1) t

/-- A closer at a live place of the content comes right behind the opening delimiter. -/
theorem eq_nil_of_live {t : Text} {front back : List Atom} {m : Match}
    (hatoms : atoms t = front ++ back) (hfound : matchHead accepts false back = .found m)
    (hsigns : m.delimiters ∈ Delimiters.signs) {x z after : Text}
    (hx : Live x) (hz : Atom.join m.body = x ++ z) (hne : z ≠ [])
    (hafter : m.delimiters.closing ++ after = z ++ (m.delimiters.closing ++ Atom.join m.rest)) :
    x = [] ∧ m.delimiters ≠ .inlineDollar := by
  have hm := delimits_of_matchHead hfound
  have hbody : m.body = atoms x ++ atoms z := by
    rw [← hm.atoms_content hatoms, hz, hx.atoms_append]
  have hzne : atoms z ≠ [] := by
    intro hnil
    rw [← join_atoms z, hnil] at hne
    exact hne rfl
  -- the atoms behind the cut are those of the closer and what follows it
  have hcut : atoms t = (front ++ atoms m.delimiters.opening ++ atoms x) ++
      (atoms z ++ atoms m.delimiters.closing ++ m.rest) := by
    rw [hatoms, hm.append_eq, hbody]
    simp
  have hbehind := (atoms_join_of_append hcut).2
  simp only [Atom.join_append, join_atoms] at hbehind
  rw [List.append_assoc, ← hafter, atoms_closing_append hm.named] at hbehind
  obtain ⟨behind, -, hclose⟩ := close?_of_matchHead hfound
  obtain ⟨hnil, hdollar⟩ := eq_nil_of_close? hsigns hclose hbody hzne ⟨_, hbehind⟩
  refine ⟨?_, hdollar⟩
  rw [← join_atoms x, hnil, Atom.join_nil]

/-- **The first closer.** Inside the content of a region between fixed signs, the closing delimiter
stands at a live place only right behind the opening one: where the content and the closing
delimiter begin with it, and not between single dollars. -/
theorem closesAt_iff_of_locate? {r : Recognition} {t : Text} {offset q : Nat} {region : Region}
    (h : locate? r t offset = some region) (hsigns : region.delimiters ∈ Delimiters.signs)
    (hstart : region.contentStart ≤ q) (hstop : q < region.contentStop) :
    region.delimiters.ClosesAt t q ↔
      q = region.contentStart ∧ region.delimiters ≠ .inlineDollar ∧
        region.delimiters.closing <+: region.content ++ region.delimiters.closing := by
  obtain ⟨front, m, back, hatoms, hfound, rfl⟩ := exists_matchHead_of_locate? h
  have hm := delimits_of_matchHead hfound
  have ht := hm.content_eq hatoms
  have hlive := hm.live_content hatoms
  have hplace : Text.width (Atom.join front ++ m.delimiters.opening) =
      (m.region (Text.width (Atom.join front))).contentStart := Text.width_append _ _
  rw [List.append_assoc] at ht
  change m.delimiters.ClosesAt t q ↔ q = _ ∧ m.delimiters ≠ .inlineDollar ∧
    m.delimiters.closing <+: Atom.join m.body ++ m.delimiters.closing
  constructor
  · rintro ⟨before, after, hsplit, rfl, hbefore⟩
    -- the text before the closer ends inside the content
    obtain ⟨x, rfl, hx⟩ := Text.exists_append_of_width_le (ht.symm.trans hsplit)
      (hplace.trans_le hstart)
    have hwidth : Text.width x < Text.width (Atom.join m.body) := by
      rw [contentStop, ← hplace, Text.width_append] at hstop
      exact Nat.lt_of_add_lt_add_left hstop
    obtain ⟨z, hz, hafter⟩ := Text.exists_append_of_width_le hx.symm (Nat.le_of_lt hwidth)
    have hne : z ≠ [] := by
      rintro rfl
      rw [hz, List.append_nil] at hwidth
      exact absurd hwidth (Nat.lt_irrefl _)
    obtain ⟨rfl, hdollar⟩ :=
      eq_nil_of_live hatoms hfound hsigns (hlive.append_iff.1 hbefore) hz hne hafter
    rw [List.append_nil]
    refine ⟨hplace, hdollar, ?_⟩
    have hprefix : m.delimiters.closing <+:
        Atom.join m.body ++ m.delimiters.closing ++ Atom.join m.rest :=
      ⟨after, by rw [hafter, hz, List.nil_append, List.append_assoc]⟩
    exact List.prefix_of_prefix_length_le hprefix (List.prefix_append _ _) (by simp)
  · rintro ⟨rfl, -, s, hs⟩
    refine ⟨Atom.join front ++ m.delimiters.opening, s ++ Atom.join m.rest, ?_, hplace, hlive⟩
    rw [ht, ← List.append_assoc m.delimiters.closing, hs, List.append_assoc (Atom.join m.body)]

/-- A closer right behind the opening delimiter, in a window, with another one in a comment. -/
theorem closesAt_iff_behind_opening :
    locate? ⟨[], false, 2⟩ "a \\[\\]%\\]\n\\]".toList 5 =
        some ⟨2, .displayBracket, "\\]%\\]\n".toList⟩ ∧
      Delimiters.displayBracket ∈ Delimiters.signs ∧
      ∀ q, 4 ≤ q → q < 10 →
        (Delimiters.displayBracket.ClosesAt "a \\[\\]%\\]\n\\]".toList q ↔ q = 4) := by
  have h : locate? ⟨[], false, 2⟩ "a \\[\\]%\\]\n\\]".toList 5 =
      some ⟨2, .displayBracket, "\\]%\\]\n".toList⟩ := by decide +kernel
  have hsigns : Delimiters.displayBracket ∈ Delimiters.signs := by decide
  have hbounds : contentStart ⟨2, .displayBracket, "\\]%\\]\n".toList⟩ = 4 ∧
      contentStop ⟨2, .displayBracket, "\\]%\\]\n".toList⟩ = 10 := by decide +kernel
  refine ⟨h, hsigns, fun q hstart hstop => ?_⟩
  have hcloses := closesAt_iff_of_locate? h hsigns (hbounds.1.trans_le hstart)
    (hstop.trans_eq hbounds.2.symm)
  rw [hbounds.1] at hcloses
  exact hcloses.trans (and_iff_left (by decide +kernel))

/-- Not every closer lies outside of the content. -/
theorem not_forall_closers_outside_content :
    ¬ ∀ (r : Recognition) (t : Text) (offset : Nat) (region : Region) (q : Nat), r.window = 0 →
      locate? r t offset = some region → region.delimiters ∈ Delimiters.signs →
        region.contentStart ≤ q → q < region.contentStop → ¬ region.delimiters.ClosesAt t q := by
  intro h
  refine h ⟨[], false, 0⟩ "\\[\\] x \\]".toList 1 ⟨0, .displayBracket, "\\] x ".toList⟩ 2 rfl
    (by decide +kernel) (by decide) (by decide +kernel) (by decide +kernel) ?_
  exact ⟨['\\', '['], " x \\]".toList, rfl, rfl, live_escape '['⟩

end Region

end MathEdit
