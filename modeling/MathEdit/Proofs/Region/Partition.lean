import Mathlib.Data.List.Pairwise
import MathEdit.Proofs.Region.Openers

/-! # The regions of a document

`Region.regions` collects all the math of a document in one walk that does not stop at an offset.
The regions come in order and do not overlap, and what a search finds for an offset is the first of
them that contains it (`toOption_findContaining`): where two of them meet, the one that ends there
(`find?_contains_eq_some_iff`). Past a place that no region crosses, the regions are those of the
rest of the document (`regions_append`). -/

namespace MathEdit.Region

variable {accepts : Text → Bool}

/-- No region is empty. -/
theorem start_lt_stop (r : Region) : r.start < r.stop := by
  have htext : r.text ≠ [] := by
    rw [text, List.append_assoc]
    exact List.append_ne_nil_of_left_ne_nil r.delimiters.opening_ne_nil _
  have := Text.width_pos htext
  rw [stop]
  omega

/-- At the end of the whole document nothing is left open. -/
theorem conclude_whole_ne_inconclusive (d : Delimiters) (found : Option (List Atom × List Atom)) :
    conclude false d found ≠ .inconclusive := by
  unfold conclude
  split <;> simp [Search.atEnd]

/-- Nor is anything by an environment. -/
theorem matchEnvironment_whole_ne_inconclusive (as : List Atom) :
    matchEnvironment accepts false as ≠ .inconclusive := by
  unfold matchEnvironment
  split
  · simp [Search.atEnd]
  · split
    · exact conclude_whole_ne_inconclusive _ _
    · simp
  · simp

/-- In the whole document every look for math is conclusive. -/
theorem matchHead_whole_ne_inconclusive (as : List Atom) :
    matchHead accepts false as ≠ .inconclusive := by
  by_cases h : Opens as
  · cases h with
    | dollar as =>
        cases as with
        | nil => rw [matchHead_of_cutShort (cutShort_iff.2 (by simp))]; simp [Search.atEnd]
        | cons a as =>
            by_cases ha : a = .plain '$'
            · rw [ha, matchHead_dollars]
              exact conclude_whole_ne_inconclusive _ _
            · rw [matchHead_dollar ha]
              exact conclude_whole_ne_inconclusive _ _
    | bracket as => rw [matchHead_bracket]; exact conclude_whole_ne_inconclusive _ _
    | paren as => rw [matchHead_paren]; exact conclude_whole_ne_inconclusive _ _
    | environment as =>
        rw [matchHead_environment]
        exact matchEnvironment_whole_ne_inconclusive as
  · rw [matchHead_whole_of_not_opens h]
    simp

/-! ## The walk over all regions -/

/-- The regions of a document, where `position` is the offset of its first atom. -/
def regions (accepts : Text → Bool) (position : Nat) (as : List Atom) : List Region :=
  match as with
  | [] => []
  | a :: rest =>
      match _h : matchHead accepts false (a :: rest) with
      | .found m => m.region position :: regions accepts (m.region position).stop m.rest
      | .absent | .inconclusive => regions accepts (position + a.width) rest
termination_by as.length
decreasing_by
  · exact length_of_matchHead _h
  all_goals simp

/-- There is no region where there is no text. -/
theorem regions_nil (position : Nat) : regions accepts position [] = [] := by
  rw [regions]

/-- A match at the front is the first region, and the others are behind it. -/
theorem regions_of_found {position : Nat} {a : Atom} {as : List Atom} {m : Match}
    (hm : matchHead accepts false (a :: as) = .found m) :
    regions accepts position (a :: as) =
      m.region position :: regions accepts (m.region position).stop m.rest := by
  rw [regions]
  split <;> simp_all

/-- Where there is none, the atom is passed over. -/
theorem regions_of_absent {position : Nat} {a : Atom} {as : List Atom}
    (hm : matchHead accepts false (a :: as) = .absent) :
    regions accepts position (a :: as) = regions accepts (position + a.width) as := by
  rw [regions]
  split <;> simp_all

/-- What a match takes off the front of the atoms is the text of its region. -/
theorem append_of_matchHead {as : List Atom} {m : Match} {more : Bool}
    (h : matchHead accepts more as = .found m) (position : Nat) :
    ∃ front, as = front ++ m.rest ∧ Atom.join front = (m.region position).text := by
  obtain ⟨front, hf, ht⟩ := takes_of_matchHead h
  exact ⟨front, hf, ht.join_eq⟩

/-- A walk meets no region that starts before it. -/
theorem le_start_of_mem_regions {position : Nat} {as : List Atom} {r : Region}
    (h : r ∈ regions accepts position as) : position ≤ r.start := by
  -- the position only grows along the atoms
  fun_induction regions accepts position as with
  | case1 => simp at h
  | case2 position a rest m hm ih =>
      rcases List.mem_cons.1 h with rfl | h
      · exact Nat.le_refl _
      · have hstop := (m.region position).start_lt_stop
        have := ih h
        simp only [Match.region] at hstop this
        omega
  | case3 position a rest hm ih =>
      have := ih h
      omega
  | case4 position a rest hm ih =>
      have := ih h
      omega

/-- Each region ends before the next one starts. -/
theorem pairwise_regions (position : Nat) (as : List Atom) :
    (regions accepts position as).Pairwise fun r s => r.stop ≤ s.start := by
  fun_induction regions accepts position as with
  | case1 => exact List.Pairwise.nil
  | case2 position a rest m hm ih =>
      exact List.pairwise_cons.2 ⟨fun s hs => le_start_of_mem_regions hs, ih⟩
  | case3 position a rest hm ih => exact ih
  | case4 position a rest hm ih => exact ih

/-! ## The region around an offset -/

/-- A region contains the offsets between its ends, and these. -/
theorem contains_iff {r : Region} {offset : Nat} :
    r.contains offset = true ↔ r.start ≤ offset ∧ offset ≤ r.stop := by
  rw [contains, Bool.and_eq_true, decide_eq_true_iff, decide_eq_true_iff]

/-- No region that the walk still meets contains an offset that lies behind it. -/
theorem find?_regions_of_lt {offset position : Nat} (h : offset < position) (as : List Atom) :
    (regions accepts position as).find? (·.contains offset) = none := by
  rw [List.find?_eq_none]
  intro r hr hc
  have := le_start_of_mem_regions hr
  have := (contains_iff.1 hc).1
  omega

/-- **What a search finds.** The search for an offset finds the first of the regions of the
document that contains it. -/
theorem toOption_findContaining (offset position : Nat) (as : List Atom) :
    (findContaining accepts false offset position as).toOption =
      (regions accepts position as).find? (·.contains offset) := by
  fun_induction regions accepts position as with
  | case1 position => rw [findContaining]; rfl
  | case2 position a rest m hm ih =>
      by_cases hp : offset < position
      · -- the search has given up, and the walk meets nothing that could contain the offset
        rw [findContaining_of_lt hp, ← regions_of_found hm, find?_regions_of_lt hp]
        rfl
      · rw [findContaining_of_found (Nat.le_of_not_lt hp) hm, List.find?_cons]
        by_cases ho : offset ≤ (m.region position).stop
        · have hc : (m.region position).contains offset = true :=
            contains_iff.2 ⟨Nat.le_of_not_lt hp, ho⟩
          rw [if_pos ho, hc]
          rfl
        · have hc : (m.region position).contains offset = false :=
            Bool.eq_false_iff.2 fun hc => ho (contains_iff.1 hc).2
          rw [if_neg ho, hc]
          exact ih
  | case3 position a rest hm ih =>
      by_cases hp : offset < position
      · rw [findContaining_of_lt hp, find?_regions_of_lt (Nat.lt_add_right _ hp)]
        rfl
      · rw [findContaining_of_absent (Nat.le_of_not_lt hp) hm]
        exact ih
  | case4 position a rest hm => exact absurd hm (matchHead_whole_ne_inconclusive _)

/-! ## Regions in order -/

variable {rs : List Region}

/-- **Where two regions meet.** In a list of regions in order, the first region that contains an
offset is the one that contains it, if no other region ends there. -/
theorem find?_contains_eq_some_iff (hrs : rs.Pairwise fun r s => r.stop ≤ s.start)
    {region : Region} {offset : Nat} :
    rs.find? (·.contains offset) = some region ↔
      region ∈ rs ∧ region.contains offset = true ∧
        ∀ e ∈ rs, e.stop = offset → e = region := by
  induction rs with
  | nil => simp
  | cons s rs ih =>
      obtain ⟨hs, hrs⟩ := List.pairwise_cons.1 hrs
      have hlt := s.start_lt_stop
      rw [List.find?_cons]
      by_cases hc : s.contains offset = true
      · have hin := contains_iff.1 hc
        rw [hc]
        constructor
        · rintro ⟨⟩
          refine ⟨List.mem_cons_self, hc, ?_⟩
          intro e he hstop
          rcases List.mem_cons.1 he with rfl | he
          · rfl
          · -- a later region starts where `s` ends or behind it, so it cannot end in `s`
            have := hs e he
            have := e.start_lt_stop
            omega
        · rintro ⟨hmem, hregion, hend⟩
          rcases List.mem_cons.1 hmem with rfl | hmem
          · rfl
          · have := hs region hmem
            have := contains_iff.1 hregion
            rw [hend s List.mem_cons_self (by omega)]
      · rw [Bool.eq_false_iff.2 hc, ih hrs]
        rw [contains_iff] at hc
        constructor
        · rintro ⟨hmem, hregion, hend⟩
          refine ⟨List.mem_cons_of_mem s hmem, hregion, ?_⟩
          intro e he hstop
          rcases List.mem_cons.1 he with rfl | he
          · omega
          · exact hend e he hstop
        · rintro ⟨hmem, hregion, hend⟩
          refine ⟨?_, hregion, fun e he => hend e (List.mem_cons_of_mem s he)⟩
          rcases List.mem_cons.1 hmem with rfl | hmem
          · exact absurd (contains_iff.1 hregion) hc
          · exact hmem

/-- Two regions of a list in order are the same, or one ends before the other starts. -/
theorem eq_or_stop_le_of_mem (hrs : rs.Pairwise fun r s => r.stop ≤ s.start)
    {a b : Region} (ha : a ∈ rs) (hb : b ∈ rs) :
    a = b ∨ a.stop ≤ b.start ∨ b.stop ≤ a.start := by
  have hsymm : Std.Symm fun a b : Region => a.stop ≤ b.start ∨ b.stop ≤ a.start :=
    ⟨fun _ _ => Or.symm⟩
  have hpair : rs.Pairwise fun a b => a.stop ≤ b.start ∨ b.stop ≤ a.start := hrs.imp Or.inl
  by_cases h : a = b
  · exact .inl h
  · exact .inr (hpair.forall ha hb h)

/-- In a list of regions in order, a region is the first that contains an offset behind its
start. -/
theorem find?_of_mem_of_lt (hrs : rs.Pairwise fun r s => r.stop ≤ s.start) {r : Region}
    (h : r ∈ rs) {offset : Nat} (hstart : r.start < offset) (hstop : offset ≤ r.stop) :
    rs.find? (·.contains offset) = some r := by
  rw [find?_contains_eq_some_iff hrs, contains_iff]
  refine ⟨h, ⟨Nat.le_of_lt hstart, hstop⟩, ?_⟩
  intro e he hend
  -- a region that ends inside of this one overlaps with it
  have hlt := e.start_lt_stop
  rcases eq_or_stop_le_of_mem hrs he h with heq | hle | hle
  · exact heq
  · omega
  · omega

/-- In a list of regions in order, a region is the first that contains its end. -/
theorem find?_stop_of_mem (hrs : rs.Pairwise fun r s => r.stop ≤ s.start)
    {r : Region} (h : r ∈ rs) : rs.find? (·.contains r.stop) = some r :=
  find?_of_mem_of_lt hrs h r.start_lt_stop (Nat.le_refl _)

/-! ## Regions on one side of a place -/

/-- Of two runs of atoms at the front of a document the one that takes up less room comes first. -/
theorem exists_append_of_width_le {front as bs rest : List Atom} (h : as ++ bs = front ++ rest)
    (hw : Text.width (Atom.join front) ≤ Text.width (Atom.join as)) :
    ∃ mid, as = front ++ mid ∧ rest = mid ++ bs := by
  rcases List.append_eq_append_iff.1 h with ⟨mid, rfl, rfl⟩ | ⟨mid, rfl, rfl⟩
  · -- the front reaches past `as`, so there is room for no atom between them
    cases mid with
    | nil => exact ⟨[], by simp, rfl⟩
    | cons a mid =>
        have := a.width_pos
        simp only [Atom.join_append, Atom.join_cons, Text.width, Text.measure_append] at hw
        simp only [Atom.width, Text.width] at this
        omega
  · exact ⟨mid, rfl, rfl⟩

/-- Whether the walk along some atoms and `bs` behind them comes by the place between the two. -/
inductive ComesBy (accepts : Text → Bool) (bs : List Atom) : List Atom → Prop where
  | here : ComesBy accepts bs []
  | absent {a : Atom} {as : List Atom} (hm : matchHead accepts false (a :: as ++ bs) = .absent)
      (h : ComesBy accepts bs as) : ComesBy accepts bs (a :: as)
  | found {front as : List Atom} {m : Match}
      (hm : matchHead accepts false (front ++ (as ++ bs)) = .found m) (hrest : m.rest = as ++ bs)
      (h : ComesBy accepts bs as) : ComesBy accepts bs (front ++ as)

/-- The walk comes by every place that no region crosses. -/
theorem comesBy_of_not_cross {position : Nat} {as bs : List Atom}
    (h : ∀ r ∈ regions accepts position (as ++ bs),
      ¬ (r.start < position + Text.width (Atom.join as) ∧
        position + Text.width (Atom.join as) < r.stop)) : ComesBy accepts bs as := by
  generalize hcs : as ++ bs = cs at h
  fun_induction regions accepts position cs generalizing as with
  | case1 position =>
      obtain ⟨rfl, rfl⟩ := List.append_eq_nil_iff.1 hcs
      exact .here
  | case2 position a rest m hm ih =>
      cases as with
      | nil => exact .here
      | cons b as =>
          obtain ⟨front, hf, htext⟩ := append_of_matchHead hm position
          have hstop : (m.region position).stop = position + Text.width (Atom.join front) := by
            rw [htext]
            rfl
          -- the region starts before the place, so it ends there at the latest
          have hle : Text.width (Atom.join front) ≤ Text.width (Atom.join (b :: as)) := by
            have hcross := h _ List.mem_cons_self
            have hpos := b.width_pos
            simp only [Atom.join_cons, Text.width, Text.measure_append, Atom.width] at *
            simp only [Match.region] at hcross hstop
            omega
          obtain ⟨mid, hmid, hrest⟩ := exists_append_of_width_le (hcs.trans hf) hle
          have hwidth : (m.region position).stop + Text.width (Atom.join mid) =
              position + Text.width (Atom.join (b :: as)) := by
            rw [hstop, hmid, Atom.join_append, Text.width_append, Nat.add_assoc]
          rw [hmid]
          refine .found (m := m) ?_ hrest (ih hrest.symm fun r hr => ?_)
          · rw [← hrest, ← hf, hm]
          · rw [hwidth]
            exact h r (List.mem_cons_of_mem _ hr)
  | case3 position a rest hm ih =>
      cases as with
      | nil => exact .here
      | cons b as =>
          obtain ⟨rfl, hrest⟩ := List.cons.inj hcs
          have hwidth : position + b.width + Text.width (Atom.join as) =
              position + Text.width (Atom.join (b :: as)) := by
            rw [Atom.join_cons, Text.width_append, Atom.width, Nat.add_assoc]
          rw [← hrest] at hm
          exact .absent hm (ih hrest fun r hr => by rw [hwidth]; exact h r hr)
  | case4 position a rest hm => exact absurd hm (matchHead_whole_ne_inconclusive _)

/-- A walk that comes by a place meets some regions that end before it and then those behind it. -/
theorem ComesBy.regions_append {as bs : List Atom} (h : ComesBy accepts bs as) (position : Nat) :
    ∃ before, regions accepts position (as ++ bs) =
        before ++ regions accepts (position + Text.width (Atom.join as)) bs ∧
      ∀ r ∈ before, r.stop ≤ position + Text.width (Atom.join as) := by
  induction h generalizing position with
  | here => exact ⟨[], rfl, by simp⟩
  | @absent a as hm _ ih =>
      have hwidth : position + a.width + Text.width (Atom.join as) =
          position + Text.width (Atom.join (a :: as)) := by
        rw [Atom.join_cons, Text.width_append, Atom.width, Nat.add_assoc]
      obtain ⟨before, hbefore, hle⟩ := ih (position + a.width)
      rw [hwidth] at hbefore hle
      rw [List.cons_append] at hm ⊢
      exact ⟨before, by rw [regions_of_absent hm, hbefore], hle⟩
  | @found front as m hm hrest _ ih =>
      obtain ⟨front', hf, htext⟩ := append_of_matchHead hm position
      rw [hrest, List.append_cancel_right_eq] at hf
      subst hf
      have hwidth : (m.region position).stop + Text.width (Atom.join as) =
          position + Text.width (Atom.join (front ++ as)) := by
        rw [Atom.join_append, Text.width_append, htext, stop, Nat.add_assoc]
        rfl
      obtain ⟨before, hbefore, hle⟩ := ih (m.region position).stop
      rw [hwidth] at hbefore hle
      -- a match takes an atom at least, so the list is a cons
      obtain ⟨a, cs, hcons⟩ : ∃ a cs, front ++ (as ++ bs) = a :: cs := by
        apply List.exists_cons_of_ne_nil
        intro hnil
        have := length_of_matchHead hm
        simp [hnil] at this
      refine ⟨m.region position :: before, ?_, ?_⟩
      · rw [hcons] at hm
        rw [List.append_assoc, hcons, regions_of_found hm, hrest, hbefore]
        rfl
      · intro r hr
        rcases List.mem_cons.1 hr with rfl | hr
        · omega
        · exact hle r hr

/-- **Regions past a place.** Where no region crosses the place between two runs of atoms, the
regions are some that end before it and then those of the second run. -/
theorem regions_append {position : Nat} {as bs : List Atom}
    (h : ∀ r ∈ regions accepts position (as ++ bs),
      ¬ (r.start < position + Text.width (Atom.join as) ∧
        position + Text.width (Atom.join as) < r.stop)) :
    ∃ before, regions accepts position (as ++ bs) =
        before ++ regions accepts (position + Text.width (Atom.join as)) bs ∧
      ∀ r ∈ before, r.stop ≤ position + Text.width (Atom.join as) :=
  (comesBy_of_not_cross h).regions_append position

end MathEdit.Region
