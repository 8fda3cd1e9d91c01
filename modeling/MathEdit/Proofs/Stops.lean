import Mathlib.Data.List.Induction
import Mathlib.Data.List.Pairwise
import Mathlib.Data.Nat.Basic
import MathEdit.Proofs.Region.Located
import MathEdit.Session

/-! # Moving along the stops

Every step along the stops of a document looks for the math around an offset anew. Without a window
it finds the same region as long as the offset is behind the start of the region, so a walk forward
never leaves the region that it starts in. At the start of a region another one may end, and then a
step forward from there looks at that one.

* **`nextStop?_eq_some_iff`**, **`previousStop?_eq_some_iff`**: the neighbours of an offset in an
  ascending list of stops.
* **`Session.nextStop?_eq`**, **`Session.previousStop?_eq`**: a step in the offsets of the document.
* **`Session.stopsAfter_eq_filter`**: a walk forward visits the later stops of its region.
* **`Session.steps_undone`**: which steps a step the other way undoes. -/

namespace MathEdit

/-! ## Ascending lists -/

namespace Ascending

variable {x : Nat} {xs : List Nat}

/-- An ascending list starts with its least member. -/
theorem head?_eq_some (h : xs.Pairwise (· < ·)) (hx : x ∈ xs) (hleast : ∀ y ∈ xs, x ≤ y) :
    xs.head? = some x := by
  cases xs with
  | nil => cases hx
  | cons y ys =>
      rcases List.mem_cons.1 hx with rfl | hx
      · rfl
      · have hlt := (List.pairwise_cons.1 h).1 x hx
        have hle := hleast y List.mem_cons_self
        omega

/-- An ascending list ends with its greatest member. -/
theorem getLast?_eq_some (h : xs.Pairwise (· < ·)) (hx : x ∈ xs) (hgreatest : ∀ y ∈ xs, y ≤ x) :
    xs.getLast? = some x := by
  obtain ⟨front, back, rfl⟩ := List.append_of_mem hx
  cases back with
  | nil => exact List.getLast?_concat
  | cons y back =>
      -- nothing lies behind the greatest member
      have hlt := (List.pairwise_cons.1 (List.pairwise_append.1 h).2.1).1 y List.mem_cons_self
      have hle := hgreatest y (by simp)
      omega

end Ascending

/-! ## Neighbours in a list of stops -/

section

variable {stops : List Nat} {p q : Nat}

/-- The next stop is the least one behind an offset. -/
theorem nextStop?_eq_some_iff (h : stops.Pairwise (· < ·)) :
    nextStop? stops p = some q ↔ q ∈ stops ∧ p < q ∧ ∀ x ∈ stops, p < x → q ≤ x := by
  induction stops with
  | nil => simp [nextStop?]
  | cons x xs ih =>
      obtain ⟨hx, hxs⟩ := List.pairwise_cons.1 h
      rw [nextStop?, List.find?_cons]
      by_cases hp : p < x
      · simp only [decide_eq_true hp]
        constructor
        · rintro ⟨⟩
          refine ⟨List.mem_cons_self, hp, List.forall_mem_cons.2 ⟨fun _ => Nat.le_refl _, ?_⟩⟩
          exact fun y hy _ => Nat.le_of_lt (hx y hy)
        · rintro ⟨hq, -, hleast⟩
          rcases List.mem_cons.1 hq with rfl | hq
          · rfl
          · have := hx q hq
            have := hleast x List.mem_cons_self hp
            omega
      · simp only [decide_eq_false hp]
        rw [← nextStop?, ih hxs, List.mem_cons, List.forall_mem_cons]
        constructor
        · rintro ⟨hq, hlt, hleast⟩
          exact ⟨.inr hq, hlt, fun hpx => absurd hpx hp, hleast⟩
        · rintro ⟨rfl | hq, hlt, -, hleast⟩
          · exact absurd hlt hp
          · exact ⟨hq, hlt, hleast⟩

/-- The previous stop is the greatest one before an offset. -/
theorem previousStop?_eq_some_iff (h : stops.Pairwise (· < ·)) :
    previousStop? stops p = some q ↔ q ∈ stops ∧ q < p ∧ ∀ x ∈ stops, x < p → x ≤ q := by
  induction stops using List.reverseRecOn with
  | nil => simp [previousStop?]
  | append_singleton xs x ih =>
      obtain ⟨hxs, -, hx⟩ := List.pairwise_append.1 h
      replace hx : ∀ y ∈ xs, y < x := fun y hy => hx y hy x (List.mem_singleton_self x)
      rw [previousStop?, List.reverse_concat, List.find?_cons]
      by_cases hp : x < p
      · simp only [decide_eq_true hp]
        constructor
        · rintro ⟨⟩
          refine ⟨by simp, hp, ?_⟩
          intro y hy _
          rcases List.mem_append.1 hy with hy | hy
          · exact Nat.le_of_lt (hx y hy)
          · exact Nat.le_of_eq (List.mem_singleton.1 hy)
        · rintro ⟨hq, -, hgreatest⟩
          rcases List.mem_append.1 hq with hq | hq
          · have := hx q hq
            have := hgreatest x (by simp) hp
            omega
          · rw [List.mem_singleton.1 hq]
      · simp only [decide_eq_false hp]
        rw [← previousStop?, ih hxs]
        constructor
        · rintro ⟨hq, hlt, hgreatest⟩
          refine ⟨List.mem_append_left _ hq, hlt, ?_⟩
          intro y hy hyp
          rcases List.mem_append.1 hy with hy | hy
          · exact hgreatest y hy hyp
          · exact absurd (List.mem_singleton.1 hy ▸ hyp) hp
        · rintro ⟨hq, hlt, hgreatest⟩
          refine ⟨?_, hlt, fun y hy => hgreatest y (List.mem_append_left _ hy)⟩
          rcases List.mem_append.1 hq with hq | hq
          · exact hq
          · exact absurd (List.mem_singleton.1 hq ▸ hlt) hp

/-- A step back undoes a step forward from a stop. -/
theorem previousStop?_of_nextStop? (h : stops.Pairwise (· < ·)) (hp : p ∈ stops)
    (hnext : nextStop? stops p = some q) : previousStop? stops q = some p := by
  obtain ⟨-, hlt, hleast⟩ := (nextStop?_eq_some_iff h).1 hnext
  rw [previousStop?_eq_some_iff h]
  refine ⟨hp, hlt, fun x hx hxq => ?_⟩
  by_contra hpx
  have := hleast x hx (Nat.lt_of_not_le hpx)
  omega

/-- A step forward undoes a step back from a stop. -/
theorem nextStop?_of_previousStop? (h : stops.Pairwise (· < ·)) (hp : p ∈ stops)
    (hprevious : previousStop? stops p = some q) : nextStop? stops q = some p := by
  obtain ⟨-, hlt, hgreatest⟩ := (previousStop?_eq_some_iff h).1 hprevious
  rw [nextStop?_eq_some_iff h]
  refine ⟨hp, hlt, fun x hx hqx => ?_⟩
  by_contra hxp
  have := hgreatest x hx (Nat.lt_of_not_le hxp)
  omega

/-- The stops behind an offset are the next one and those behind it. -/
theorem filter_lt_eq (h : stops.Pairwise (· < ·)) (p : Nat) :
    stops.filter (p < ·) =
      match nextStop? stops p with
      | some q => q :: stops.filter (q < ·)
      | none => [] := by
  induction stops with
  | nil => rfl
  | cons x xs ih =>
      obtain ⟨hx, hxs⟩ := List.pairwise_cons.1 h
      have hall : xs.filter (x < ·) = xs := List.filter_eq_self.2 (by simpa using hx)
      by_cases hp : p < x
      · have hbehind : xs.filter (p < ·) = xs :=
          List.filter_eq_self.2 fun y hy => by simpa using Nat.lt_trans hp (hx y hy)
        simp [nextStop?, hp, hall, hbehind]
      · have hnext : nextStop? (x :: xs) p = nextStop? xs p :=
          List.find?_cons_of_neg (by simpa using hp)
        rw [List.filter_cons_of_neg (by simpa using hp), ih hxs, hnext]
        cases hq : nextStop? xs p with
        | none => rfl
        | some q =>
            -- the next stop is one of the others, so the first one does not lie behind it
            have hqx := hx q (List.mem_of_find?_eq_some hq)
            dsimp only
            rw [List.filter_cons_of_neg (by simpa using Nat.le_of_lt hqx)]

end

/-! ## The stops of a region -/

/-- The stops of a text are in ascending order. -/
theorem pairwise_stops (t : Text) : (stops t).Pairwise (· < ·) := Ascending.pairwise_ofList _

namespace Region

variable {region : Region} {offset p q : Nat}

/-- The stops of a region in the offsets of the document. -/
def absoluteStops (region : Region) : List Nat := (stops region.text).map region.toAbsolute

/-- The stops of a region are in ascending order in the document too. -/
theorem pairwise_absoluteStops (region : Region) : region.absoluteStops.Pairwise (· < ·) :=
  (pairwise_stops region.text).map _ fun _ _ h => Nat.add_lt_add_left h region.start

/-- The stops of a region lie in the region. -/
theorem bounds_of_mem_absoluteStops (h : p ∈ region.absoluteStops) :
    region.start ≤ p ∧ p ≤ region.stop := by
  obtain ⟨x, hx, rfl⟩ := List.mem_map.1 h
  exact ⟨Nat.le_add_right _ _, Nat.add_le_add_left (le_of_mem_stops hx) region.start⟩

/-- A region ends with a stop. -/
theorem stop_mem_absoluteStops (region : Region) : region.stop ∈ region.absoluteStops :=
  List.mem_map.2 ⟨Text.width region.text, by simp [stops], rfl⟩

/-- The stops of a region are some stops before its end, and its end. -/
theorem absoluteStops_eq_append (region : Region) :
    ∃ front, region.absoluteStops = front ++ [region.stop] := by
  refine List.getLast?_eq_some_iff.1 ?_
  exact Ascending.getLast?_eq_some region.pairwise_absoluteStops region.stop_mem_absoluteStops
    fun _ hx => (bounds_of_mem_absoluteStops hx).2

/-- There is no stop behind the end of a region. -/
theorem nextStop?_stop (region : Region) : nextStop? region.absoluteStops region.stop = none := by
  rw [nextStop?, List.find?_eq_none]
  intro x hx
  simpa using (bounds_of_mem_absoluteStops hx).2

/-- The next stop is looked for in the offsets of the region. -/
theorem nextStop?_absoluteStops (h : region.start ≤ offset) :
    nextStop? region.absoluteStops offset =
      (nextStop? (stops region.text) (offset - region.start)).map region.toAbsolute := by
  have hlt : (fun x => decide (offset < x)) ∘ region.toAbsolute =
      fun x => decide (offset - region.start < x) := by
    funext x
    rw [Function.comp_apply, toAbsolute, decide_eq_decide]
    omega
  rw [nextStop?, absoluteStops, List.find?_map, hlt, nextStop?]

/-- The previous stop is looked for in the offsets of the region. -/
theorem previousStop?_absoluteStops (h : region.start ≤ offset) :
    previousStop? region.absoluteStops offset =
      (previousStop? (stops region.text) (offset - region.start)).map region.toAbsolute := by
  have hlt : (fun x => decide (x < offset)) ∘ region.toAbsolute =
      fun x => decide (x < offset - region.start) := by
    funext x
    rw [Function.comp_apply, toAbsolute, decide_eq_decide]
    omega
  rw [previousStop?, absoluteStops, ← List.map_reverse, List.find?_map, hlt, previousStop?]

end Region

/-! ## Steps in a document -/

namespace Session

open Region (absoluteStops)

variable {s : Session} {t : Text} {region : Region} {offset p q : Nat}

/-- Whether a session looks for math in the whole of a document at once. -/
def Unwindowed (s : Session) (t : Text) : Prop :=
  s.config.recognition.window = 0 ∨ Text.width t ≤ 2 * s.config.recognition.window

instance decidableUnwindowed (s : Session) (t : Text) : Decidable (s.Unwindowed t) :=
  inferInstanceAs (Decidable (_ ∨ _))

/-- An offset in the region around it. -/
theorem toLocal?_of_locate? (h : s.locate? t offset = some region) :
    region.start ≤ offset ∧ region.toLocal? offset = some (offset - region.start) := by
  obtain ⟨-, hstart, hstop⟩ := Region.sound_of_locate? h
  exact ⟨hstart, if_pos (Region.contains_iff.2 ⟨hstart, hstop⟩)⟩

/-- A step forward goes to the next stop of the region around the offset. -/
theorem nextStop?_eq (h : s.locate? t offset = some region) :
    s.nextStop? t offset = MathEdit.nextStop? region.absoluteStops offset := by
  obtain ⟨hstart, hlocal⟩ := toLocal?_of_locate? h
  rw [Region.nextStop?_absoluteStops hstart, Option.map_eq_bind]
  simp only [nextStop?, h, hlocal, Option.bind_eq_bind, Option.bind_some]
  rfl

/-- A step back goes to the previous stop of the region around the offset. -/
theorem previousStop?_eq (h : s.locate? t offset = some region) :
    s.previousStop? t offset = MathEdit.previousStop? region.absoluteStops offset := by
  obtain ⟨hstart, hlocal⟩ := toLocal?_of_locate? h
  rw [Region.previousStop?_absoluteStops hstart, Option.map_eq_bind]
  simp only [previousStop?, h, hlocal, Option.bind_eq_bind, Option.bind_some]
  rfl

/-! ## Walks in a document without a window -/

/-- No step forward leaves the region around the offset. -/
theorem locate?_of_nextStop? (hw : Unwindowed s t) (h : s.locate? t offset = some region)
    (hnext : s.nextStop? t offset = some q) : s.locate? t q = some region := by
  obtain ⟨-, hstart, -⟩ := Region.sound_of_locate? h
  rw [nextStop?_eq h, nextStop?_eq_some_iff region.pairwise_absoluteStops] at hnext
  obtain ⟨hq, hlt, -⟩ := hnext
  have hstop := (Region.bounds_of_mem_absoluteStops hq).2
  exact Region.locate?_of_mem_regions hw ((Region.located_iff_mem_regions hw).1 ⟨offset, h⟩)
    (Nat.lt_of_le_of_lt hstart hlt) hstop

/-- A walk goes from each offset to the next stop, as long as there is one. -/
theorem isChain_stopsAfter (s : Session) (t : Text) (offset : Nat) :
    (offset :: s.stopsAfter t offset).IsChain (fun a b => s.nextStop? t a = some b) ∧
      ∀ last ∈ (offset :: s.stopsAfter t offset).getLast?, s.nextStop? t last = none := by
  fun_induction stopsAfter s t offset with
  | case1 offset next hnext ih =>
      exact ⟨List.IsChain.cons_cons hnext ih.1, by simpa using ih.2⟩
  | case2 offset hnone => exact ⟨List.IsChain.singleton offset, by simpa using hnone⟩

/-- In a region a walk visits the stops of the region behind the offset. -/
theorem stopsAfter_of_locate? (hw : Unwindowed s t) (h : s.locate? t offset = some region) :
    s.stopsAfter t offset = region.absoluteStops.filter (offset < ·) := by
  fun_induction stopsAfter s t offset with
  | case1 offset next hnext ih =>
      have hstep := nextStop?_eq h
      rw [filter_lt_eq region.pairwise_absoluteStops, ← hstep, hnext,
        ih (locate?_of_nextStop? hw h hnext)]
  | case2 offset hnone =>
      have hstep := nextStop?_eq h
      rw [filter_lt_eq region.pairwise_absoluteStops, ← hstep, hnone]

/-- Outside of math a walk goes nowhere. -/
theorem stopsAfter_of_locate?_eq_none (h : s.locate? t offset = none) :
    s.stopsAfter t offset = [] := by
  have hnone : s.nextStop? t offset = none := by
    rw [nextStop?, h]
    rfl
  rw [stopsAfter]
  split <;> simp_all

/-- **Walking forward.** Without a window a walk goes from stop to stop and ends where there is no
next one. It visits the stops of the region around the offset that lie behind the offset, in order
and each once, up to the end of the region, and outside of math it goes nowhere. -/
theorem stopsAfter_eq_filter (hw : Unwindowed s t) (offset : Nat) :
    ((offset :: s.stopsAfter t offset).IsChain (fun a b => s.nextStop? t a = some b) ∧
      ∀ last ∈ (offset :: s.stopsAfter t offset).getLast?, s.nextStop? t last = none) ∧
    (∀ region, s.locate? t offset = some region →
      s.stopsAfter t offset = region.absoluteStops.filter (offset < ·) ∧
      (s.stopsAfter t offset).Pairwise (· < ·) ∧
      (offset < region.stop → (s.stopsAfter t offset).getLast? = some region.stop)) ∧
    (s.locate? t offset = none → s.stopsAfter t offset = []) := by
  refine ⟨isChain_stopsAfter s t offset, ?_, stopsAfter_of_locate?_eq_none⟩
  intro region h
  rw [stopsAfter_of_locate? hw h]
  refine ⟨rfl, region.pairwise_absoluteStops.filter _, fun hlt => ?_⟩
  -- the end of the region is the greatest of its stops
  obtain ⟨front, hfront⟩ := region.absoluteStops_eq_append
  rw [hfront, List.filter_append, List.filter_singleton]
  simp [hlt]

/-- A walk from inside of a character ends with its region, where another one starts. -/
theorem stopsAfter_eq_filter_where_regions_meet :
    Unwindowed (.new .standard) "$é^2$$b$".toList ∧
      (Session.new .standard).stopsAfter "$é^2$$b$".toList 2 = [4, 5, 6] ∧
      (Session.new .standard).stopsAfter "$é^2$$b$".toList 6 = [] := by
  have hw : Unwindowed (.new .standard) "$é^2$$b$".toList := by decide +kernel
  have hlocate : (Session.new .standard).locate? "$é^2$$b$".toList 2 =
      some ⟨0, .inlineDollar, "é^2".toList⟩ := by decide +kernel
  have hend : (Session.new .standard).locate? "$é^2$$b$".toList 6 =
      some ⟨0, .inlineDollar, "é^2".toList⟩ := by decide +kernel
  have hstops : Region.absoluteStops ⟨0, .inlineDollar, "é^2".toList⟩ = [0, 1, 4, 5, 6] := by
    decide +kernel
  rw [((stopsAfter_eq_filter hw 2).2.1 _ hlocate).1, ((stopsAfter_eq_filter hw 6).2.1 _ hend).1,
    hstops]
  exact ⟨hw, by decide, by decide⟩

/-- **Steps back and forth.** Without a window a step back undoes a step forward from a stop. A step
forward undoes a step back from a stop unless it starts where another region ends, and then it goes
nowhere. -/
theorem steps_undone (hw : Unwindowed s t) (hl : s.locate? t p = some region)
    (hp : p ∈ region.absoluteStops) :
    (∀ q, s.nextStop? t p = some q → s.previousStop? t q = some p) ∧
    ∀ q, s.previousStop? t p = some q →
      ((∀ e, Region.Located s.config.recognition t e → e.stop ≠ q) →
        s.nextStop? t q = some p) ∧
      ∀ e, Region.Located s.config.recognition t e → e.stop = q →
        q = region.start ∧ s.nextStop? t q = none := by
  have hmem := (Region.located_iff_mem_regions hw).1 ⟨p, hl⟩
  have hrs : (Region.regions s.config.recognition.accepts 0 (atoms t)).Pairwise
      fun a b => a.stop ≤ b.start := Region.pairwise_regions 0 (atoms t)
  constructor
  · intro q hnext
    rw [previousStop?_eq (locate?_of_nextStop? hw hl hnext)]
    rw [nextStop?_eq hl] at hnext
    exact previousStop?_of_nextStop? region.pairwise_absoluteStops hp hnext
  · intro q hprevious
    rw [previousStop?_eq hl] at hprevious
    obtain ⟨hq, hlt, -⟩ := (previousStop?_eq_some_iff region.pairwise_absoluteStops).1 hprevious
    have hstart := (Region.bounds_of_mem_absoluteStops hq).1
    have hstop := (Region.bounds_of_mem_absoluteStops hp).2
    constructor
    · intro hfree
      have hlocate : s.locate? t q = some region := by
        rw [locate?, Region.locate?_of_unwindowed hw, Region.find?_contains_eq_some_iff hrs,
          Region.contains_iff]
        refine ⟨hmem, ⟨hstart, by omega⟩, fun e he hend => ?_⟩
        exact absurd hend (hfree e ((Region.located_iff_mem_regions hw).2 he))
      rw [nextStop?_eq hlocate]
      exact nextStop?_of_previousStop? region.pairwise_absoluteStops hp hprevious
    · intro e he hend
      have hin := (Region.located_iff_mem_regions hw).1 he
      have hpos := e.start_lt_stop
      have hlocate : s.locate? t e.stop = some e :=
        Region.locate?_of_mem_regions hw hin hpos (Nat.le_refl _)
      rw [← hend, nextStop?_eq hlocate, e.nextStop?_stop]
      refine ⟨?_, rfl⟩
      -- the other region ends before this one starts
      rcases Region.eq_or_stop_le_of_mem hrs hin hmem with rfl | hle | hle
      · omega
      · omega
      · omega

/-- In the second of two regions that meet, steps to and from its first stop and its last one. -/
theorem steps_undone_in_second_region :
    Unwindowed (.new .standard) "$a$$b$".toList ∧
      (Session.new .standard).previousStop? "$a$$b$".toList 5 = some 4 ∧
      (Session.new .standard).nextStop? "$a$$b$".toList 3 = none ∧
      (Session.new .standard).nextStop? "$a$$b$".toList 5 = some 6 := by
  have hw : Unwindowed (.new .standard) "$a$$b$".toList := by decide +kernel
  have hfirst : (Session.new .standard).locate? "$a$$b$".toList 3 =
      some ⟨0, .inlineDollar, ['a']⟩ := by decide +kernel
  have hfour : (Session.new .standard).locate? "$a$$b$".toList 4 =
      some ⟨3, .inlineDollar, ['b']⟩ := by decide +kernel
  have hsix : (Session.new .standard).locate? "$a$$b$".toList 6 =
      some ⟨3, .inlineDollar, ['b']⟩ := by decide +kernel
  have hstops : Region.absoluteStops ⟨3, .inlineDollar, ['b']⟩ = [3, 4, 5, 6] := by decide +kernel
  have hfront := steps_undone hw hfour (by simp [hstops])
  have hback := steps_undone hw hsix (by simp [hstops])
  refine ⟨hw, hfront.1 5 (by decide +kernel), ?_, ?_⟩
  · exact ((hfront.2 3 (by decide +kernel)).2 _ ⟨3, hfirst⟩ (by decide +kernel)).2
  · refine (hback.2 5 (by decide +kernel)).1 fun e he hend => ?_
    -- no region ends inside of the second one
    have hmem := (Region.located_iff_mem_regions hw).1 he
    have hsecond := (Region.located_iff_mem_regions hw).1 ⟨6, hsix⟩
    have hstop : Region.stop ⟨3, .inlineDollar, ['b']⟩ = 6 := by decide +kernel
    have hpos := e.start_lt_stop
    rcases Region.eq_or_stop_le_of_mem (Region.pairwise_regions 0 _) hmem hsecond with
      rfl | hle | hle
    · omega
    · dsimp only at hle
      omega
    · omega

/-- Where two regions meet a step back comes to the start of the second one, and a step forward from
there would have to leave the first one. -/
theorem nextStop?_eq_none_where_regions_meet :
    Unwindowed (.new .standard) "$a$$b$".toList ∧
      (Session.new .standard).locate? "$a$$b$".toList 4 = some ⟨3, .inlineDollar, ['b']⟩ ∧
      4 ∈ Region.absoluteStops ⟨3, .inlineDollar, ['b']⟩ ∧
      (Session.new .standard).previousStop? "$a$$b$".toList 4 = some 3 ∧
      (Session.new .standard).nextStop? "$a$$b$".toList 3 = none := by
  decide +kernel

end Session

end MathEdit
