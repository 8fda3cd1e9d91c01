import MathEdit.Proofs.Region.Windows
import MathEdit.Proofs.Text.Cuts

/-! # Searches up to a limit

A search may start at any offset of a document and be told to look at nothing behind another one,
its limit. It is then never wrong, only inconclusive: it may say that the document goes on, but what
it does answer is the answer of the search that sees the whole document.

* **`Window.between`**: what a search from an offset up to a limit sees.
* **`lookAt`**: a look at one offset that sees nothing behind a limit.
* **`conclusive_up_to_limit`**: what is found, and what a conclusive look says, holds without the
  limit.
* **`search_of_around?`**: so it is with the window around an offset, whose end is a limit. -/

namespace MathEdit

/-- What a search has found, put through a function. -/
def Search.map {α β : Type} (f : α → β) : Search α → Search β
  | found result => .found (f result)
  | absent => .absent
  | inconclusive => .inconclusive

namespace Region

/-- What a search sees that starts at an offset of a document and looks at nothing behind the limit,
a boundary. From inside of a character it starts at the next one. -/
def Window.between (start limit : Nat) (t : Text) : Window :=
  let piece := Text.takeBytes limit t
  let front := Text.takeBytesUp start piece
  ⟨Text.width front, piece.drop front.length, limit < Text.width t⟩

/-- What a look at an offset of a document says if it sees nothing behind the limit. Nothing starts
inside of a character. -/
def lookAt (accepts : Text → Bool) (t : Text) (limit offset : Nat) : Search Region :=
  match Text.slice? offset limit t with
  | some piece =>
      (matchHead accepts (limit < Text.width t) (atoms piece)).map fun m => m.region offset
  | none => .absent

/-! ## Windows -/

/-- What is seen behind a boundary up to another one. -/
theorem between_width_append (s t u : Text) :
    Window.between (Text.width s) (Text.width (s ++ t)) (s ++ t ++ u) =
      ⟨Text.width s, t, Text.width (s ++ t) < Text.width (s ++ t ++ u)⟩ := by
  rw [Window.between, Text.takeBytes_width_append, Text.takeBytesUp_width_append, List.drop_left]

/-- The whole document is seen from its start up to its end. -/
theorem whole_eq_between (t : Text) : Window.whole t = Window.between 0 (Text.width t) t := by
  have h := between_width_append [] t []
  rw [List.append_nil, List.nil_append] at h
  rw [← Text.measure_nil Char.utf8Size, h, Window.whole, decide_eq_false (Nat.lt_irrefl _)]
  rfl

/-- The window around an offset is what is seen from its start up to some limit, a boundary. -/
theorem exists_eq_between_of_around? {size offset : Nat} {t : Text} {w : Window}
    (h : Window.around? size offset t = some w) :
    ∃ before after, t = before ++ after ∧ w = Window.between w.start (Text.width before) t := by
  unfold Window.around? at h
  split at h
  · simp at h
  · obtain rfl := Option.some.inj h
    obtain ⟨a, b, hab, hstart⟩ := boundary_paragraphStart (Text.takeBytes (offset - size) t)
    obtain ⟨c, hc⟩ := Text.takeBytes_prefix_takeBytesUp
      (Nat.le_trans (Nat.sub_le offset size) (Nat.le_add_right offset size)) t
    obtain ⟨after, hafter⟩ := Text.takeBytesUp_prefix (offset + size) t
    rw [hab, List.append_assoc] at hc
    refine ⟨Text.takeBytesUp (offset + size) t, after, hafter.symm, ?_⟩
    dsimp only
    have hbetween := between_width_append a (b ++ c) after
    rw [hc, hafter] at hbetween
    rw [hstart, hbetween, ← hc, Text.dropBytes_width_append]

/-! ## Looks and searches -/

/-- What stands behind an offset up to a limit also stands there up to the end of the document, with
more behind it. -/
theorem slice?_width_of_lt {before : Text} {offset : Nat} (h : offset < Text.width before)
    (after : Text) :
    (∀ piece, Text.slice? offset (Text.width before) (before ++ after) = some piece →
      piece ≠ [] ∧ Text.slice? offset (Text.width (before ++ after)) (before ++ after) =
        some (piece ++ after)) ∧
      (Text.slice? offset (Text.width before) (before ++ after) = none →
        Text.slice? offset (Text.width (before ++ after)) (before ++ after) = none) := by
  have hcut (s t : Text) : Text.slice? offset (Text.width s) (s ++ t) =
      (Text.splitAt? Char.utf8Size offset s).map Prod.snd := by
    rw [Text.slice?, Text.splitAt?_width_append]
    show (Text.splitAt? Char.utf8Size offset s).bind _ = _
    cases Text.splitAt? Char.utf8Size offset s <;> rfl
  have hwhole := hcut (before ++ after) []
  rw [List.append_nil] at hwhole
  rw [hwhole, hcut]
  constructor
  · intro piece hpiece
    obtain ⟨⟨front, _⟩, hsplit, rfl⟩ := Option.map_eq_some_iff.1 hpiece
    obtain ⟨rfl, rfl⟩ := Text.splitAt?_eq_some_iff.1 hsplit
    refine ⟨?_, ?_⟩
    · rintro rfl
      rw [List.append_nil] at h
      exact absurd h (Nat.lt_irrefl _)
    · rw [List.append_assoc, Text.splitAt?_width_append]
      rfl
  · rw [Option.map_eq_none_iff, Option.map_eq_none_iff]
    intro hnone
    by_contra hsome
    obtain ⟨⟨front, rest⟩, hsplit⟩ := Option.ne_none_iff_exists'.1 hsome
    obtain ⟨happend, rfl⟩ := Text.splitAt?_eq_some_iff.1 hsplit
    -- a boundary before the limit is one of the text before it
    obtain ⟨mid, rfl, -⟩ := Text.exists_append_of_width_le happend (Nat.le_of_lt h)
    rw [Text.splitAt?_width_append] at hnone
    cases hnone

/-- A search up to a limit finds nothing that the search up to the end does not find. -/
theorem search_between_of_found {r : Recognition} {before after : Text} {start offset : Nat}
    {region : Region}
    (h : (Window.between start (Text.width before) (before ++ after)).search r offset =
      .found region) :
    (Window.between start (Text.width (before ++ after)) (before ++ after)).search r offset =
      .found region := by
  obtain ⟨piece, hpiece⟩ := Text.takeBytesUp_prefix start before
  generalize hfront : Text.takeBytesUp start before = front at hpiece
  subst hpiece
  have hbetween : Window.between start (Text.width (front ++ piece)) (front ++ piece ++ after) =
      ⟨Text.width front, piece,
        Text.width (front ++ piece) < Text.width (front ++ piece ++ after)⟩ := by
    rw [Window.between, Text.takeBytes_width_append, hfront, List.drop_left]
  rw [hbetween] at h
  cases piece with
  | nil =>
      -- nothing is seen, so nothing is found
      rw [Window.search, atoms_nil, findContaining] at h
      cases h
  | cons c piece =>
      have hfront' : Text.takeBytesUp start (front ++ c :: piece ++ after) = front := by
        rw [Text.takeBytesUp_append, hfront]
        simp [hfront]
      have hwhole := Text.takeBytes_width_append (front ++ c :: piece ++ after) []
      rw [List.append_nil] at hwhole
      have hend : Window.between start (Text.width (front ++ c :: piece ++ after))
          (front ++ c :: piece ++ after) = ⟨Text.width front, c :: piece ++ after, false⟩ := by
        rw [Window.between, hwhole, hfront', decide_eq_false (Nat.lt_irrefl _), List.append_assoc,
          List.drop_left]
      rw [hend]
      refine findContaining_of_search (fun hmore => ?_) h
      -- the document does not go on behind the limit
      have hlt := of_decide_eq_false hmore
      rw [Text.width_append _ after] at hlt
      by_contra hne
      have := Text.width_pos hne
      omega

/-- A conclusive look up to a limit says what the look up to the end says. -/
theorem lookAt_of_ne_inconclusive {accepts : Text → Bool} {before after : Text} {offset : Nat}
    (hoffset : offset < Text.width before)
    (h : lookAt accepts (before ++ after) (Text.width before) offset ≠ .inconclusive) :
    lookAt accepts (before ++ after) (Text.width (before ++ after)) offset =
      lookAt accepts (before ++ after) (Text.width before) offset := by
  obtain ⟨hpiece, hnone⟩ := slice?_width_of_lt hoffset after
  unfold lookAt at h ⊢
  cases hslice : Text.slice? offset (Text.width before) (before ++ after) with
  | none => rw [hnone hslice]
  | some piece =>
      obtain ⟨hne, hwhole⟩ := hpiece piece hslice
      rw [hslice] at h
      rw [hwhole]
      dsimp only at h ⊢
      rw [decide_eq_false (Nat.lt_irrefl _)]
      by_cases hafter : after = []
      · -- the limit is the end
        subst hafter
        rw [List.append_nil, List.append_nil, decide_eq_false (Nat.lt_irrefl _)]
      · have hmore : Text.width before < Text.width (before ++ after) := by
          have := Text.width_pos hafter
          rw [Text.width_append]
          omega
        rw [decide_eq_true hmore] at h ⊢
        have hatoms : atoms piece ≠ [] := by
          intro hnil
          rw [← join_atoms piece, hnil] at hne
          exact hne rfl
        have hconf : Confirms (matchHead accepts true (atoms piece))
            (matchHead accepts false (atoms (piece ++ after))) :=
          confirms_matchHead (shows_atoms piece after) hatoms
        generalize matchHead accepts true (atoms piece) = look at hconf h ⊢
        generalize matchHead accepts false (atoms (piece ++ after)) = whole at hconf ⊢
        cases hconf with
        | found => rfl
        | absent => rfl
        | inconclusive => exact absurd rfl h

/-- **Up to a limit a search is never wrong.** Whatever the limit and wherever the search starts,
the region that it finds is found without the limit, and a look at an offset before the limit that
is not inconclusive says what a look without the limit says. -/
theorem conclusive_up_to_limit (r : Recognition) {t : Text} {limit : Nat}
    (hlimit : (Text.boundary? Char.utf8Size limit t).isSome = true) :
    (∀ start offset region, (Window.between start limit t).search r offset = .found region →
      (Window.between start (Text.width t) t).search r offset = .found region) ∧
    ∀ offset, offset < limit → lookAt r.accepts t limit offset ≠ .inconclusive →
      lookAt r.accepts t (Text.width t) offset = lookAt r.accepts t limit offset := by
  rw [Text.boundary?, Option.isSome_map] at hlimit
  obtain ⟨⟨before, after⟩, hsplit⟩ := Option.isSome_iff_exists.1 hlimit
  obtain ⟨rfl, rfl⟩ := Text.splitAt?_eq_some_iff.1 hsplit
  exact ⟨fun start offset region h => search_between_of_found h,
    fun offset hoffset h => lookAt_of_ne_inconclusive hoffset h⟩

/-- A limit between the two dollars of a closer: the inline math before it is found, also
from inside of a character, and a look at the display math is inconclusive. -/
theorem conclusive_up_to_limit_in_closer :
    (Text.boundary? Char.utf8Size 12 "é $é$ $$b$$".toList).isSome = true ∧
      lookAt Recognition.standard.accepts "é $é$ $$b$$".toList 12 8 = .inconclusive ∧
      (Window.between 1 13 "é $é$ $$b$$".toList).search .standard 5 =
        .found ⟨3, .inlineDollar, ['é']⟩ ∧
      lookAt Recognition.standard.accepts "é $é$ $$b$$".toList 13 3 =
        .found ⟨3, .inlineDollar, ['é']⟩ := by
  have hlimit : (Text.boundary? Char.utf8Size 12 "é $é$ $$b$$".toList).isSome = true := by
    decide +kernel
  have hwidth : Text.width "é $é$ $$b$$".toList = 13 := by decide +kernel
  have hsearch : (Window.between 1 12 "é $é$ $$b$$".toList).search .standard 5 =
      .found ⟨3, .inlineDollar, ['é']⟩ := by decide +kernel
  have hlook : lookAt Recognition.standard.accepts "é $é$ $$b$$".toList 12 3 =
      .found ⟨3, .inlineDollar, ['é']⟩ := by decide +kernel
  obtain ⟨hfound, hconclusive⟩ := conclusive_up_to_limit .standard hlimit
  rw [hwidth] at hfound hconclusive
  refine ⟨hlimit, by decide +kernel, hfound 1 5 _ hsearch, ?_⟩
  rw [hconclusive 3 (by decide) (by rw [hlook]; simp), hlook]

/-- **The window around an offset.** What is found in it is also found by the search from its start
up to the end of the document. If it starts where the document does, that is the whole document. -/
theorem search_of_around? {r : Recognition} {size offset : Nat} {t : Text} {w : Window}
    {region : Region} (h : Window.around? size offset t = some w)
    (hfound : w.search r offset = .found region) :
    (Window.between w.start (Text.width t) t).search r offset = .found region ∧
      (w.start = 0 → (Window.whole t).search r offset = .found region) := by
  obtain ⟨before, after, rfl, hbetween⟩ := exists_eq_between_of_around? h
  rw [hbetween] at hfound
  have hend := search_between_of_found hfound
  refine ⟨hend, fun hstart => ?_⟩
  rwa [hstart, ← whole_eq_between] at hend

end Region

end MathEdit
