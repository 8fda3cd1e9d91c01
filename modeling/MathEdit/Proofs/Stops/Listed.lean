import MathEdit.Proofs.Region.Stops
import MathEdit.Proofs.Stops

/-! # The list of stops

The stops of any text, be it math or not, are boundaries between its characters, in ascending order
and from one end of the text to the other. Each is computed from the lengths of parts of the text,
so it is shown to be a boundary by the parts that come before it and behind it.

* **`boundary_of_mem_stops`**: every stop of a text is a boundary.
* **`Token.takeWhile_isBlank_eq`**: the blanks behind a token, in the next token and in the text.
* **`StopList`**, **`stopList_stops`**: what the stops of a text are. -/

namespace MathEdit

/-! ## Boundaries -/

namespace Token

variable {t : Text} {before after : List Token} {k : Token} {p : Nat}

/-- The first of a run of tokens begins their text. -/
theorem frontText_prefix_join (ts : List Token) : frontText ts <+: join ts := by
  cases ts with
  | nil => exact List.prefix_refl []
  | cons k ts => exact List.prefix_append k.text (join ts)

/-- A token starts at a boundary. -/
theorem boundary_position (hk : k ∈ scan t) :
    (Text.boundary? Char.utf8Size k.position t).isSome = true := by
  obtain ⟨front, back, ht, hposition, -⟩ := of_mem_scan hk
  exact Text.isSome_boundary?_iff.2 ⟨front, k.text ++ back, by simp [ht], hposition⟩

/-- And it ends at one. -/
theorem boundary_stop (hk : k ∈ scan t) :
    (Text.boundary? Char.utf8Size k.stop t).isSome = true := by
  obtain ⟨front, back, ht, -, hstop, -⟩ := of_mem_scan hk
  exact Text.isSome_boundary?_iff.2 ⟨front ++ k.text, back, ht, hstop⟩

/-- The end of any front of the next token is a boundary. -/
theorem boundary_behind (h : scan t = before ++ k :: after) {front : Text}
    (hfront : front <+: frontText after) :
    (Text.boundary? Char.utf8Size (k.stop + Text.width front) t).isSome = true := by
  obtain ⟨rest, hrest⟩ := hfront.trans (frontText_prefix_join after)
  refine Text.isSome_boundary?_iff.2 ⟨join before ++ k.text ++ front, rest, ?_, ?_⟩
  · rw [(of_scan_eq h).1, ← hrest, List.append_assoc _ front]
  · rw [stop_of_scan_eq h, ← Text.width_append]

/-- The stops of tokens are boundaries of the text. -/
theorem boundary_of_mem_allStops (hp : p ∈ allStops (scan t)) :
    (Text.boundary? Char.utf8Size p t).isSome = true := by
  obtain ⟨before, k, after, hsplit, hp⟩ := mem_allStops_iff.1 hp
  have hk : k ∈ scan t := by simp [hsplit]
  rcases cases_of_mem_stops hp with rfl | rfl | rfl | ⟨-, c, rest, -, hnext, -, -, rfl⟩
  · exact boundary_position hk
  · exact boundary_stop hk
  · exact boundary_behind hsplit (List.takeWhile_prefix _)
  · have hc : [c] <+: frontText after := hnext ▸ List.prefix_append [c] rest
    simpa using boundary_behind hsplit hc

/-- The blanks behind a token in the text are those of the next token. -/
theorem takeWhile_isBlank_eq (h : scan t = before ++ k :: after) :
    (Text.dropBytes k.stop t).takeWhile Text.isBlank =
      (frontText after).takeWhile Text.isBlank := by
  rw [stop_of_scan_eq h, (of_scan_eq h).1, Text.dropBytes_width_append]
  cases after with
  | nil => rfl
  | cons m after => exact (beside_of_scan_eq h).2.2.takeWhile_isBlank_append

end Token

/-! ## The stops of a text -/

section

variable {t : Text} {p : Nat}

/-- The inner ends of an environment are those of its tags. -/
theorem boundary_of_mem_environmentStops (hp : p ∈ environmentStops (scan t)) :
    (Text.boundary? Char.utf8Size p t).isSome = true := by
  have hscan {k : Token} {ts : List Token} (hts : (scan t).filter (!·.isBlank) = ts)
      (hk : k ∈ ts) : k ∈ scan t := (List.mem_filter.1 (hts ▸ hk)).1
  unfold environmentStops at hp
  -- behind the opening tag and, where there is one, in front of the closing tag
  split at hp
  · cases hp
  · next first rest hts =>
      split at hp
      · rcases List.mem_cons.1 hp with rfl | hp
        · exact Token.boundary_stop (hscan hts List.mem_cons_self)
        · split at hp
          · next last hlast =>
              split at hp
              · obtain rfl := List.mem_singleton.1 hp
                refine Token.boundary_position (hscan hts ?_)
                exact List.mem_cons_of_mem first (List.mem_of_getLast? hlast)
              · cases hp
          · cases hp
      · cases hp

/-- The inner ends of delimiters lie behind an opening one and before a closing one. -/
theorem boundary_of_mem_delimiterStops (hp : p ∈ delimiterStops t) :
    (Text.boundary? Char.utf8Size p t).isSome = true := by
  unfold delimiterStops at hp
  -- a fixed pair found in the table, or the tags of an environment
  split at hp
  · next d hd =>
      have hopening : d.opening <+: t := by simpa using List.find?_some hd
      rcases List.mem_cons.1 hp with rfl | hp
      · obtain ⟨rest, rfl⟩ := hopening
        exact Text.isSome_boundary?_iff.2 ⟨d.opening, rest, rfl, rfl⟩
      · split at hp
        · next hclosing =>
            simp only [Bool.and_eq_true, List.isSuffixOf_iff_suffix] at hclosing
            obtain ⟨front, rfl⟩ := hclosing.2
            obtain rfl := List.mem_singleton.1 hp
            refine Text.isSome_boundary?_iff.2 ⟨front, d.closing, rfl, ?_⟩
            rw [Text.width_append, Nat.add_sub_cancel]
        · cases hp
  · exact boundary_of_mem_environmentStops hp

/-- Every stop of a text is a boundary between its characters. -/
theorem boundary_of_mem_stops (hp : p ∈ stops t) :
    (Text.boundary? Char.utf8Size p t).isSome = true := by
  rcases mem_stops_iff.1 hp with rfl | rfl | hp | hp
  · exact Text.isSome_boundary?_iff.2 ⟨[], t, rfl, rfl⟩
  · exact Text.isSome_boundary?_iff.2 ⟨t, [], by simp, rfl⟩
  · exact boundary_of_mem_delimiterStops hp
  · exact Token.boundary_of_mem_allStops hp

/-- The stops that a token makes before the text behind it are stops of the text. -/
theorem mem_stops_of_mem_scan {k : Token} (hk : k ∈ scan t)
    (h : ∀ next : Text,
      next.takeWhile Text.isBlank = (Text.dropBytes k.stop t).takeWhile Text.isBlank →
        p ∈ k.stops next) : p ∈ stops t := by
  obtain ⟨before, after, hsplit⟩ := List.append_of_mem hk
  have hnext := h (Token.frontText after) (Token.takeWhile_isBlank_eq hsplit).symm
  exact mem_stops_iff.2 (.inr (.inr (.inr (Token.mem_allStops_iff.2
    ⟨before, k, after, hsplit, hnext⟩))))

/-- What a list of stops has to be for a cursor to move along it in a text. -/
structure StopList (t : Text) (ps : List Nat) : Prop where
  ascending : ps.Pairwise (· < ·)
  head : ps.head? = some 0
  last : ps.getLast? = some (Text.width t)
  boundary : ∀ p ∈ ps, (Text.boundary? Char.utf8Size p t).isSome = true
  /-- A slot behind every opening bracket. -/
  slot : ∀ k ∈ scan t, k.kind.isGroupOpen = true → k.stop ∈ ps
  /-- A stop before every operator and row break, and one behind the blanks that follow it. -/
  operator : ∀ k ∈ scan t, (∃ sign, k.kind = .operator sign) ∨ k.kind = .rowBreak →
    k.position ∈ ps ∧
      k.stop + Text.width ((Text.dropBytes k.stop t).takeWhile Text.isBlank) ∈ ps
  /-- A stop before every command that does not wrap an argument. -/
  command : ∀ k ∈ scan t, ∀ name, k.kind = .command name → isWrapping name = false →
    k.position ∈ ps

/-- **The list of stops.** The stops of any text ascend from its start to its end, over boundaries
between its characters only, and none that a bracket, an operator, a row break or a command asks for
is missing. -/
theorem stopList_stops (t : Text) : StopList t (stops t) where
  ascending := pairwise_stops t
  head := Ascending.head?_eq_some (pairwise_stops t) (mem_stops_iff.2 (.inl rfl))
    fun p _ => Nat.zero_le p
  last := Ascending.getLast?_eq_some (pairwise_stops t) (mem_stops_iff.2 (.inr (.inl rfl)))
    fun _ hp => le_of_mem_stops hp
  boundary _ hp := boundary_of_mem_stops hp
  slot k hk hopen := by
    refine mem_stops_of_mem_scan hk fun next _ => ?_
    unfold Token.stops
    unfold Token.Kind.isGroupOpen at hopen
    split at hopen <;> simp_all
  operator k hk hkind := by
    -- an operator and a row break have the same stops
    have hstops (next : Text) : k.stops next = k.operatorStops next := by
      rcases hkind with ⟨sign, hkind⟩ | hkind <;> simp [Token.stops, hkind, Token.Kind.rowBreak]
    constructor
    · refine mem_stops_of_mem_scan hk fun next _ => ?_
      simp [hstops, Token.operatorStops]
    · refine mem_stops_of_mem_scan hk fun next hnext => ?_
      simp [hstops, Token.operatorStops, hnext]
  command k hk name hkind hwraps := by
    refine mem_stops_of_mem_scan hk fun next _ => ?_
    simp [Token.stops, hkind, hwraps]

/-- A text that ends inside of its delimiters, with an accent before an operator. -/
example : stops "\\[é & b".toList = [0, 2, 5, 7, 8] := by decide +kernel

end

end MathEdit
