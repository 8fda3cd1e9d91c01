import Mathlib.Algebra.Group.Int.Defs
import Mathlib.Algebra.Group.Nat.Defs
import MathEdit.Proofs.Token.Cuts

/-! # Depths as counts

The scan has one counter for the constructs of all kinds. The depth of a token is what the counter
shows around it, and since the counter goes one step at a time it cannot fall below the depth of an
opener without a closer at just that depth.

* **`Token.of_place_eq`**: a token among others, in terms of the tokens before it and of those
  after it.
* **`Token.exists_closing_place`**: the first closer at or below a level that the counter starts
  above is at that level.
* **`graded_scan`**: the depths of every text count its openers and closers, and pair them up. -/

namespace MathEdit

namespace Token

open Lexeme

/-! ## The counter -/

/-- The openers less the closers among some tokens. -/
def surplus (ts : List Token) : Int :=
  (ts.countP (·.kind.isOpening) : Int) - ts.countP (·.kind.isClosing)

/-- Nothing is open before the first token. -/
@[simp] theorem surplus_nil : surplus [] = 0 := rfl

/-- What two runs open and close adds up. -/
@[simp] theorem surplus_append (ts us : List Token) :
    surplus (ts ++ us) = surplus ts + surplus us := by
  simp only [surplus, List.countP_append]
  omega

/-- A token moves the counter by itself. -/
@[simp] theorem surplus_singleton (k : Token) : surplus [k] = k.kind.shift := by
  cases hk : k.kind with
  | _ => simp [surplus, hk, Kind.isOpening, Kind.isClosing, Kind.shift]

/-- And so does the first one of a run. -/
theorem surplus_cons (k : Token) (ts : List Token) :
    surplus (k :: ts) = k.kind.shift + surplus ts := by
  rw [← List.singleton_append, surplus_append, surplus_singleton]

/-- The counter moves by the openers less the closers that it goes over. -/
theorem depth_map_toLexeme (ts : List Token) : Lexeme.depth (ts.map toLexeme) = surplus ts := by
  induction ts with
  | nil => rfl
  | cons k ts ih => rw [List.map_cons, Lexeme.depth, ih, surplus_cons]

/-- The counter moves by one at most for each token. -/
theorem natAbs_surplus_le (ts : List Token) : (surplus ts).natAbs ≤ ts.length := by
  have hopening := List.countP_le_length (p := fun k : Token => k.kind.isOpening) (l := ts)
  have hclosing := List.countP_le_length (p := fun k : Token => k.kind.isClosing) (l := ts)
  rw [surplus]
  omega

/-! ## A token among others -/

/-- A closer takes one level away. -/
theorem Kind.shift_of_isClosing {kind : Kind} (h : kind.isClosing = true) : kind.shift = -1 := by
  cases kind with
  | closing => rfl
  | _ => cases h

/-- Nothing else does. -/
theorem Kind.shift_nonneg {kind : Kind} (h : kind.isClosing = false) : 0 ≤ kind.shift := by
  cases kind with
  | closing => cases h
  | _ => simp [Kind.shift]

/-- No token opens more than one level. -/
theorem Kind.shift_le_one (kind : Kind) : kind.shift ≤ 1 := by
  cases kind <;> simp [Kind.shift]

/-- **One token**: it shows the counter before it, which a closer has moved already, and hands it on
to the next one. -/
theorem exists_place_cons (position : Nat) (depth : Int) (l : Lexeme) (ls : List Lexeme) :
    ∃ k : Token, place position depth (l :: ls) = k :: place k.stop k.depthAfter ls ∧
      k.depth = (if k.kind.isClosing then depth - 1 else depth) ∧
      k.depthAfter = depth + k.kind.shift := by
  let k : Token := ⟨l, position, if l.kind.isClosing then depth - 1 else depth⟩
  have hafter : k.depthAfter = depth + l.kind.shift := by
    cases hl : l.kind with
    | opening => simp [k, depthAfter, hl, Kind.isOpening, Kind.isClosing, Kind.shift]
    | closing =>
        simp only [k, depthAfter, hl, Kind.isOpening, Kind.isClosing, Kind.shift]
        rfl
    | _ => simp [k, depthAfter, hl, Kind.isOpening, Kind.isClosing, Kind.shift]
  exact ⟨k, by rw [hafter]; rfl, rfl, hafter⟩

/-- **A token among others**: it shows the counter that the tokens before it have moved, and the
tokens after it go on from there. -/
theorem of_place_eq {position : Nat} {depth : Int} {ls : List Lexeme} {before after : List Token}
    {k : Token} (h : place position depth ls = before ++ k :: after) :
    k.depth = (if k.kind.isClosing then depth + surplus before - 1 else depth + surplus before) ∧
      k.depthAfter = depth + surplus (before ++ [k]) ∧
      after = place k.stop k.depthAfter (after.map toLexeme) := by
  -- along the tokens in front, which add their surplus to the depth
  induction before generalizing position depth ls with
  | nil =>
      cases ls with
      | nil => simp at h
      | cons l ls =>
          obtain ⟨k', hplace, hdepth, hdepthAfter⟩ := exists_place_cons position depth l ls
          obtain ⟨rfl, rfl⟩ := List.cons.inj (hplace.symm.trans h)
          rw [map_toLexeme_place]
          exact ⟨by simpa using hdepth, by simpa using hdepthAfter, rfl⟩
  | cons u before ih =>
      cases ls with
      | nil => simp at h
      | cons l ls =>
          obtain ⟨k', hplace, -, hnext⟩ := exists_place_cons position depth l ls
          obtain ⟨rfl, hrest⟩ := List.cons.inj (hplace.symm.trans h)
          obtain ⟨hdepth, hdepthAfter, hafter⟩ := ih hrest
          refine ⟨?_, ?_, hafter⟩
          · rw [hdepth, hnext, surplus_cons, Int.add_assoc]
          · rw [hdepthAfter, hnext, List.cons_append, surplus_cons, Int.add_assoc]

/-! ## Closers -/

/-- **The first closer at a level**: if the counter starts above a level and a token closes down to
it or below, then the first one that does closes down to just that level, and no token before it is
at the level or below. -/
theorem exists_closing_place {level : Int} {position : Nat} {depth : Int} {ls : List Lexeme}
    (hlevel : level < depth)
    (h : ∃ c ∈ place position depth ls, c.kind.isClosing = true ∧ c.depth ≤ level) :
    ∃ between c after, place position depth ls = between ++ c :: after ∧
      c.kind.isClosing = true ∧ c.depth = level ∧ ∀ k ∈ between, level < k.depth := by
  -- the induction reads one token, which leaves the counter above the level or closes down to it
  induction ls generalizing position depth with
  | nil => simp at h
  | cons l ls ih =>
      obtain ⟨k, hplace, hdepth, hnext⟩ := exists_place_cons position depth l ls
      rw [hplace] at h ⊢
      by_cases hlast : k.kind.isClosing = true ∧ k.depth = level
      · exact ⟨[], k, _, rfl, hlast.1, hlast.2, by simp⟩
      · have habove : level < k.depth ∧ level < k.depthAfter := by
          by_cases hclosing : k.kind.isClosing = true
          · have hne : k.depth ≠ level := fun heq => hlast ⟨hclosing, heq⟩
            rw [if_pos hclosing] at hdepth
            rw [Kind.shift_of_isClosing hclosing] at hnext
            omega
          · have hshift := Kind.shift_nonneg (Bool.eq_false_iff.2 hclosing)
            rw [if_neg hclosing] at hdepth
            omega
        obtain ⟨c, hc, hclosing, hle⟩ := h
        rcases List.mem_cons.1 hc with rfl | hc
        · omega
        · obtain ⟨between, d, after, hsplit, hd, hlevel, hbetween⟩ :=
            ih habove.2 ⟨c, hc, hclosing, hle⟩
          refine ⟨k :: between, d, after, by rw [hsplit, List.cons_append], hd, hlevel, ?_⟩
          exact List.forall_mem_cons.2 ⟨habove.1, hbetween⟩

/-- Without closers the depth does not fall. -/
theorem depth_nonneg_of_shift {ls : List Lexeme} (h : ∀ l ∈ ls, 0 ≤ l.kind.shift) :
    0 ≤ Lexeme.depth ls := by
  induction ls with
  | nil => exact Int.le_refl 0
  | cons l ls ih =>
      obtain ⟨hl, hls⟩ := List.forall_mem_cons.1 h
      exact Int.add_nonneg hl (ih hls)

/-- So every token is between the depth at the beginning and that at the end. -/
theorem depth_bounds_of_mem_place {position : Nat} {depth : Int} {ls : List Lexeme} {k : Token}
    (h : ∀ l ∈ ls, 0 ≤ l.kind.shift) (hk : k ∈ place position depth ls) :
    depth ≤ k.depth ∧ k.depth ≤ depth + Lexeme.depth ls := by
  induction ls generalizing position depth with
  | nil => simp at hk
  | cons l ls ih =>
      obtain ⟨hl, hls⟩ := List.forall_mem_cons.1 h
      -- without closing lexemes the depth only grows
      have hclosing : l.kind.isClosing = false := by
        by_contra hclosing
        rw [Kind.shift_of_isClosing (by simpa using hclosing)] at hl
        omega
      have hrest := depth_nonneg_of_shift hls
      rw [Lexeme.depth]
      simp only [place, hclosing, Bool.false_eq_true, if_false, List.mem_cons] at hk
      rcases hk with rfl | hk
      · dsimp only
        omega
      · have hbounds := ih hls hk
        omega

/-! ## The depths of a text -/

/-- Tokens whose depths count openers up and closers down, so that the two ends of a group have the
same depth. -/
structure Graded (ts : List Token) : Prop where
  opening : ∀ before k after, ts = before ++ k :: after → k.kind.isOpening = true →
    k.depth = surplus before
  closing : ∀ before k after, ts = before ++ k :: after → k.kind.isClosing = true →
    k.depth = surplus before - 1
  other : ∀ before k after, ts = before ++ k :: after → k.kind.isOpening = false →
    k.kind.isClosing = false → k.depth = surplus before
  /-- The counter behind a token counts that token too. -/
  depthAfter : ∀ before k after, ts = before ++ k :: after → k.depthAfter = surplus (before ++ [k])
  /-- And the tokens behind it are counted from there. -/
  goesOn : ∀ before k after, ts = before ++ k :: after →
    after = place k.stop k.depthAfter (after.map toLexeme)
  /-- If the depth of an opener is closed at all, the first closer that does so is at the same
  depth, and all tokens between the two are deeper. -/
  paired : ∀ before o after, ts = before ++ o :: after → o.kind.isOpening = true →
    (∃ c ∈ after, c.kind.isClosing = true ∧ c.depth ≤ o.depth) →
      ∃ between c rest, after = between ++ c :: rest ∧ c.kind.isClosing = true ∧
        c.depth = o.depth ∧ ∀ k ∈ between, o.depth < k.depth

/-- An opener is no closer. -/
theorem isClosing_of_isOpening {kind : Kind} (h : kind.isOpening = true) :
    kind.isClosing = false := by
  cases kind with
  | opening => rfl
  | _ => cases h

end Token

/-- The depth behind two runs is the sum of what they open and close. -/
theorem Lexeme.depth_append (ls ms : List Lexeme) :
    Lexeme.depth (ls ++ ms) = Lexeme.depth ls + Lexeme.depth ms := by
  induction ls with
  | nil => simp [Lexeme.depth]
  | cons l ls ih => rw [List.cons_append, Lexeme.depth, Lexeme.depth, ih, Int.add_assoc]

/-- Over texts that are scanned apart the counter moves as over one and then the other. -/
theorem Apart.finalDepth_append {s u : Text} (h : Apart s u) :
    finalDepth (s ++ u) = finalDepth s + finalDepth u := by
  rw [finalDepth, h, Lexeme.depth_append]
  rfl

open Token

/-! ## The counter of 32 bits -/

/-- Whether a number is one of a signed counter of 32 bits. -/
def FitsCounter (n : Int) : Prop := -2 ^ 31 ≤ n ∧ n < 2 ^ 31

/-- Numbers no further from zero than a length that a counter holds fit it too. -/
theorem fitsCounter_of_natAbs_le {n : Int} {length : Nat} (h : n.natAbs ≤ length)
    (hlength : length < 2 ^ 31) : FitsCounter n := by
  rw [FitsCounter]
  omega

/-- A counter shows the numbers that it holds. -/
theorem FitsCounter.shown_eq {n : Int} (h : FitsCounter n) : shown n = n := by
  obtain ⟨hlow, hhigh⟩ := h
  have hsize : UInt32.size = 2 ^ 32 := rfl
  exact Int.bmod_eq_of_le (by omega) (by omega)

/-- One step beyond its numbers a counter starts again below zero. -/
theorem shown_two_pow : shown (2 ^ 31) = -2 ^ 31 := by decide

/-- The depths at a token are no further from zero than there are tokens up to it. -/
theorem natAbs_depth_le {t : Text} {before after : List Token} {k : Token}
    (h : scan t = before ++ k :: after) :
    k.depth.natAbs ≤ before.length + 1 ∧ k.depthAfter.natAbs ≤ before.length + 1 := by
  obtain ⟨hdepth, hdepthAfter, -⟩ := of_place_eq h
  have hbefore := natAbs_surplus_le before
  have hbehind := natAbs_surplus_le (before ++ [k])
  rw [List.length_append, List.length_singleton] at hbehind
  constructor
  · rw [hdepth]
    split <;> omega
  · rw [hdepthAfter]
    omega

/-- A counter of 32 bits holds the depths of fewer than 2³¹ tokens. -/
theorem fitsCounter_of_mem_scan {t : Text} (h : (scan t).length < 2 ^ 31) {k : Token}
    (hk : k ∈ scan t) : FitsCounter k.depth ∧ FitsCounter k.depthAfter := by
  obtain ⟨before, after, hsplit⟩ := List.append_of_mem hk
  obtain ⟨hdepth, hdepthAfter⟩ := natAbs_depth_le hsplit
  have hlength := congrArg List.length hsplit
  rw [List.length_append, List.length_cons] at hlength
  have hfits : before.length + 1 < 2 ^ 31 := by omega
  exact ⟨fitsCounter_of_natAbs_le hdepth hfits, fitsCounter_of_natAbs_le hdepthAfter hfits⟩

/-- So it shows them as they are. -/
theorem counter_eq_depth {t : Text} (h : (scan t).length < 2 ^ 31) {k : Token} (hk : k ∈ scan t) :
    k.counter = k.depth := (fitsCounter_of_mem_scan h hk).1.shown_eq

/-- A step to either side of the numbers from zero on, the counter shows a negative number. -/
theorem bounds_of_shown_nonneg {n : Int} (hlow : -1 ≤ n) (hhigh : n ≤ 2 ^ 31) (h : 0 ≤ shown n) :
    0 ≤ n ∧ n < 2 ^ 31 := by
  obtain hlt | rfl := Int.lt_or_eq_of_le hhigh
  · have hfits : FitsCounter n := ⟨by omega, hlt⟩
    rw [hfits.shown_eq] at h
    exact ⟨h, hlt⟩
  · rw [shown_two_pow] at h
    omega

/-- **A counter that shows no negative depth has not gone around**: it moves a step at a time, and
the step out of its numbers would have shown one. -/
theorem depth_bounds_of_counter_nonneg {position : Nat} {depth : Int} {ls : List Lexeme}
    (hlow : 0 ≤ depth) (hhigh : depth ≤ 2 ^ 31)
    (h : ∀ k ∈ place position depth ls, 0 ≤ k.counter) :
    ∀ k ∈ place position depth ls, 0 ≤ k.depth ∧ k.depth < 2 ^ 31 := by
  -- between two tokens the depth may be 2³¹, as long as the next one closes a level
  induction ls generalizing position depth with
  | nil => simp
  | cons l ls ih =>
      obtain ⟨k, hplace, hdepth, hnext⟩ := exists_place_cons position depth l ls
      rw [hplace, List.forall_mem_cons] at h ⊢
      have hbounds : 0 ≤ k.depth ∧ k.depth < 2 ^ 31 := by
        refine bounds_of_shown_nonneg ?_ ?_ h.1 <;> rw [hdepth] <;> split <;> omega
      refine ⟨hbounds, ih ?_ ?_ h.2⟩ <;> rw [hnext] <;>
        by_cases hclosing : k.kind.isClosing = true
      · rw [if_pos hclosing] at hdepth
        rw [Kind.shift_of_isClosing hclosing]
        omega
      · have hshift := Kind.shift_nonneg (Bool.eq_false_iff.2 hclosing)
        omega
      · rw [Kind.shift_of_isClosing hclosing]
        omega
      · have hshift := Kind.shift_le_one k.kind
        rw [if_neg hclosing] at hdepth
        omega

/-- So its depths are what it shows. -/
theorem counter_eq_depth_of_nonneg {t : Text} (h : ∀ k ∈ scan t, 0 ≤ k.counter) {k : Token}
    (hk : k ∈ scan t) : k.counter = k.depth := by
  obtain ⟨hlow, hhigh⟩ := depth_bounds_of_counter_nonneg (by omega) (by omega) h k hk
  have hfits : FitsCounter k.depth := ⟨by omega, hhigh⟩
  exact hfits.shown_eq

/-- **Depths are counts.** In a text of fewer than 2³¹ tokens the depths count openers up and
closers down and pair them up, and a counter of 32 bits holds all of them. -/
theorem graded_scan (t : Text) (h : (scan t).length < 2 ^ 31) :
    Graded (scan t) ∧ finalDepth t = surplus (scan t) ∧
      ∀ k ∈ scan t, FitsCounter k.depth ∧ FitsCounter k.depthAfter := by
  refine ⟨⟨?_, ?_, ?_, ?_, ?_, ?_⟩, ?_, ?_⟩
  · intro before k after hsplit hk
    have hdepth := (of_place_eq hsplit).1
    simpa [isClosing_of_isOpening hk] using hdepth
  · intro before k after hsplit hk
    have hdepth := (of_place_eq hsplit).1
    simpa [hk] using hdepth
  · intro before k after hsplit _ hk
    have hdepth := (of_place_eq hsplit).1
    simpa [hk] using hdepth
  · intro before k after hsplit
    rw [(of_place_eq hsplit).2.1, Int.zero_add]
  · intro before k after hsplit
    exact (of_place_eq hsplit).2.2
  · intro before o after hsplit ho hc
    obtain ⟨-, -, hafter⟩ := of_place_eq hsplit
    -- behind the opener the counter is one above its depth
    have habove : o.depth < o.depthAfter := by
      rw [Token.depthAfter, if_pos ho]
      omega
    rw [hafter] at hc ⊢
    exact exists_closing_place habove hc
  · rw [← depth_map_toLexeme, scan, map_toLexeme_place, finalDepth]
  · exact fun k hk => fitsCounter_of_mem_scan h hk

/-- An opener below depth zero whose depth a closer of another construct closes. -/
theorem graded_scan_below_zero :
    (scan "\x7d\\left a (b] + c\x7d".toList).length < 2 ^ 31 ∧ ∃ before o after,
      scan "\x7d\\left a (b] + c\x7d".toList = before ++ o :: after ∧ o.kind.isOpening = true ∧
        o.depth = -1 ∧ ∃ between c rest, after = between ++ c :: rest ∧ c.kind.isClosing = true ∧
          c.depth = -1 ∧ ∀ k ∈ between, -1 < k.depth := by
  have hlength : (scan "\x7d\\left a (b] + c\x7d".toList).length < 2 ^ 31 := by decide +kernel
  have hscan : scan "\x7d\\left a (b] + c\x7d".toList =
      [⟨⟨.closing .brace, ['}']⟩, 0, -1⟩] ++
        ⟨⟨.opening .delimiter, "\\left".toList⟩, 1, -1⟩ ::
        (scan "\x7d\\left a (b] + c\x7d".toList).drop 2 := by decide +kernel
  have hclosed : ∃ c ∈ (scan "\x7d\\left a (b] + c\x7d".toList).drop 2,
      c.kind.isClosing = true ∧ c.depth ≤ -1 := by decide +kernel
  exact ⟨hlength, _, _, _, hscan, rfl, rfl,
    (graded_scan _ hlength).1.paired _ _ _ hscan rfl hclosed⟩

end MathEdit
