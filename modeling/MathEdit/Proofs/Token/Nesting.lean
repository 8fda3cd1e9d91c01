import Mathlib.Data.List.Induction
import MathEdit.Proofs.Text.Runs
import MathEdit.Token.Scan

/-! # Groups, one construct at a time

The depth of a token comes from one counter for all constructs. Here every construct is matched
against itself only: a brace against braces, an environment against the environments of its name.
A `Nesting` collects the groups that this gives, and the closers that have nothing to close.

* **`nesting ts`**: the groups of a run of tokens, its openers still open and its stray closers.
* **`mem_groups_iff`**: the groups are the pairs of an opener and a closer of one construct that is
  balanced between them.
* **`height_nesting`**: the counter is the number of openers still open less the stray closers.
* **`length_around_le`**: a place lies inside at most as many groups as the counter there and the
  stray closers before it add up to.
-/

namespace MathEdit

/-- What the tokens read so far open and close. -/
structure Nesting where
  /-- The groups: openers, each with the closer that closes it. -/
  groups : List (Token × Token)
  /-- The openers that nothing has closed yet, the latest first. -/
  opened : List Token
  /-- The closers that came when no opener of their construct was open. -/
  stray : List Token
  deriving DecidableEq, Repr

namespace Nesting

/-- Whether a token opens the construct. -/
def opens (group : Group) (t : Token) : Bool := t.kind = .opening group

/-- Reads a token: a closer closes the latest opener of its construct that is still open. -/
def step (n : Nesting) (t : Token) : Nesting :=
  match t.kind with
  | .opening _ => { n with opened := t :: n.opened }
  | .closing group =>
      match n.opened.find? (opens group) with
      | some o => { n with groups := (o, t) :: n.groups, opened := n.opened.eraseP (opens group) }
      | none => { n with stray := t :: n.stray }
  | _ => n

/-- The groups that an offset lies inside of. -/
def around (n : Nesting) (p : Nat) : List (Token × Token) :=
  n.groups.filter fun (o, c) => o.position < p ∧ p < c.position

/-- The stray closers before an offset. -/
def strayBefore (n : Nesting) (p : Nat) : List Token := n.stray.filter (·.position < p)

/-- The openers still open less the stray closers. -/
def height (n : Nesting) : Int := n.opened.length - n.stray.length

end Nesting

/-- What a run of tokens opens and closes. -/
def nesting (ts : List Token) : Nesting := ts.foldl Nesting.step ⟨[], [], []⟩

namespace Nesting

/-- All that a token can do to a nesting. -/
inductive Steps (t : Token) (n : Nesting) : Nesting → Prop
  | opening {group : Group} (h : t.kind = .opening group) :
      Steps t n { n with opened := t :: n.opened }
  | closing {group : Group} {o : Token} {newer older : List Token} (h : t.kind = .closing group)
      (ho : o.kind = .opening group) (hnewer : ∀ u ∈ newer, u.kind ≠ .opening group)
      (hopened : n.opened = newer ++ o :: older) :
      Steps t n { n with groups := (o, t) :: n.groups, opened := newer ++ older }
  | stray {group : Group} (h : t.kind = .closing group)
      (hopened : ∀ u ∈ n.opened, u.kind ≠ .opening group) :
      Steps t n { n with stray := t :: n.stray }
  | other (ho : ∀ group, t.kind ≠ .opening group) (hc : ∀ group, t.kind ≠ .closing group) :
      Steps t n n

/-- A token takes a nesting one of these steps. -/
theorem steps_step (n : Nesting) (t : Token) : Steps t n (n.step t) := by
  unfold step
  split
  · next h => exact .opening h
  · next group h =>
      split
      · next o ho =>
          obtain ⟨hkind, newer, older, hopened, hnewer⟩ := List.find?_eq_some_iff_append.1 ho
          -- the opener that is found is the one that is taken out
          have herase : n.opened.eraseP (opens group) = newer ++ older := by
            rw [hopened, List.eraseP_append_right _ fun u hu => by simpa using hnewer u hu,
              List.eraseP_cons_of_pos hkind]
          rw [herase]
          refine .closing h (by simpa [opens] using hkind) ?_ hopened
          intro u hu
          simpa [opens] using hnewer u hu
      · next ho =>
          apply Steps.stray h
          intro u hu
          simpa [opens] using List.find?_eq_none.1 ho u hu
  · next ho hc => exact .other ho hc

/-- So the nesting of a run takes one with each further token. -/
theorem steps_nesting (ts : List Token) (t : Token) :
    Steps t (nesting ts) (nesting (ts ++ [t])) := by
  have h : nesting (ts ++ [t]) = (nesting ts).step t := by
    rw [nesting, List.foldl_append]
    rfl
  rw [h]
  exact steps_step _ _

/-! ## Where the tokens come from -/

/-- Every token of a nesting is one of those read. -/
structure Within (n : Nesting) (ts : List Token) : Prop where
  opened : ∀ o ∈ n.opened, o ∈ ts
  closers : ∀ g ∈ n.groups, g.2 ∈ ts
  stray : ∀ c ∈ n.stray, c ∈ ts

/-- The nesting of a run is made of its tokens. -/
theorem within_nesting (ts : List Token) : (nesting ts).Within ts := by
  -- the nesting is read from the front, so the induction adds tokens at the end
  induction ts using List.reverseRecOn with
  | nil => exact ⟨by simp [nesting], by simp [nesting], by simp [nesting]⟩
  | append_singleton ts t ih =>
      have hopened : ∀ o ∈ (nesting ts).opened, o ∈ ts ++ [t] := fun o ho =>
        List.mem_append_left _ (ih.opened o ho)
      have hclosers : ∀ g ∈ (nesting ts).groups, g.2 ∈ ts ++ [t] := fun g hg =>
        List.mem_append_left _ (ih.closers g hg)
      have hstray : ∀ c ∈ (nesting ts).stray, c ∈ ts ++ [t] := fun c hc =>
        List.mem_append_left _ (ih.stray c hc)
      have hsteps := steps_nesting ts t
      generalize nesting (ts ++ [t]) = m at hsteps
      cases hsteps with
      | opening h => exact ⟨by simpa using hopened, hclosers, hstray⟩
      | closing h ho hnewer hsplit =>
          rw [hsplit] at hopened
          refine ⟨fun u hu => hopened u ?_, by simpa using hclosers, hstray⟩
          simp only [List.mem_append, List.mem_cons] at hu ⊢
          tauto
      | stray h hnone => exact ⟨hopened, hclosers, by simpa using hstray⟩
      | other => exact ⟨hopened, hclosers, hstray⟩

/-! ## The counter -/

/-- A token changes the height as it changes the depth. -/
theorem Steps.height_eq {n m : Nesting} {t : Token} (h : Steps t n m) :
    m.height = n.height + t.kind.shift := by
  cases h with
  | opening h =>
      simp only [height, h, Token.Kind.shift, List.length_cons]
      omega
  | closing h ho hnewer hsplit =>
      simp only [height, h, hsplit, Token.Kind.shift, List.length_append, List.length_cons]
      omega
  | stray h hnone =>
      simp only [height, h, Token.Kind.shift, List.length_cons]
      omega
  -- a token that is no bracket shifts nothing
  | other ho hc =>
      have hshift : t.kind.shift = 0 := by
        unfold Token.Kind.shift
        split
        · next h => exact absurd h (ho _)
        · next h => exact absurd h (hc _)
        · rfl
      rw [hshift, Int.add_zero]

/-- A run moves the height of a nesting as it moves the depth. -/
theorem height_foldl (n : Nesting) (ts : List Token) :
    (ts.foldl step n).height = n.height + Lexeme.depth (ts.map Token.toLexeme) := by
  induction ts generalizing n with
  | nil => simp [Lexeme.depth]
  | cons t ts ih =>
      rw [List.foldl_cons, ih, (steps_step n t).height_eq, List.map_cons, Lexeme.depth]
      omega

/-- The depth after a run of tokens is the number of openers still open less the stray closers. -/
theorem height_nesting (ts : List Token) :
    (nesting ts).height = Lexeme.depth (ts.map Token.toLexeme) := by
  rw [nesting, height_foldl]
  simp [height]

/-! ## Groups around a place -/

/-- Tokens at or after an offset close no more groups around it than there are openers open
before it. -/
theorem Steps.length_around_add_le {n m : Nesting} {t : Token} {p : Nat} (h : Steps t n m)
    (hp : p ≤ t.position) :
    (m.around p).length + (m.opened.filter (·.position < p)).length
      ≤ (n.around p).length + (n.opened.filter (·.position < p)).length := by
  have ht : ¬ t.position < p := Nat.not_lt.2 hp
  cases h with
  | opening =>
      -- `t` does not lie before `p`, so it is not counted
      simp [around, ht]
  | @closing _ o newer older _ _ _ hsplit =>
      -- the group that `t` closes lies around `p` only if its opener was counted
      by_cases ho : o.position < p
      · by_cases hc : p < t.position
        · simp [around, hsplit, ho, hc]
          omega
        · simp [around, hsplit, ho, hc]
      · simp [around, hsplit, ho]
  | stray => exact Nat.le_refl _
  | other => exact Nat.le_refl _

/-- No later token makes a place lie inside more groups than there were openers open at it. -/
theorem length_around_foldl_le {n : Nesting} {ts : List Token} {p : Nat}
    (h : ∀ t ∈ ts, p ≤ t.position) :
    ((ts.foldl step n).around p).length
      ≤ (n.around p).length + (n.opened.filter (·.position < p)).length := by
  induction ts generalizing n with
  | nil => exact Nat.le_add_right _ _
  | cons t ts ih =>
      have hstep := (steps_step n t).length_around_add_le (h t List.mem_cons_self)
      have := ih (n := n.step t) fun u hu => h u (List.mem_cons_of_mem _ hu)
      rw [List.foldl_cons]
      omega

/-- Groups and stray closers stay. -/
theorem Steps.suffixes {n m : Nesting} {t : Token} (h : Steps t n m) :
    n.groups <:+ m.groups ∧ n.stray <:+ m.stray := by
  cases h with
  | opening => exact ⟨List.suffix_refl _, List.suffix_refl _⟩
  | closing => exact ⟨List.suffix_cons _ _, List.suffix_refl _⟩
  | stray => exact ⟨List.suffix_refl _, List.suffix_cons _ _⟩
  | other => exact ⟨List.suffix_refl _, List.suffix_refl _⟩

/-- A group stays one, and a stray closer stays one. -/
theorem suffixes_foldl (n : Nesting) (ts : List Token) :
    n.groups <:+ (ts.foldl step n).groups ∧ n.stray <:+ (ts.foldl step n).stray := by
  induction ts generalizing n with
  | nil => exact ⟨List.suffix_refl _, List.suffix_refl _⟩
  | cons t ts ih =>
      obtain ⟨hgroups, hstray⟩ := (steps_step n t).suffixes
      obtain ⟨hgroups', hstray'⟩ := ih (n.step t)
      exact ⟨hgroups.trans hgroups', hstray.trans hstray'⟩

/-- **Depth bounds nesting**: a place lies inside at most as many groups as the depth there and the
stray closers before it add up to. -/
theorem length_around_le {before after : List Token} {p : Nat}
    (hbefore : ∀ t ∈ before, t.position < p) (hafter : ∀ t ∈ after, p ≤ t.position) :
    (((nesting (before ++ after)).around p).length : Int)
      ≤ Lexeme.depth (before.map Token.toLexeme)
        + ((nesting (before ++ after)).strayBefore p).length := by
  have hwithin := within_nesting before
  have hsplit : nesting (before ++ after) = after.foldl step (nesting before) := by
    rw [nesting, List.foldl_append]
    rfl
  -- every group that is complete before `p` ends before `p`
  have hnone : (nesting before).around p = [] := by
    apply List.filter_eq_nil_iff.2
    intro g hg
    have := hbefore _ (hwithin.closers g hg)
    simp only [decide_eq_true_eq]
    omega
  -- and every stray closer before `p` is still there at the end
  have hstray : (nesting before).stray.length
      ≤ ((nesting (before ++ after)).strayBefore p).length := by
    have hall : (nesting before).stray.filter (·.position < p) = (nesting before).stray :=
      List.filter_eq_self.2 fun c hc => by simpa using hbefore _ (hwithin.stray c hc)
    rw [strayBefore, hsplit, ← hall]
    exact ((suffixes_foldl _ after).2.sublist.filter _).length_le
  have haround := length_around_foldl_le (n := nesting before) hafter
  have hopened := List.length_filter_le (·.position < p) (nesting before).opened
  have hheight := height_nesting before
  rw [hnone, ← hsplit, List.length_nil] at haround
  rw [height] at hheight
  omega

/-! ## The ends of a group -/

/-- The openers of a construct less its closers. -/
def excess (group : Group) (ts : List Token) : Int :=
  (ts.countP (opens group) : Int) - (ts.countP fun t => t.kind = .closing group)

/-- One token counts if it is of the construct. -/
theorem excess_singleton (group : Group) (t : Token) :
    excess group [t]
      = if t.kind = .opening group then 1 else if t.kind = .closing group then -1 else 0 := by
  by_cases ho : t.kind = .opening group
  · simp [excess, opens, ho]
  · by_cases hc : t.kind = .closing group <;> simp [excess, opens, ho, hc]

/-- Whether every closer of a construct in a run of tokens closes an opener of the run, so that
`left` openers are left open. -/
structure LeavesOpen (group : Group) (left : Nat) (ts : List Token) : Prop where
  nonneg : ∀ front, front <+: ts → 0 ≤ excess group front
  total : excess group ts = left

/-- No tokens leave nothing open. -/
theorem leavesOpen_nil (group : Group) : LeavesOpen group 0 [] where
  nonneg front h := by
    rw [List.prefix_nil.1 h]
    exact Int.le_refl 0
  total := rfl

/-- One more token changes what is left open by its own share. -/
theorem LeavesOpen.append {group : Group} {left left' : Nat} {ts : List Token} {t : Token}
    (h : LeavesOpen group left ts) (ht : (left' : Int) = left + excess group [t]) :
    LeavesOpen group left' (ts ++ [t]) := by
  have htotal : excess group (ts ++ [t]) = left' := by
    have := h.total
    simp only [excess, List.countP_append] at this ht ⊢
    omega
  refine ⟨?_, htotal⟩
  intro front hfront
  rcases List.prefix_concat_iff.1 hfront with rfl | hfront
  · -- the only new front is the whole run
    rw [htotal]
    omega
  · exact h.nonneg front hfront

/-- Whether two tokens are the ends of a group of a run of tokens: an opener and a closer of one
construct, which is balanced between them. -/
def Matched (ts : List Token) (o c : Token) : Prop :=
  ∃ group front mid back, ts = front ++ o :: mid ++ c :: back ∧ o.kind = .opening group ∧
    c.kind = .closing group ∧ LeavesOpen group 0 mid

/-- The ends of a group stay so with more tokens behind them. -/
theorem Matched.append {ts : List Token} {o c t : Token} (h : Matched ts o c) :
    Matched (ts ++ [t]) o c := by
  obtain ⟨group, front, mid, back, rfl, ho, hc, hmid⟩ := h
  exact ⟨group, front, mid, back ++ [t], by simp, ho, hc, hmid⟩

/-- What is known of an opener still open, with `newer` the openers still open after it: as many of
its construct as `newer` holds are left open behind it. -/
def Pending (ts newer : List Token) (o : Token) : Prop :=
  ∀ group, o.kind = .opening group → ∃ front rest, ts = front ++ o :: rest ∧
    LeavesOpen group (newer.countP (opens group)) rest

/-- An opener stays open behind a token that is counted with the newer ones. -/
theorem Pending.append {ts newer newer' : List Token} {o t : Token} (h : Pending ts newer o)
    (ht : ∀ group, o.kind = .opening group →
      (newer'.countP (opens group) : Int) = newer.countP (opens group) + excess group [t]) :
    Pending (ts ++ [t]) newer' o := by
  intro group ho
  obtain ⟨front, rest, rfl, hrest⟩ := h group ho
  exact ⟨front, rest ++ [t], by simp, hrest.append (ht group ho)⟩

/-- Whether all openers still open are as the tokens read show them. -/
def AllPending (ts : List Token) (n : Nesting) : Prop :=
  ∀ newer o older, n.opened = newer ++ o :: older → Pending ts newer o

/-- An element of two lists in a row stands in the second or in the first. -/
theorem append_eq_append_cons {α : Type} {xs ys before after : List α} {x : α}
    (h : xs ++ ys = before ++ x :: after) :
    (∃ mid, before = xs ++ mid ∧ ys = mid ++ x :: after) ∨
      ∃ mid, xs = before ++ x :: mid ∧ after = mid ++ ys := by
  rcases List.append_eq_append_iff.1 h with h | ⟨mid, hmid, hrest⟩
  · exact .inl h
  · cases mid with
    | nil => exact .inl ⟨[], by simpa using hmid.symm, by simpa using hrest.symm⟩
    | cons u mid =>
        obtain ⟨rfl, hafter⟩ := List.cons.inj hrest
        exact .inr ⟨mid, hmid, hafter⟩

/-- A token leaves the openers still open as it shows them. -/
theorem Steps.allPending {ts : List Token} {n m : Nesting} {t : Token} (h : Steps t n m)
    (hn : AllPending ts n) : AllPending (ts ++ [t]) m := by
  intro newer' o' older' heq
  cases h with
  | @opening group h =>
      rcases List.cons_eq_append_iff.1 heq with ⟨rfl, heq'⟩ | ⟨newer, rfl, heq'⟩
      · -- the token itself is the latest opener, with nothing behind it
        obtain ⟨rfl, rfl⟩ := List.cons.inj heq'
        exact fun group' _ => ⟨ts, [], rfl, leavesOpen_nil group'⟩
      · -- an earlier opener has one more opener behind it
        apply (hn newer o' older' heq').append
        intro group' ho
        simp [excess, opens, h, List.countP_cons]
  | @closing group o newer older h ho hnewer hsplit =>
      rcases append_eq_append_cons heq with ⟨mid, rfl, rfl⟩ | ⟨mid, rfl, -⟩
      · -- the opener stands before the closed one, which is counted no more
        have hpending := hn (newer ++ o :: mid) o' older' (by simpa using hsplit)
        apply hpending.append
        intro group' _
        by_cases hgroup : group = group' <;>
          simp [excess_singleton, opens, h, ho, hgroup, List.countP_append]
        omega
      · -- the opener stands after the closed one, so it is of another construct
        have hpending := hn newer' o' (mid ++ o :: older) (by simpa using hsplit)
        apply hpending.append
        intro group' ho'
        have hne : group ≠ group' := by
          rintro rfl
          exact hnewer o' (by simp) ho'
        simp [excess_singleton, h, hne]
  | @stray group h hnone =>
      -- no opener of the construct is open, so the one at hand is of another
      have hopened : n.opened = newer' ++ o' :: older' := heq
      apply (hn newer' o' older' hopened).append
      intro group' ho
      have hne : group ≠ group' := by
        rintro rfl
        exact hnone o' (by simp [hopened]) ho
      simp [excess_singleton, h, hne]
  | other ho hc =>
      apply (hn newer' o' older' heq).append
      intro group' _
      simp [excess_singleton, ho, hc]

/-- A token closes a group only where the tokens show one. -/
theorem Steps.matched {ts : List Token} {n m : Nesting} {t : Token} (h : Steps t n m)
    (hn : AllPending ts n) (hgroups : ∀ g ∈ n.groups, Matched ts g.1 g.2) :
    ∀ g ∈ m.groups, Matched (ts ++ [t]) g.1 g.2 := by
  have hold : ∀ g ∈ n.groups, Matched (ts ++ [t]) g.1 g.2 := fun g hg => (hgroups g hg).append
  cases h with
  | @closing group o newer older h ho hnewer hsplit =>
      have hnone : newer.countP (opens group) = 0 :=
        List.countP_eq_zero.2 fun u hu => by simpa [opens] using hnewer u hu
      intro g hg
      rcases List.mem_cons.1 hg with rfl | hg
      · -- no opener of the construct is left open between the two
        obtain ⟨front, rest, rfl, hrest⟩ := hn newer o older hsplit group ho
        rw [hnone] at hrest
        exact ⟨group, front, rest, [], by simp, ho, h, hrest⟩
      · exact hold g hg
  | opening => exact hold
  | stray => exact hold
  | other => exact hold

/-- What is open and what is closed is so by counting. -/
theorem allPending_and_matched (ts : List Token) :
    AllPending ts (nesting ts) ∧ ∀ g ∈ (nesting ts).groups, Matched ts g.1 g.2 := by
  induction ts using List.reverseRecOn with
  | nil => simp [AllPending, nesting]
  | append_singleton ts t ih =>
      have hsteps := steps_nesting ts t
      exact ⟨hsteps.allPending ih.1, hsteps.matched ih.1 ih.2⟩

/-- A token that closes no opener of a construct but later ones leaves an opener of it open. -/
theorem Steps.exists_opened {n m : Nesting} {t : Token} (h : Steps t n m) {group : Group}
    {o : Token} (ho : o.kind = .opening group) {newer older : List Token}
    (hn : n.opened = newer ++ o :: older) {left : Nat}
    (hleft : (left : Int) = newer.countP (opens group) + excess group [t]) :
    ∃ newer' older', m.opened = newer' ++ o :: older' ∧ newer'.countP (opens group) = left := by
  cases h with
  | @opening group' h =>
      refine ⟨t :: newer, older, by rw [hn, List.cons_append], ?_⟩
      by_cases hgroup : group' = group <;>
        simp [excess_singleton, opens, h, hgroup] at hleft ⊢ <;> omega
  | @closing group' o' newer' older' h ho' hnewer hsplit =>
      rw [hsplit] at hn
      rcases append_eq_append_cons hn with ⟨mid, rfl, hrest⟩ | ⟨mid, rfl, rfl⟩
      · cases mid with
        | nil =>
            -- the opener itself cannot be the one that is closed
            obtain ⟨rfl, rfl⟩ := List.cons.inj hrest
            obtain rfl : group' = group := by simpa [ho'] using ho
            have hnone : newer'.countP (opens group') = 0 :=
              List.countP_eq_zero.2 fun u hu => by simpa [opens] using hnewer u hu
            simp [excess_singleton, h, hnone] at hleft
        | cons _ mid =>
            -- a later opener is closed
            obtain ⟨rfl, rfl⟩ := List.cons.inj hrest
            refine ⟨newer' ++ mid, older, by simp, ?_⟩
            by_cases hgroup : group' = group <;>
              simp [excess_singleton, opens, h, ho', hgroup, List.countP_append] at hleft ⊢ <;>
              omega
      · -- an earlier opener is closed, so it is of another construct
        have hne : group' ≠ group := by
          rintro rfl
          exact hnewer o (by simp) ho
        refine ⟨newer, mid ++ older', by simp, ?_⟩
        simp [excess_singleton, h, hne] at hleft
        omega
  | @stray group' h hnone =>
      have hne : group' ≠ group := by
        rintro rfl
        exact hnone o (by simp [hn]) ho
      refine ⟨newer, older, hn, ?_⟩
      simp [excess_singleton, h, hne] at hleft
      omega
  | other hopening hclosing =>
      refine ⟨newer, older, hn, ?_⟩
      simp [excess_singleton, hopening, hclosing] at hleft
      omega

/-- An opener stays open behind later ones as long as no closer of its construct is left over. -/
theorem exists_opened_of_leavesOpen {group : Group} {o : Token} (ho : o.kind = .opening group)
    {n : Nesting} {older : List Token} (hn : n.opened = o :: older) {mid : List Token} {left : Nat}
    (hmid : LeavesOpen group left mid) :
    ∃ newer older, (mid.foldl step n).opened = newer ++ o :: older ∧
      newer.countP (opens group) = left := by
  induction mid using List.reverseRecOn generalizing left with
  | nil =>
      have hleft := hmid.total
      refine ⟨[], older, hn, ?_⟩
      simp only [excess, List.countP_nil] at hleft ⊢
      omega
  | append_singleton mid t ih =>
      -- a front of the run leaves some number of openers open, which the last token changes
      have hfront : LeavesOpen group (excess group mid).toNat mid := by
        refine ⟨fun front h => hmid.nonneg front (h.trans (List.prefix_append _ _)), ?_⟩
        exact (Int.toNat_of_nonneg (hmid.nonneg mid (List.prefix_append _ _))).symm
      obtain ⟨newer, older, hopened, hcount⟩ := ih hfront
      have hleft : (left : Int) = newer.countP (opens group) + excess group [t] := by
        have htotal := hmid.total
        have hfront' := hfront.total
        rw [← hcount] at hfront'
        simp only [excess, List.countP_append] at htotal hfront' ⊢
        omega
      rw [List.foldl_append]
      exact (steps_step _ t).exists_opened ho hopened hleft

/-- **Groups**: the groups of a run of tokens are the pairs of an opener and a closer of one
construct that is balanced between them. -/
theorem mem_groups_iff {ts : List Token} {o c : Token} :
    (o, c) ∈ (nesting ts).groups ↔ Matched ts o c := by
  constructor
  · exact (allPending_and_matched ts).2 (o, c)
  · rintro ⟨group, front, mid, back, rfl, ho, hc, hmid⟩
    have hopen : ((nesting front).step o).opened = o :: (nesting front).opened := by
      simp [step, ho]
    obtain ⟨newer, older, hopened, hcount⟩ := exists_opened_of_leavesOpen ho hopen hmid
    -- the openers behind `o` are of other constructs, so `c` closes `o`
    have hnone : newer.find? (opens group) = none := by
      rw [List.find?_eq_none]
      exact List.countP_eq_zero.1 hcount
    have hfind : (newer ++ o :: older).find? (opens group) = some o := by
      rw [List.find?_append, hnone, List.find?_cons_of_pos (by simp [opens, ho])]
      rfl
    have hwhole : nesting (front ++ o :: mid ++ c :: back)
        = back.foldl step ((mid.foldl step ((nesting front).step o)).step c) := by
      simp [nesting]
    rw [hwhole]
    generalize mid.foldl step ((nesting front).step o) = n at hopened
    have hclosed : (n.step c).groups = (o, c) :: n.groups := by simp [step, hc, hopened, hfind]
    apply (suffixes_foldl (n.step c) back).1.subset
    rw [hclosed]
    exact List.mem_cons_self

end Nesting

end MathEdit
