import MathEdit.Proofs.Region.FirstCloser
import MathEdit.Proofs.Region.Located

/-! # The closing tag that balances

Environments of one name pair up by balance: the closing tag of an environment is the first one with
as many opening as closing tags of its name between it and the opening tag. Tags count where they
stand at live places, so the same can be said about the text of a document, without its atoms.

* **`balancedBy?_eq_some_iff`**: the search for a closing tag stops at the first one that balances.
* **`StandsLive`**, **`liveCount`**: where a piece of text stands at a live place, and how often.
* **`located_environment_iff`**: when a tag opens an environment, and where that ends. -/

namespace MathEdit

namespace Region

/-! ## Balance among atoms -/

/-- How often a pattern starts among the first atoms. -/
def startsBefore (pattern as : List Atom) (k : Nat) : Nat :=
  Nat.count (fun i => pattern <+: as.drop i) k

/-- The first atom is one more place where a pattern may start. -/
theorem startsBefore_cons_succ (pattern as : List Atom) (a : Atom) (k : Nat) :
    startsBefore pattern (a :: as) (k + 1) =
      startsBefore pattern as k + if pattern <+: a :: as then 1 else 0 := by
  rw [startsBefore, Nat.count_succ']
  rfl

/-- Whether a closing tag behind the first `k` atoms balances if `depth` levels are open before
them: as many closing tags start among these atoms as levels are open and opening tags start. -/
structure BalancesAt (opening closing : List Atom) (depth : Nat) (as : List Atom) (k : Nat) :
    Prop where
  closes : closing <+: as.drop k
  level : startsBefore closing as k = depth + startsBefore opening as k

/-- What it means for a closing tag to balance. -/
theorem balancesAt_iff {opening closing as : List Atom} {depth k : Nat} :
    BalancesAt opening closing depth as k ↔
      closing <+: as.drop k ∧ startsBefore closing as k = depth + startsBefore opening as k :=
  ⟨fun h => ⟨h.closes, h.level⟩, fun h => ⟨h.1, h.2⟩⟩

/-- A least number above zero is one more than the least one for the rest. -/
theorem isLeast_succ_iff {p q : Nat → Prop} (hzero : ¬ p 0) (hsucc : ∀ k, p (k + 1) ↔ q k)
    {n : Nat} : IsLeast {k | p k} (n + 1) ↔ IsLeast {k | q k} n := by
  constructor
  · rintro ⟨hmem, hle⟩
    exact ⟨(hsucc n).1 hmem, fun k hk => Nat.le_of_succ_le_succ (hle ((hsucc k).2 hk))⟩
  · rintro ⟨hmem, hle⟩
    refine ⟨(hsucc n).2 hmem, ?_⟩
    rintro (_ | k) hk
    · exact absurd hk hzero
    · exact Nat.succ_le_succ (hle ((hsucc k).1 hk))

variable {opening closing as body rest : List Atom} {depth : Nat} {a : Atom}

/-- Past its first atom, which does not balance, the search goes on with the levels open then. -/
theorem isLeast_cons_iff {depth' : Nat} (hzero : ¬ BalancesAt opening closing depth (a :: as) 0)
    (hsucc : ∀ k, BalancesAt opening closing depth (a :: as) (k + 1) ↔
      BalancesAt opening closing depth' as k)
    (ih : ∀ body, balancedBy? opening closing depth' as = some (body, rest) ↔
      as = body ++ closing ++ rest ∧
        IsLeast {k | BalancesAt opening closing depth' as k} body.length) :
    ((balancedBy? opening closing depth' as).map fun (body, rest) => (a :: body, rest)) =
        some (body, rest) ↔
      a :: as = body ++ closing ++ rest ∧
        IsLeast {k | BalancesAt opening closing depth (a :: as) k} body.length := by
  cases body with
  | nil =>
      constructor
      · intro h
        obtain ⟨found, -, he⟩ := Option.map_eq_some_iff.1 h
        cases he
      · rintro ⟨-, hleast, -⟩
        exact absurd hleast hzero
  -- the first atom balances nothing, so the least place is one of those behind it
  | cons b body =>
      rw [List.length_cons, isLeast_succ_iff hzero hsucc, List.cons_append, List.cons_append,
        List.cons_eq_cons]
      constructor
      · intro h
        obtain ⟨found, hfound, he⟩ := Option.map_eq_some_iff.1 h
        obtain ⟨hbody, rfl⟩ := Prod.mk.inj he
        obtain ⟨rfl, rfl⟩ := List.cons.inj hbody
        obtain ⟨happend, hleast⟩ := (ih _).1 hfound
        exact ⟨⟨rfl, happend⟩, hleast⟩
      · rintro ⟨⟨rfl, hbody⟩, hleast⟩
        rw [map_cons_eq_some, ih]
        exact ⟨hbody, hleast⟩

/-- **The search for a closing tag** stops at the first one that balances. -/
theorem balancedBy?_eq_some_iff (hne : closing ≠ [])
    (hapart : ∀ xs, closing <+: xs → ¬ opening <+: xs) :
    balancedBy? opening closing depth as = some (body, rest) ↔
      as = body ++ closing ++ rest ∧
        IsLeast {k | BalancesAt opening closing depth as k} body.length := by
  induction as generalizing depth body with
  | nil => simp [balancedBy?, hne]
  | cons a as ih =>
      simp only [balancedBy?]
      by_cases hclosing : closing <+: a :: as
      · have hopening : ¬ opening <+: a :: as := hapart _ hclosing
        rw [if_pos (List.isPrefixOf_iff_prefix.2 hclosing)]
        cases depth with
        | zero =>
            -- this is the first place of all
            have hzero : BalancesAt opening closing 0 (a :: as) 0 := ⟨hclosing, rfl⟩
            constructor
            · intro h
              obtain ⟨rfl, rfl⟩ := Prod.mk.inj (Option.some.inj h)
              exact ⟨List.prefix_iff_eq_append.1 hclosing |>.symm, hzero, fun k _ => Nat.zero_le k⟩
            · rintro ⟨happend, -, hle⟩
              obtain rfl := List.length_eq_zero_iff.1 (Nat.le_zero.1 (hle hzero))
              rw [List.nil_append] at happend
              rw [happend, List.drop_left]
        | succ depth =>
            refine isLeast_cons_iff ?_ ?_ fun body => ih
            · rintro ⟨-, hlevel⟩
              simp [startsBefore] at hlevel
            · intro k
              rw [balancesAt_iff, balancesAt_iff, startsBefore_cons_succ, startsBefore_cons_succ,
                if_pos hclosing, if_neg hopening, List.drop_succ_cons]
              refine and_congr_right fun _ => ?_
              omega
      · rw [if_neg (mt List.isPrefixOf_iff_prefix.1 hclosing)]
        refine isLeast_cons_iff ?_ ?_ fun body => ih
        · exact fun h => hclosing h.closes
        · intro k
          rw [balancesAt_iff, balancesAt_iff, startsBefore_cons_succ, startsBefore_cons_succ,
            if_neg hclosing, List.drop_succ_cons]
          simp only [List.isPrefixOf_iff_prefix]
          refine and_congr_right fun _ => ?_
          split <;> omega

/-- A pattern that starts somewhere starts among the atoms. -/
theorem le_length_of_prefix_drop {pattern : List Atom} (hne : pattern ≠ []) {i : Nat}
    (h : pattern <+: as.drop i) : i ≤ as.length := by
  by_contra hlt
  rw [List.drop_eq_nil_of_le (Nat.le_of_not_le hlt), List.prefix_nil] at h
  exact hne h

/-- And it splits them there. -/
theorem exists_append_of_prefix_drop {pattern : List Atom} (hne : pattern ≠ []) {k : Nat}
    (h : pattern <+: as.drop k) :
    ∃ front back, as = front ++ pattern ++ back ∧ front.length = k := by
  obtain ⟨back, hback⟩ := h
  refine ⟨as.take k, back, ?_, ?_⟩
  · rw [List.append_assoc, hback, List.take_append_drop]
  · exact List.length_take_of_le (le_length_of_prefix_drop hne ⟨back, hback⟩)

end Region

/-! ## Live places of a piece of text -/

/-- Whether a piece of text stands at an offset of a text that is a live place. -/
def StandsLive (piece t : Text) (offset : Nat) : Prop :=
  ∃ before after, t = before ++ (piece ++ after) ∧ Text.width before = offset ∧ Live before

/-- Where a piece of text stands at a live place can be found by looking. -/
theorem standsLive_iff_takeBytes {piece t : Text} {offset : Nat} :
    StandsLive piece t offset ↔ Text.width (Text.takeBytes offset t) = offset ∧
      piece <+: Text.dropBytes offset t ∧ Live (Text.takeBytes offset t) := by
  constructor
  · rintro ⟨before, after, rfl, rfl, hlive⟩
    rw [Text.takeBytes_width_append, Text.dropBytes_width_append]
    exact ⟨rfl, List.prefix_append piece after, hlive⟩
  · rintro ⟨hwidth, ⟨after, hafter⟩, hlive⟩
    exact ⟨_, after, by rw [hafter, Text.takeBytes_append_dropBytes], hwidth, hlive⟩

instance (piece t : Text) : DecidablePred (StandsLive piece t) :=
  fun _ => decidable_of_iff _ standsLive_iff_takeBytes.symm

/-- The number of live places from `start` on and before `stop` where a piece of text stands. -/
def liveCount (piece t : Text) (start stop : Nat) : Nat :=
  ((Finset.Ico start stop).filter (StandsLive piece t)).card

/-- Behind a live place a piece of text stands where it does in the text that follows. -/
theorem standsLive_append_iff {s : Text} (hs : Live s) {piece u : Text} {n : Nat} :
    StandsLive piece (s ++ u) (Text.width s + n) ↔ StandsLive piece u n := by
  constructor
  · rintro ⟨before, after, hsplit, hwidth, hlive⟩
    obtain ⟨x, rfl, hu⟩ := Text.exists_append_of_width_le hsplit (hwidth ▸ Nat.le_add_right _ _)
    rw [Text.width_append] at hwidth
    exact ⟨x, after, hu, Nat.add_left_cancel hwidth, hs.append_iff.1 hlive⟩
  · rintro ⟨before, after, rfl, rfl, hlive⟩
    exact ⟨s ++ before, after, by simp, Text.width_append s before, hs.append_iff.2 hlive⟩

namespace Region

/-! ## Atoms and offsets -/

/-- The number of bytes of the first atoms. -/
def offsetAfter (as : List Atom) (k : Nat) : Nat := Text.width (Atom.join (as.take k))

variable {as : List Atom}

/-- The offsets of atoms are in their order. -/
theorem strictMonoOn_offsetAfter : StrictMonoOn (offsetAfter as) (Set.Iic as.length) := by
  intro i _ j hj hij
  obtain ⟨n, rfl⟩ := Nat.exists_eq_add_of_lt hij
  have hlength : i < as.length := Nat.lt_of_lt_of_le hij hj
  have htake : as.take (i + n + 1) = as.take i ++ as[i] :: (as.drop (i + 1)).take n := by
    rw [Nat.add_assoc, List.take_add, List.drop_eq_getElem_cons hlength, List.take_succ_cons]
  have hpos := as[i].width_pos
  rw [offsetAfter, offsetAfter, htake, Atom.join_append, Atom.join_cons, Text.width_append,
    Text.width_append]
  rw [Atom.width] at hpos
  omega

/-- A piece of text that is like a delimiter stands where its atoms do. -/
theorem standsLive_iff_prefix {piece : Text} (hpiece : Delimiting (atoms piece)) {u : Text}
    {n : Nat} :
    StandsLive piece u n ↔
      ∃ i, atoms piece <+: (atoms u).drop i ∧ n = offsetAfter (atoms u) i := by
  constructor
  · rintro ⟨before, after, rfl, rfl, hlive⟩
    have hafter := atoms_append_of_forall (fun a ha => (hpiece.forall_mem a ha).1) after
    refine ⟨(atoms before).length, ?_, ?_⟩
    · rw [hlive.atoms_append, List.drop_left, hafter]
      exact List.prefix_append _ _
    · rw [offsetAfter, hlive.atoms_append, List.take_left, join_atoms]
  · rintro ⟨i, ⟨back, hback⟩, rfl⟩
    have hatoms : atoms u = (atoms u).take i ++ (atoms piece ++ back) := by
      rw [hback, List.take_append_drop]
    refine ⟨Atom.join ((atoms u).take i), Atom.join back, ?_, rfl, ?_⟩
    -- the atoms split the text at the piece
    · conv_lhs => rw [← join_atoms u, hatoms]
      rw [Atom.join_append, Atom.join_append, join_atoms]
    -- and a place where a delimiter starts is live
    · obtain ⟨a, tail, hcons, hleads, -⟩ := hpiece
      rw [hcons, List.cons_append] at hatoms
      exact live_join_of_append hatoms hleads.ne_newline

/-- Between two atoms the live places of a piece of text are counted by its atoms. -/
theorem liveCount_eq_startsBefore {piece : Text} (hpiece : Delimiting (atoms piece)) {s : Text}
    (hs : Live s) {u : Text} {k : Nat} (hk : k ≤ (atoms u).length) :
    liveCount piece (s ++ u) (Text.width s) (Text.width s + offsetAfter (atoms u) k) =
      startsBefore (atoms piece) (atoms u) k := by
  have hne := hpiece.ne_nil
  -- the live places are those of the atoms, in bytes
  have hplaces : (Finset.Ico (Text.width s) (Text.width s + offsetAfter (atoms u) k)).filter
        (StandsLive piece (s ++ u)) =
      ((Finset.range k).filter fun i => atoms piece <+: (atoms u).drop i).image
        fun i => Text.width s + offsetAfter (atoms u) i := by
    ext o
    simp only [Finset.mem_filter, Finset.mem_Ico, Finset.mem_image, Finset.mem_range]
    constructor
    · rintro ⟨⟨hle, hlt⟩, hlive⟩
      obtain ⟨n, rfl⟩ := Nat.exists_eq_add_of_le hle
      rw [standsLive_append_iff hs, standsLive_iff_prefix hpiece] at hlive
      obtain ⟨i, hi, rfl⟩ := hlive
      have hik := (strictMonoOn_offsetAfter.lt_iff_lt (le_length_of_prefix_drop hne hi) hk).1
        (Nat.lt_of_add_lt_add_left hlt)
      exact ⟨i, ⟨hik, hi⟩, rfl⟩
    · rintro ⟨i, ⟨hik, hi⟩, rfl⟩
      have hlength := le_length_of_prefix_drop hne hi
      refine ⟨⟨Nat.le_add_right _ _, ?_⟩, ?_⟩
      · exact Nat.add_lt_add_left (strictMonoOn_offsetAfter hlength hk hik) _
      · rw [standsLive_append_iff hs, standsLive_iff_prefix hpiece]
        exact ⟨i, hi, rfl⟩
  rw [liveCount, hplaces, startsBefore, Nat.count_eq_card_filter_range]
  -- no two atoms start at the same byte
  apply Finset.card_image_of_injOn
  intro i hi j hj hij
  have hlength {i : Nat} (hi : i ∈ ((Finset.range k).filter fun i =>
      atoms piece <+: (atoms u).drop i : Finset Nat)) : i ∈ Set.Iic (atoms u).length :=
    le_length_of_prefix_drop hne (Finset.mem_filter.1 hi).2
  exact strictMonoOn_offsetAfter.injOn (hlength hi) (hlength hj) (Nat.add_left_cancel hij)

end Region

/-! ## Balance in a document -/

/-- Whether a closing tag that stands at a live place balances: between `start` and the tag there
are as many opening as closing tags of its name. -/
structure Balances (name t : Text) (start offset : Nat) : Prop where
  le : start ≤ offset
  closes : StandsLive (Environment.closingTag name) t offset
  level : liveCount (Environment.openingTag name) t start offset =
    liveCount (Environment.closingTag name) t start offset

namespace Region

section

variable {name s u : Text}

/-- The tags of a name are like other delimiters. -/
theorem delimiting_tags (hname : ∀ c ∈ name, isNameCharacter c = true) :
    Delimiting (atoms (Environment.openingTag name)) ∧
      Delimiting (atoms (Environment.closingTag name)) := by
  have hd : Named (fun _ => true) (.environment name) := by
    rintro _ ⟨⟩
    exact ⟨hname, rfl⟩
  exact ⟨delimiting_opening hd, delimiting_closing hd⟩

/-- No opening tag starts where a closing tag does. -/
theorem not_openingTag_of_closingTag (hname : ∀ c ∈ name, isNameCharacter c = true) (xs : List Atom)
    (h : atoms (Environment.closingTag name) <+: xs) :
    ¬ atoms (Environment.openingTag name) <+: xs := by
  have hplain := plain_of_isNameCharacter hname
  obtain ⟨rest, rfl⟩ := h
  rw [atoms_openingTag_eq_cons hplain, atoms_closingTag hplain]
  intro hopening
  exact absurd (List.cons_prefix_cons.1 hopening).1 (by simp)

/-- A closing tag balances in a document where it balances among the atoms. -/
theorem balances_iff (hname : ∀ c ∈ name, isNameCharacter c = true) (hs : Live s) {q : Nat} :
    Balances name (s ++ u) (Text.width s) q ↔
      ∃ k, BalancesAt (atoms (Environment.openingTag name)) (atoms (Environment.closingTag name)) 0
          (atoms u) k ∧ q = Text.width s + offsetAfter (atoms u) k := by
  obtain ⟨hopening, hclosing⟩ := delimiting_tags hname
  have hne := hclosing.ne_nil
  constructor
  · rintro ⟨hle, hcloses, hlevel⟩
    obtain ⟨n, rfl⟩ := Nat.exists_eq_add_of_le hle
    rw [standsLive_append_iff hs, standsLive_iff_prefix hclosing] at hcloses
    obtain ⟨k, hk, rfl⟩ := hcloses
    have hlength := le_length_of_prefix_drop hne hk
    rw [liveCount_eq_startsBefore hopening hs hlength,
      liveCount_eq_startsBefore hclosing hs hlength] at hlevel
    exact ⟨k, ⟨hk, by rw [Nat.zero_add, hlevel]⟩, rfl⟩
  · rintro ⟨k, ⟨hk, hlevel⟩, rfl⟩
    have hlength := le_length_of_prefix_drop hne hk
    refine ⟨Nat.le_add_right _ _, ?_, ?_⟩
    · rw [standsLive_append_iff hs, standsLive_iff_prefix hclosing]
      exact ⟨k, hk, rfl⟩
    · rw [liveCount_eq_startsBefore hopening hs hlength,
        liveCount_eq_startsBefore hclosing hs hlength, hlevel, Nat.zero_add]

/-- The first closing tag that balances in a document is the first one among the atoms. -/
theorem isLeast_balances_iff (hname : ∀ c ∈ name, isNameCharacter c = true) (hs : Live s)
    {q : Nat} :
    IsLeast {q | Balances name (s ++ u) (Text.width s) q} q ↔
      ∃ k, IsLeast {k | BalancesAt (atoms (Environment.openingTag name))
          (atoms (Environment.closingTag name)) 0 (atoms u) k} k ∧
        q = Text.width s + offsetAfter (atoms u) k := by
  have hne := (delimiting_tags hname).2.ne_nil
  have hlength {k : Nat} (hk : BalancesAt (atoms (Environment.openingTag name))
      (atoms (Environment.closingTag name)) 0 (atoms u) k) : k ∈ Set.Iic (atoms u).length :=
    le_length_of_prefix_drop hne hk.closes
  constructor
  · rintro ⟨hmem, hle⟩
    obtain ⟨k, hk, rfl⟩ := (balances_iff hname hs).1 hmem
    refine ⟨k, ⟨hk, ?_⟩, rfl⟩
    intro j hj
    -- offsets are in the order of the atoms
    have hoffset := hle ((balances_iff hname hs).2 ⟨j, hj, rfl⟩)
    exact (strictMonoOn_offsetAfter.le_iff_le (hlength hk) (hlength hj)).1
      (Nat.le_of_add_le_add_left hoffset)
  · rintro ⟨k, ⟨hk, hle⟩, rfl⟩
    refine ⟨(balances_iff hname hs).2 ⟨k, hk, rfl⟩, ?_⟩
    intro q hq
    obtain ⟨j, hj, rfl⟩ := (balances_iff hname hs).1 hq
    exact Nat.add_le_add_left
      ((strictMonoOn_offsetAfter.le_iff_le (hlength hk) (hlength hj)).2 (hle hj)) _

end

/-! ## The environment that a tag opens -/

variable {accepts : Text → Bool} {name : Text}

/-- Where no other region lies around a place, a region starts there exactly if a look finds it. -/
theorem mem_regions_iff_matchHead {as bs : List Atom} (hbs : bs ≠ [])
    (houtside : ∀ e ∈ regions accepts 0 (as ++ bs), ¬ (e.start < Text.width (Atom.join as) ∧
      Text.width (Atom.join as) < e.stop)) {region : Region} :
    (region ∈ regions accepts 0 (as ++ bs) ∧ region.start = Text.width (Atom.join as)) ↔
      ∃ m, matchHead accepts false bs = .found m ∧
        region = m.region (Text.width (Atom.join as)) := by
  obtain ⟨b, bs, rfl⟩ := List.exists_cons_of_ne_nil hbs
  have hcross : ∀ e ∈ regions accepts 0 (as ++ b :: bs),
      ¬ (e.start < 0 + Text.width (Atom.join as) ∧ 0 + Text.width (Atom.join as) < e.stop) := by
    simpa using houtside
  obtain ⟨before, hregions, hbefore⟩ := regions_append hcross
  rw [Nat.zero_add] at hregions hbefore
  rw [hregions, List.mem_append]
  constructor
  · rintro ⟨hmem | hmem, hstart⟩
    · have := hbefore region hmem
      have := region.start_lt_stop
      omega
    · cases hm : matchHead accepts false (b :: bs) with
      | found m =>
          rw [regions_of_found hm] at hmem
          rcases List.mem_cons.1 hmem with rfl | hmem
          · exact ⟨m, rfl, rfl⟩
          · -- the next one starts behind the end of this one
            have hstop := (m.region (Text.width (Atom.join as))).start_lt_stop
            have hle := le_start_of_mem_regions hmem
            have : (m.region (Text.width (Atom.join as))).start = Text.width (Atom.join as) := rfl
            omega
      | absent =>
          rw [regions_of_absent hm] at hmem
          have := le_start_of_mem_regions hmem
          have := b.width_pos
          omega
      | inconclusive => exact absurd hm (matchHead_whole_ne_inconclusive _)
  · rintro ⟨m, hm, rfl⟩
    rw [regions_of_found hm]
    exact ⟨.inr List.mem_cons_self, rfl⟩

/-- At a live place that no other region lies around, the region that starts there is what a look at
the text there finds. -/
theorem located_start_iff {r : Recognition} (hr : r.window = 0) {before u : Text}
    (hlive : Live before) (hu : u ≠ [])
    (houtside : ∀ e, Located r (before ++ u) e →
      ¬ (e.start < Text.width before ∧ Text.width before < e.stop)) (region : Region) :
    (Located r (before ++ u) region ∧ region.start = Text.width before) ↔
      ∃ m, matchHead r.accepts false (atoms u) = .found m ∧
        region = m.region (Text.width before) := by
  have hatoms : atoms u ≠ [] := by
    intro hnil
    rw [← join_atoms u, hnil] at hu
    exact hu rfl
  have hwidth : Text.width (Atom.join (atoms before)) = Text.width before := by rw [join_atoms]
  simp only [located_iff_mem_regions (.inl hr), hlive.atoms_append, ← hwidth] at houtside ⊢
  exact mem_regions_iff_matchHead hatoms houtside

/-- Behind an opening tag the environment up to the first closing tag that balances is found, if
that tag does not follow right away. -/
theorem matchHead_openingTag_iff (hname : ∀ c ∈ name, isNameCharacter c = true)
    (haccepts : accepts name = true) {as : List Atom} {m : Match} :
    matchHead accepts false (atoms (Environment.openingTag name) ++ as) = .found m ↔
      m.delimiters = .environment name ∧
        as = m.body ++ atoms (Environment.closingTag name) ++ m.rest ∧ m.body ≠ [] ∧
        IsLeast {k | BalancesAt (atoms (Environment.openingTag name))
          (atoms (Environment.closingTag name)) 0 as k} m.body.length := by
  have hopens : OpensWith accepts (.environment name)
      (atoms (Environment.openingTag name) ++ as) as := by
    refine ⟨rfl, ?_, by simp⟩
    rintro _ ⟨⟩
    exact ⟨hname, haccepts⟩
  have hne := (delimiting_tags hname).2.ne_nil
  have hsearch {body rest : List Atom} :
      (Delimiters.environment name).close? as = some (body, rest) ↔ _ :=
    balancedBy?_eq_some_iff hne (not_openingTag_of_closingTag hname)
  -- behind the opening tag the search for the closing one decides
  rw [matchHead_opening hopens]
  constructor
  · intro h
    obtain ⟨hclose, hdelimiters, hbody⟩ := eq_of_conclude h
    obtain ⟨happend, hleast⟩ := hsearch.1 hclose
    exact ⟨hdelimiters, happend, hbody, hleast⟩
  · rintro ⟨hdelimiters, happend, hbody, hleast⟩
    rw [hsearch.2 ⟨happend, hleast⟩, conclude_of_ne_nil hbody, ← hdelimiters]

/-- **Environments pair up by balance.** An opening tag that stands at a live place outside of all
other regions opens an environment exactly if a later closing tag of its name balances and the first
one that does is not right behind it; the environment ends with that tag. -/
theorem located_environment_iff {r : Recognition} (hr : r.window = 0) {t : Text} {offset : Nat}
    (hname : ∀ c ∈ name, isNameCharacter c = true) (haccepts : r.accepts name = true)
    (hopens : StandsLive (Environment.openingTag name) t offset)
    (houtside : ∀ e, Located r t e → ¬ (e.start < offset ∧ offset < e.stop)) :
    ((∃ region, Located r t region ∧ region.start = offset ∧
        region.delimiters = .environment name) ↔
      ∃ q, IsLeast {q | Balances name t (offset + Text.width (Environment.openingTag name)) q} q ∧
        q ≠ offset + Text.width (Environment.openingTag name)) ∧
      ∀ region q, Located r t region → region.start = offset →
        IsLeast {q | Balances name t (offset + Text.width (Environment.openingTag name)) q} q →
        region.delimiters = .environment name ∧
          region.stop = q + Text.width (Environment.closingTag name) := by
  obtain ⟨before, after, rfl, rfl, hlive⟩ := hopens
  obtain ⟨hopening, hclosing⟩ := delimiting_tags hname
  -- what a look at the opening tag finds is what starts there
  have htag : Environment.openingTag name ++ after ≠ [] := List.cons_ne_nil _ _
  have hlook := located_start_iff hr hlive htag houtside
  rw [atoms_append_of_forall fun a ha => (hopening.forall_mem a ha).1] at hlook
  -- and the first tag that balances is the first one that does among the atoms
  have hlive : Live (before ++ Environment.openingTag name) := by
    rw [hlive.append_iff, live_iff_closed]
    exact fun a ha => (hopening.forall_mem a (List.mem_of_getLast? ha)).1
  have hleast {q : Nat} := isLeast_balances_iff (u := after) (q := q) hname hlive
  rw [List.append_assoc, Text.width_append] at hleast
  refine ⟨⟨?_, ?_⟩, ?_⟩
  · rintro ⟨region, hlocated, hstart, -⟩
    obtain ⟨m, hm, -⟩ := (hlook _).1 ⟨hlocated, hstart⟩
    obtain ⟨-, happend, hbody, hk⟩ := (matchHead_openingTag_iff hname haccepts).1 hm
    refine ⟨_, hleast.2 ⟨_, hk, rfl⟩, ?_⟩
    have hpos := strictMonoOn_offsetAfter (Set.mem_Iic.2 (Nat.zero_le _))
      (le_length_of_prefix_drop hclosing.ne_nil hk.1.closes) (List.length_pos_iff.2 hbody)
    omega
  · rintro ⟨q, hq, hne⟩
    obtain ⟨k, hk, rfl⟩ := hleast.1 hq
    obtain ⟨body, rest, happend, rfl⟩ :=
      exists_append_of_prefix_drop hclosing.ne_nil hk.1.closes
    have hbody : body ≠ [] := by
      rintro rfl
      exact hne rfl
    have hm : matchHead r.accepts false (atoms (Environment.openingTag name) ++ atoms after) =
        .found ⟨.environment name, body, rest⟩ :=
      (matchHead_openingTag_iff hname haccepts).2 ⟨rfl, happend, hbody, hk⟩
    obtain ⟨hlocated, hstart⟩ := (hlook _).2 ⟨_, hm, rfl⟩
    exact ⟨_, hlocated, hstart, rfl⟩
  · rintro region q hlocated hstart hq
    obtain ⟨m, hm, rfl⟩ := (hlook _).1 ⟨hlocated, hstart⟩
    obtain ⟨hdelimiters, happend, -, hk⟩ := (matchHead_openingTag_iff hname haccepts).1 hm
    obtain ⟨k, hk', rfl⟩ := hleast.1 hq
    obtain rfl := hk.unique hk'
    refine ⟨hdelimiters, ?_⟩
    rw [stop_eq_contentStop_add, contentStop, contentStart, offsetAfter, happend, List.append_assoc,
      List.take_left, Match.region, hdelimiters]
    rfl

/-- An environment in another one of its name, with closing tags in a comment and behind a
backslash, which count for nothing. -/
theorem located_environment_iff_nested :
    let t := ("$x$\\begin\x7balign\x7d\\begin\x7balign\x7db\\end\x7balign\x7d" ++
      "%\\end\x7balign\x7d\n\\\\end\x7balign\x7d\\end\x7balign\x7d").toList
    StandsLive (Environment.openingTag "align".toList) t 3 ∧
      IsLeast {q | Balances "align".toList t 16 q} 66 ∧
      ∃ region, Located ⟨["align".toList], false, 0⟩ t region ∧ region.start = 3 ∧
        region.delimiters = .environment "align".toList ∧ region.stop = 77 := by
  intro t
  have hname : ∀ c ∈ "align".toList, isNameCharacter c = true :=
    List.all_eq_true.1 (by decide +kernel)
  have haccepts : Recognition.accepts ⟨["align".toList], false, 0⟩ "align".toList = true := by
    decide +kernel
  have hopens : StandsLive (Environment.openingTag "align".toList) t 3 := by decide +kernel
  have hlocate : ((locate? ⟨["align".toList], false, 0⟩ t 20).map fun e =>
      (e.start, e.delimiters, e.stop)) = some (3, .environment "align".toList, 77) := by
    decide +kernel
  obtain ⟨region, hregion, hframe⟩ := Option.map_eq_some_iff.1 hlocate
  obtain ⟨hstart, hdelimiters, hstop⟩ : region.start = 3 ∧
      region.delimiters = .environment "align".toList ∧ region.stop = 77 := by simpa using hframe
  have hlocated : Located ⟨["align".toList], false, 0⟩ t region := ⟨20, hregion⟩
  -- two regions have nothing but an end in common
  have houtside : ∀ e, Located ⟨["align".toList], false, 0⟩ t e →
      ¬ (e.start < 3 ∧ 3 < e.stop) := by
    intro e he
    rw [located_iff_mem_regions (.inl rfl)] at he hlocated
    rcases eq_or_stop_le_of_mem (pairwise_regions 0 (atoms t)) he hlocated with rfl | hle | hle <;>
      omega
  obtain ⟨hiff, hend⟩ := located_environment_iff rfl hname haccepts hopens houtside
  obtain ⟨q, hq, -⟩ := hiff.1 ⟨region, hlocated, hstart, hdelimiters⟩
  have hwidth : Text.width (Environment.openingTag "align".toList) = 13 ∧
      Text.width (Environment.closingTag "align".toList) = 11 := by decide
  have hstop' := (hend region q hlocated hstart hq).2
  rw [hstop, hwidth.2] at hstop'
  rw [hwidth.1] at hq
  obtain rfl : q = 66 := by omega
  exact ⟨hopens, hq, region, hlocated, hstart, hdelimiters, hstop⟩

end Region

end MathEdit
