import Mathlib.Algebra.Group.Nat.Even
import Mathlib.Data.List.TakeWhile
import MathEdit.Proofs.Region.Seams
import MathEdit.Proofs.Text.Cuts

/-! # Live places

Whether a delimiter can stand at a place of a document is seen from the text before it: the
backslashes right before it have to pair up, and no percent sign that is not escaped itself may come
before it on its line.

* **`Live.append_iff`**: behind a live place the live places are those of the text that follows.
* **`live_iff_closed`**: the live places are those where no atom is left open.
* **`atoms_join_of_append`**, **`live_join_of_append`**: atoms stand for the same atoms wherever
  they are cut out, and the atoms of a document start at live places, but for the newline that ends
  a comment. -/

namespace MathEdit

/-! ## The text before a place -/

/-- The number of backslashes right at the end of a text. -/
def backslashesAtEnd (s : Text) : Nat := (s.reverse.takeWhile (· = '\\')).length

/-- Whether the place behind a text is live: what stands there is neither escaped nor part of a
comment that began before it. -/
structure Live (s : Text) : Prop where
  even : Even (backslashesAtEnd s)
  uncommented : ∀ a b, s = a ++ '%' :: b → '\n' ∉ b → ¬ Even (backslashesAtEnd a)

/-- Whether an offset of a text is a live place. -/
def LiveAt (t : Text) (offset : Nat) : Prop :=
  ∃ before after, t = before ++ after ∧ Text.width before = offset ∧ Live before

/-- Only the text before an offset says whether it is live. -/
theorem liveAt_iff {t s u : Text} {offset : Nat} (ht : t = s ++ u) (hs : offset = Text.width s) :
    LiveAt t offset ↔ Live s := by
  subst ht hs
  constructor
  · rintro ⟨before, after, heq, hwidth, hlive⟩
    rwa [(Text.append_inj_of_width_eq heq hwidth.symm).1]
  · intro hlive
    exact ⟨s, u, rfl, rfl, hlive⟩

/-- The backslashes at the end of the second of two texts go on in the first only if there is
nothing else in the second. -/
theorem backslashesAtEnd_append (s u : Text) :
    backslashesAtEnd (s ++ u) =
      if backslashesAtEnd u = u.length then backslashesAtEnd s + u.length
      else backslashesAtEnd u := by
  unfold backslashesAtEnd
  rw [List.reverse_append, List.takeWhile_append, List.length_reverse]
  split
  · rw [List.length_append, List.length_reverse, Nat.add_comm]
  · rfl

/-- Backslashes that pair up do not change whether those behind them do. -/
theorem even_backslashesAtEnd_append {s : Text} (hs : Even (backslashesAtEnd s)) (u : Text) :
    Even (backslashesAtEnd (s ++ u)) ↔ Even (backslashesAtEnd u) := by
  rw [backslashesAtEnd_append]
  split
  · next h => rw [Nat.even_add, h, iff_true_left hs]
  · rfl

/-- There are no backslashes at the end if another character is there. -/
theorem backslashesAtEnd_concat (s : Text) {c : Char} (hc : c ≠ '\\') :
    backslashesAtEnd (s ++ [c]) = 0 := by
  simp [backslashesAtEnd, hc]

/-! ## Places behind a live place -/

/-- The start of a text is live. -/
theorem live_nil : Live [] := ⟨by simp [backslashesAtEnd], by simp⟩

/-- **Live places behind a live place** are those of the text that follows. -/
theorem Live.append_iff {s : Text} (hs : Live s) {u : Text} : Live (s ++ u) ↔ Live u := by
  constructor
  · rintro ⟨heven, hcomment⟩
    refine ⟨(even_backslashesAtEnd_append hs.even u).1 heven, ?_⟩
    rintro a b rfl hb ha
    refine hcomment (s ++ a) b (by simp) hb ?_
    rwa [even_backslashesAtEnd_append hs.even]
  · rintro ⟨heven, hcomment⟩
    refine ⟨(even_backslashesAtEnd_append hs.even u).2 heven, ?_⟩
    intro a b hsplit hb ha
    rcases List.append_eq_append_iff.1 hsplit with ⟨m, rfl, hu⟩ | ⟨m, rfl, hb'⟩
    · -- the percent sign stands behind the live place
      exact hcomment m b hu hb ((even_backslashesAtEnd_append hs.even m).1 ha)
    · cases m with
      | nil => exact hcomment [] b hb'.symm hb (by simp [backslashesAtEnd])
      | cons c m =>
          -- or it stands before the place, which would lie in its comment
          obtain ⟨rfl, rfl⟩ := List.cons.inj hb'
          exact hs.uncommented a m rfl (fun hm => hb (List.mem_append_left u hm)) ha

/-- So is the place behind a plain character. -/
theorem live_plain {c : Char} (hb : c ≠ '\\') (hp : c ≠ '%') : Live [c] := by
  constructor
  · exact ⟨0, backslashesAtEnd_concat [] hb⟩
  · intro a b hsplit
    rcases List.append_eq_singleton_iff.1 hsplit.symm with ⟨rfl, h⟩ | ⟨rfl, h⟩
    · exact absurd (List.cons.inj h).1.symm hp
    · cases h

/-- Behind an escaped character the place is live, whatever the character. -/
theorem live_escape (c : Char) : Live ['\\', c] := by
  constructor
  · by_cases hc : c = '\\'
    · subst hc
      decide
    · exact ⟨0, backslashesAtEnd_concat ['\\'] hc⟩
  · intro a b hsplit hb
    -- the first character is no percent sign, and the second one has one backslash before it
    cases a with
    | nil => exact absurd (List.cons.inj hsplit).1 (by decide)
    | cons d a =>
        rw [List.cons_append, List.cons_eq_cons] at hsplit
        obtain ⟨rfl, hsplit⟩ := hsplit
        rcases List.append_eq_singleton_iff.1 hsplit.symm with ⟨rfl, -⟩ | ⟨-, h⟩
        · decide
        · cases h

/-- Inside of a comment no place is live. -/
theorem not_live_comment {body : Text} (h : '\n' ∉ body) : ¬ Live ('%' :: body) := fun hlive =>
  hlive.uncommented [] body rfl h (by simp [backslashesAtEnd])

/-- Behind the newline that ends a comment the place is live. -/
theorem live_comment (body : Text) : Live ('%' :: body ++ ['\n']) := by
  constructor
  · exact ⟨0, backslashesAtEnd_concat ('%' :: body) (by decide)⟩
  · intro a b hsplit hb
    rcases List.eq_nil_or_concat' b with rfl | ⟨b, c, rfl⟩
    · exact absurd (List.append_inj' hsplit rfl).2 (by decide)
    · rw [← List.cons_append, ← List.append_assoc] at hsplit
      obtain rfl := (List.cons.inj (List.append_inj' hsplit rfl).2).1
      simp at hb

/-! ## Atoms -/

/-- Whether no atom is left open at the end of a list of atoms. -/
def Closed (as : List Atom) : Prop := ∀ a ∈ as.getLast?, a.isOpen = false

/-- No atoms leave none open. -/
theorem closed_nil : Closed [] := by simp [Closed]

/-- An atom that is not open makes no difference in front. -/
theorem closed_cons_iff {a : Atom} (ha : a.isOpen = false) {as : List Atom} :
    Closed (a :: as) ↔ Closed as := by
  cases as with
  | nil => simp [Closed, ha]
  | cons b as => rw [Closed, Closed, List.getLast?_cons_cons]

/-- Nor does any atom with others behind it. -/
theorem closed_cons_of_ne_nil {a : Atom} {as : List Atom} (h : as ≠ []) :
    Closed (a :: as) ↔ Closed as := by
  obtain ⟨b, as, rfl⟩ := List.exists_cons_of_ne_nil h
  rw [Closed, Closed, List.getLast?_cons_cons]

/-- A comment goes up to a newline, or to the end of the text. -/
theorem dropWhile_comment (t : Text) :
    t.dropWhile (· ≠ '\n') = [] ∨ ∃ rest, t.dropWhile (· ≠ '\n') = '\n' :: rest := by
  cases h : t.dropWhile (· ≠ '\n') with
  | nil => exact .inl rfl
  | cons c rest =>
      have hc := Text.head?_dropWhile (p := (· ≠ '\n')) t c (by rw [h]; rfl)
      obtain rfl : c = '\n' := by simpa using hc
      exact .inr ⟨rest, rfl⟩

/-- A comment goes up to the newline and has none in it. -/
theorem notMem_takeWhile_comment (t : Text) : '\n' ∉ t.takeWhile (· ≠ '\n') := fun h => by
  simpa using List.mem_takeWhile_imp h

/-- **Live places and atoms.** A place is live exactly if no atom is left open there. -/
theorem live_iff_closed (s : Text) : Live s ↔ Closed (atoms s) := by
  fun_induction atoms s with
  | case1 => simp [live_nil, closed_nil]
  | case2 =>
      have hodd : ¬ Live ['\\'] := fun h => absurd h.even (by decide)
      simp [hodd, Closed, Atom.isOpen]
  | case3 c rest ih =>
      rw [closed_cons_iff rfl, ← ih]
      exact (live_escape c).append_iff (u := rest)
  | case4 rest _ ih =>
      rcases dropWhile_comment rest with hd | ⟨tail, hd⟩
      · -- a comment that runs to the end is left open
        have hrest : '\n' ∉ rest := by
          rw [← List.takeWhile_append_dropWhile (p := (· ≠ '\n')) (l := rest), hd, List.append_nil]
          exact notMem_takeWhile_comment rest
        rw [hd, atoms_nil]
        simp [not_live_comment hrest, Closed, Atom.isOpen]
      · have hnewline : atoms ('\n' :: tail) = .plain '\n' :: atoms tail :=
          atoms_plain (by decide) (by decide) tail
        have htext : '%' :: rest = ('%' :: rest.takeWhile (· ≠ '\n') ++ ['\n']) ++ tail := by
          have hrest := List.takeWhile_append_dropWhile (p := (· ≠ '\n')) (l := rest)
          rw [hd] at hrest
          rw [List.cons_append, List.cons_append, List.append_assoc, List.singleton_append, hrest]
        rw [hd] at ih ⊢
        rw [closed_cons_of_ne_nil (by simp [hnewline]), ← ih, htext, (live_comment _).append_iff]
        exact ((live_plain (c := '\n') (by decide) (by decide)).append_iff (u := tail)).symm
  | case5 c rest hb hp ih =>
      rw [closed_cons_iff rfl, ← ih]
      exact (live_plain hb hp).append_iff (u := rest)

instance : DecidablePred Closed := fun _ => inferInstanceAs (Decidable (∀ _ ∈ _, _))

instance : DecidablePred Live := fun s => decidable_of_iff _ (live_iff_closed s).symm

/-- At a live place the atoms of a document are those of its two sides. -/
theorem Live.atoms_append {s : Text} (h : Live s) (t : Text) :
    atoms (s ++ t) = atoms s ++ atoms t :=
  MathEdit.atoms_append ((live_iff_closed s).1 h) t

/-! ## Atoms of a part of a document -/

/-- Whether an atom is the first one of its text with `u` behind it. -/
inductive Atom.Begins : Atom → Text → Prop where
  | plain {c : Char} {u : Text} (hb : c ≠ '\\') (hp : c ≠ '%') : Begins (.plain c) u
  | escape {c : Char} {u : Text} : Begins (.escape c) u
  | comment {body u : Text} (hbody : ∀ c ∈ body, c ≠ '\n') (hu : ∀ c ∈ u.head?, c = '\n') :
      Begins (.comment body) u
  | backslash : Begins .backslash []

/-- An atom that begins a text is read first. -/
theorem atoms_text_append {a : Atom} {u : Text} (h : a.Begins u) :
    atoms (a.text ++ u) = a :: atoms u := by
  cases h with
  | plain hb hp => exact atoms_plain hb hp u
  | escape => exact atoms_escape _ u
  | @comment body _ hbody hu =>
      have hall : ∀ c ∈ body, decide (c ≠ '\n') = true := by simpa using hbody
      have hstop : ∀ c ∈ u.head?, decide (c ≠ '\n') = false := by simpa using hu
      rw [Atom.text, List.cons_append, atoms_comment, Text.takeWhile_append_of_all hall hstop,
        Text.dropWhile_append_of_all hall hstop]
  | backslash => simp [Atom.text, atoms_backslash]

/-- The first atom of a document begins what the others make up. -/
theorem begins_of_atoms {t : Text} {a : Atom} {as : List Atom} (h : atoms t = a :: as) :
    a.Begins (Atom.join as) ∧ atoms (Atom.join as) = as := by
  fun_cases atoms t with
  | case1 => simp at h
  | case2 =>
      obtain ⟨rfl, rfl⟩ := List.cons.inj (atoms_backslash.symm.trans h)
      exact ⟨.backslash, atoms_nil⟩
  | case3 c rest =>
      obtain ⟨rfl, rfl⟩ := List.cons.inj ((atoms_escape c rest).symm.trans h)
      rw [join_atoms]
      exact ⟨.escape, rfl⟩
  | case4 rest =>
      obtain ⟨rfl, rfl⟩ := List.cons.inj ((atoms_comment rest).symm.trans h)
      rw [join_atoms]
      refine ⟨.comment ?_ ?_, rfl⟩
      · rintro c hc rfl
        exact notMem_takeWhile_comment rest hc
      · intro c hc
        simpa using Text.head?_dropWhile rest c hc
  | case5 c rest hb hp =>
      obtain ⟨rfl, rfl⟩ := List.cons.inj ((atoms_plain hb hp rest).symm.trans h)
      exact ⟨.plain hb hp, by rw [join_atoms]⟩

/-- An atom also begins its text with less behind it. -/
theorem Atom.Begins.of_append {a : Atom} {u v : Text} (h : a.Begins (u ++ v)) : a.Begins u := by
  generalize hw : u ++ v = w at h
  cases h with
  | plain hb hp => exact .plain hb hp
  | escape => exact .escape
  | comment hbody hu =>
      refine .comment hbody fun c hc => hu c ?_
      rw [← hw, List.head?_append, Option.mem_def.1 hc]
      rfl
  | backslash =>
      rw [(List.append_eq_nil_iff.1 hw).1]
      exact .backslash

/-- Atoms of a document are the atoms of their own text. -/
theorem atoms_join_of_append {t : Text} {as bs : List Atom} (h : atoms t = as ++ bs) :
    atoms (Atom.join as) = as ∧ atoms (Atom.join bs) = bs := by
  induction as generalizing t with
  | nil =>
      rw [List.nil_append] at h
      exact ⟨atoms_nil, by rw [← h, join_atoms]⟩
  | cons a as ih =>
      rw [List.cons_append] at h
      obtain ⟨hbegins, hrest⟩ := begins_of_atoms h
      obtain ⟨has, hbs⟩ := ih hrest
      rw [Atom.join_append] at hbegins
      refine ⟨?_, hbs⟩
      rw [Atom.join_cons, atoms_text_append hbegins.of_append, has]

/-- **Where atoms start.** The place of an atom of a document is live, but for the newline that ends
a comment. -/
theorem live_join_of_append {t : Text} {as bs : List Atom} {a : Atom}
    (h : atoms t = as ++ a :: bs) (ha : a ≠ .plain '\n') : Live (Atom.join as) := by
  rw [live_iff_closed, (atoms_join_of_append h).1]
  intro x hx
  obtain ⟨front, rfl⟩ := List.getLast?_eq_some_iff.1 hx
  rw [List.append_assoc, List.singleton_append] at h
  obtain ⟨hbegins, -⟩ := begins_of_atoms (atoms_join_of_append h).2
  rw [Atom.join_cons] at hbegins
  -- what `a` is shows in its first character
  generalize hu : a.text ++ Atom.join bs = u at hbegins
  cases hbegins with
  | plain => rfl
  | escape => rfl
  | comment _ hnewline =>
      cases a with
      | plain c =>
          obtain rfl := hnewline c (by rw [← hu]; rfl)
          exact absurd rfl ha
      | _ => exact absurd (hnewline _ (by rw [← hu]; rfl)) (by decide)
  | backslash => exact absurd (List.append_eq_nil_iff.1 hu).1 a.text_ne_nil

end MathEdit
