/-! # Texts and their offsets

A `Text` is the list of its characters. Offsets into it are numbers, and what a number counts is a
parameter: `measure size t` adds up `size c` over the characters of `t`, so UTF-8 bytes and UTF-16
code units are two sizes of one notion.

* **`width t`**: the length in UTF-8 bytes, the unit of every offset of the library.
* **`splitAt? size n t`**: the cut of `t` at offset `n`, which exists exactly at the boundaries
  between characters; `boundary?` and `slice?` read it off.
* **`takeBytes n t`, `dropBytes n t`**: a cut at any offset, moved back to a boundary when it is
  none; `takeBytesUp` moves it forward instead.
-/

namespace MathEdit

/-- A text is the list of its characters. -/
abbrev Text := List Char

namespace Text

/-! ## Measures -/

/-- The length of a text in the unit that gives each character `c` the length `size c`. -/
def measure (size : Char → Nat) : Text → Nat
  | [] => 0
  | c :: t => size c + measure size t

/-- An empty text has no length. -/
@[simp] theorem measure_nil (size : Char → Nat) : measure size [] = 0 := rfl

/-- The first character adds its size. -/
@[simp] theorem measure_cons (size : Char → Nat) (c : Char) (t : Text) :
    measure size (c :: t) = size c + measure size t := rfl

/-- The lengths of two texts add up. -/
@[simp] theorem measure_append (size : Char → Nat) (s t : Text) :
    measure size (s ++ t) = measure size s + measure size t := by
  induction s with
  | nil => simp
  | cons c s ih => simp [ih, Nat.add_assoc]

/-- The length of a text in UTF-8 bytes. -/
abbrev width (t : Text) : Nat := measure Char.utf8Size t

/-- The number of UTF-16 code units of a character: two beyond the basic plane. -/
def units16 (c : Char) : Nat := if c.toNat < 0x10000 then 1 else 2

/-! ## Exact cuts -/

/-- The two parts of a text on either side of offset `n`, or `none` when `n` lies inside a character
or past the end. -/
def splitAt? (size : Char → Nat) : Nat → Text → Option (Text × Text)
  | 0, t => some ([], t)
  | _ + 1, [] => none
  | n + 1, c :: t =>
      if size c ≤ n + 1 then
        (splitAt? size (n + 1 - size c) t).map fun (before, after) => (c :: before, after)
      else none

/-- The byte offset of the boundary at offset `n`, if there is one. -/
def boundary? (size : Char → Nat) (n : Nat) (t : Text) : Option Nat :=
  (splitAt? size n t).map fun (before, _) => width before

/-- The part of a text between two byte offsets, if both are boundaries in order. -/
def slice? (start stop : Nat) (t : Text) : Option Text := do
  let (before, _) ← splitAt? Char.utf8Size stop t
  let (_, part) ← splitAt? Char.utf8Size start before
  return part

/-- Cutting loses nothing: the two parts make up the text. -/
theorem append_of_splitAt? {size : Char → Nat} {n : Nat} {t before after : Text}
    (h : splitAt? size n t = some (before, after)) : before ++ after = t := by
  induction t generalizing n before with
  | nil =>
      cases n with
      | zero => simp_all [splitAt?]
      | succ n => simp [splitAt?] at h
  | cons c t ih =>
      cases n with
      | zero => simp_all [splitAt?]
      | succ n =>
          simp only [splitAt?] at h
          split at h
          · obtain ⟨⟨b, a⟩, hb, he⟩ := Option.map_eq_some_iff.1 h
            obtain ⟨rfl, rfl⟩ := Prod.mk.inj he
            simp [ih hb]
          · simp at h

/-- The part before a cut has the length asked for. -/
theorem measure_of_splitAt? {size : Char → Nat} {n : Nat} {t before after : Text}
    (h : splitAt? size n t = some (before, after)) : measure size before = n := by
  induction t generalizing n before with
  | nil =>
      cases n with
      | zero => simp_all [splitAt?]
      | succ n => simp [splitAt?] at h
  | cons c t ih =>
      cases n with
      | zero => simp_all [splitAt?]
      | succ n =>
          simp only [splitAt?] at h
          split at h
          · obtain ⟨⟨b, a⟩, hb, he⟩ := Option.map_eq_some_iff.1 h
            obtain ⟨rfl, rfl⟩ := Prod.mk.inj he
            simp [ih hb]
            omega
          · simp at h

/-! ## Rounded cuts -/

/-- The longest part at the front of a text that has at most `n` bytes. -/
def takeBytes : Nat → Text → Text
  | _, [] => []
  | n, c :: t => if c.utf8Size ≤ n then c :: takeBytes (n - c.utf8Size) t else []

/-- What `takeBytes n` leaves. -/
def dropBytes : Nat → Text → Text
  | _, [] => []
  | n, c :: t => if c.utf8Size ≤ n then dropBytes (n - c.utf8Size) t else c :: t

/-- The shortest part at the front of a text that has at least `n` bytes, or the whole text. -/
def takeBytesUp : Nat → Text → Text
  | _, [] => []
  | 0, _ :: _ => []
  | n + 1, c :: t => c :: takeBytesUp (n + 1 - c.utf8Size) t

/-- What is taken and what is left make up the text. -/
@[simp] theorem takeBytes_append_dropBytes (n : Nat) (t : Text) :
    takeBytes n t ++ dropBytes n t = t := by
  induction t generalizing n with
  | nil => rfl
  | cons c t ih =>
      simp only [takeBytes, dropBytes]
      split
      · simp [ih]
      · simp

/-- No more bytes are taken than asked for. -/
theorem width_takeBytes_le (n : Nat) (t : Text) : width (takeBytes n t) ≤ n := by
  induction t generalizing n with
  | nil => simp [takeBytes]
  | cons c t ih =>
      simp only [takeBytes]
      split
      · have := ih (n - c.utf8Size)
        simp only [width, measure_cons] at this ⊢
        omega
      · simp

/-- At a boundary, what is left is what stands behind it. -/
@[simp] theorem dropBytes_width_append (s t : Text) : dropBytes (width s) (s ++ t) = t := by
  induction s with
  | nil =>
      cases t with
      | nil => rfl
      | cons c t =>
          have := c.utf8Size_pos
          simp [dropBytes, Nat.not_le.2 this]
  | cons c s ih =>
      simp only [width] at ih
      simp [dropBytes, ih]

/-- The part that is taken is the front of the text. -/
theorem takeBytesUp_prefix (n : Nat) (t : Text) : takeBytesUp n t <+: t := by
  induction t generalizing n with
  | nil => simp [takeBytesUp]
  | cons c t ih =>
      cases n with
      | zero => simp [takeBytesUp]
      | succ n => simpa [takeBytesUp] using ih _

/-- A cut moved back comes before a later cut moved forward. -/
theorem takeBytes_prefix_takeBytesUp {m n : Nat} (h : m ≤ n) (t : Text) :
    takeBytes m t <+: takeBytesUp n t := by
  induction t generalizing m n with
  | nil => simp [takeBytes]
  | cons c t ih =>
      have := c.utf8Size_pos
      cases n with
      | zero =>
          obtain rfl := Nat.le_zero.1 h
          simp [takeBytes, Nat.not_le.2 this]
      | succ n =>
          simp only [takeBytes, takeBytesUp]
          split
          · simpa using ih (by omega)
          · exact List.nil_prefix

/-! ## Reading off the front -/

/-- What follows `start` in a text that begins with it. -/
def dropPrefix? : (start t : Text) → Option Text
  | [], t => some t
  | _ :: _, [] => none
  | p :: start, c :: t => if p = c then dropPrefix? start t else none

/-- What is dropped stood in front. -/
theorem eq_append_of_dropPrefix? {start t rest : Text} (h : dropPrefix? start t = some rest) :
    t = start ++ rest := by
  induction start generalizing t with
  | nil => simpa [dropPrefix?] using h
  | cons p start ih =>
      cases t with
      | nil => simp [dropPrefix?] at h
      | cons c t =>
          simp only [dropPrefix?] at h
          split at h
          · next hp => simp [hp, ih h]
          · simp at h

/-- And what stands in front is dropped. -/
theorem dropPrefix?_append (start t : Text) : dropPrefix? start (start ++ t) = some t := by
  induction start with
  | nil => rfl
  | cons c start ih => rw [List.cons_append, dropPrefix?, if_pos rfl, ih]

/-- So a front is dropped just if it is there. -/
theorem dropPrefix?_eq_some_iff {start t rest : Text} :
    dropPrefix? start t = some rest ↔ t = start ++ rest :=
  ⟨eq_append_of_dropPrefix?, fun h => h ▸ dropPrefix?_append start rest⟩

end Text

end MathEdit
