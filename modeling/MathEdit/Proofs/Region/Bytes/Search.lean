import MathEdit.Proofs.Region.Limits
import MathEdit.Proofs.Text.Bytes

/-! # The search for math in bytes

An editor holds a document as bytes and goes through it by offsets, which are machine words. Here is
the search for math as it runs there: it reads bytes, compares them with those of the delimiters,
and cuts the text at the offsets that it comes to. Every access can fail, and then there is no
result:

* a byte is read at or behind the limit of the search;
* a slice is not in order, reaches behind the text or the limit, or cuts a character in two;
* a difference is less than zero, or a sum does not fit into a word;
* a loop does not go on to an index further ahead, and so would not end.

What the search comes to is then a statement about `some`: `Extent.locate?` is `some` answer exactly
if location runs to its end without a failing access.

* **`Word.add?`**, **`Word.sub?`**, **`Word.ahead?`**: sums and differences of offsets, and the
  steps of loops.
* **`ByteSearch`**: the search up to a limit, from `ByteSearch.step?` to
  `ByteSearch.findContaining?`.
* **`Extent`**: what it finds, and how the content and its range are read off.
* **`Extent.locate?`**: location in a window around an offset, and then in the whole document. -/

namespace MathEdit

/-! ## Words -/

namespace Word

/-- The largest offset. -/
def largest : Nat := 2 ^ 64 - 1

/-- A sum of offsets, if it is one. -/
def add? (m n : Nat) : Option Nat := if m + n ≤ largest then some (m + n) else none

/-- Sums of 32 bits do not overflow. -/
theorem add?_eq {m n : Nat} (h : m + n ≤ 2 ^ 32) : add? m n = some (m + n) :=
  if_pos (Nat.le_trans h (by decide))

/-- A difference of offsets, if it is one. -/
def sub? (m n : Nat) : Option Nat := if n ≤ m then some (m - n) else none

/-- A difference exists if it is not negative. -/
theorem sub?_eq {m n : Nat} (h : n ≤ m) : sub? m n = some (m - n) := if_pos h

/-- The offset where a loop goes on, if that is further ahead. -/
def ahead? (i : Nat) (next : Option Nat) : Option { j : Nat // i < j } := do
  let j ← next
  if h : i < j then some ⟨j, h⟩ else none

/-- A loop goes on where it is further ahead. -/
theorem ahead?_eq {i j : Nat} (h : i < j) : ahead? i (some j) = some ⟨j, h⟩ := dif_pos h

/-- A sum of offsets, or the largest one instead. -/
def addUpTo (m n : Nat) : Nat := min (m + n) largest

/-- A product of offsets, or the largest one instead. -/
def mulUpTo (m n : Nat) : Nat := min (m * n) largest

end Word

/-! ## Boundaries and blank lines -/

namespace Text

/-- Whether an offset is a boundary between characters. -/
def isBoundary (t : Text) (i : Nat) : Bool := (boundary? Char.utf8Size i t).isSome

/-- The last boundary up to an offset. There is no step back from zero. -/
def floorBoundary? (t : Text) : Nat → Option Nat
  | 0 => if isBoundary t 0 then some 0 else none
  | i + 1 => if isBoundary t (i + 1) then some (i + 1) else floorBoundary? t i

/-- The first boundary from an offset on, which is not behind the text. -/
def ceilBoundary? (t : Text) (i : Nat) : Option Nat :=
  if isBoundary t i then some i
  else if i < width t then do
    let next ← Word.ahead? i (Word.add? i 1)
    ceilBoundary? t next
  else none
termination_by width t - i
decreasing_by
  have := next.property
  omega

/-- The offsets of the newlines of a text that starts at `position`. -/
def newlines (position : Nat) : Text → List Nat
  | [] => []
  | c :: t =>
      if c = '\n' then position :: newlines (position + c.utf8Size) t
      else newlines (position + c.utf8Size) t

/-- The offset past the last blank line of a text, where its newlines are given from the last one
back; `next` is the newline behind those. -/
def paragraphFrom? (t : Text) : (next : Option Nat) → List Nat → Option Nat
  | _, [] => some 0
  | none, newline :: earlier => paragraphFrom? t (some newline) earlier
  | some next, newline :: earlier => do
      if trim (← slice? (← Word.add? newline 1) next t) = [] then Word.add? next 1
      else paragraphFrom? t (some newline) earlier

/-- The offset where the last paragraph before an offset starts. -/
def paragraphBefore? (t : Text) (before : Nat) : Option Nat := do
  let front ← slice? 0 before t
  paragraphFrom? front none (newlines 0 front).reverse

end Text

/-! ## What is found -/

/-- Math of a document as the search in bytes reports it: the offsets of its ends, its text and the
delimiters around it. -/
structure Extent where
  start : Nat
  stop : Nat
  text : Text
  delimiters : Delimiters
  deriving DecidableEq, Repr

/-- The ends, the text and the delimiters of a region. -/
def Region.extent (r : Region) : Extent := ⟨r.start, r.stop, r.text, r.delimiters⟩

namespace Extent

/-- The part of a document between two offsets as math. -/
def cut? (t : Text) (start stop : Nat) (d : Delimiters) : Option Extent := do
  return ⟨start, stop, ← Text.slice? start stop t, d⟩

/-- The text between the delimiters. -/
def content? (e : Extent) : Option Text := do
  Text.slice? e.delimiters.lengths.1 (← Word.sub? (Text.width e.text) e.delimiters.lengths.2) e.text

/-- The span of the content in offsets of 32 bits, as far as its ends are in order. -/
def contentRange? (e : Extent) : Option (UInt32 × UInt32) := do
  let first := UInt32.ofNat (← Word.add? e.start e.delimiters.lengths.1)
  let last := UInt32.ofNat (← Word.sub? e.stop e.delimiters.lengths.2)
  if first ≤ last then some (first, last) else none

/-- An offset of the document as an offset in the math, if it is there. -/
def toLocal? (e : Extent) (offset : Nat) : Option (Option Nat) :=
  if e.start ≤ offset ∧ offset ≤ e.stop then do return some (← Word.sub? offset e.start)
  else some none

end Extent

/-- What a search has found, put through a function that may fail. -/
def Search.mapM {α β : Type} (f : α → Option β) : Search α → Option (Search β)
  | found result => (f result).map .found
  | absent => some .absent
  | inconclusive => some .inconclusive

/-! ## The search up to a limit -/

/-- A document that is searched up to a limit. -/
structure ByteSearch where
  text : Text
  limit : Nat
  accepts : Text → Bool

namespace ByteSearch

variable (s : ByteSearch)

/-- Whether the document goes on behind the limit. -/
def more : Bool := s.limit < Text.width s.text

/-- The byte at an index before the limit. -/
def byte? (i : Nat) : Option UInt8 := if i < s.limit then (Text.utf8 s.text)[i]? else none

/-- The bytes from an index up to the limit. -/
def rest? (i : Nat) : Option (List UInt8) :=
  if i ≤ s.limit ∧ s.limit ≤ Text.width s.text then
    some (((Text.utf8 s.text).take s.limit).drop i)
  else none

/-- Whether a text stands at an index. -/
def startsWith? (t : Text) (i : Nat) : Option Bool := do
  return (Text.utf8 t).isPrefixOf (← s.rest? i)

/-- The index of the newline that ends the comment at an index, or the limit. -/
def skipComment? (i : Nat) : Option Nat := do
  match (← s.rest? i).findIdx? (· = '\n'.toUInt8) with
  | some n => Word.add? i n
  | none => some s.limit

/-- The index behind an escape, a comment or a byte. A byte behind a backslash is passed over,
whatever it is. -/
def step? (i : Nat) : Option Nat := do
  let b ← s.byte? i
  if b = '\\'.toUInt8 then Word.add? i 2
  else if b = '%'.toUInt8 then s.skipComment? i
  else Word.add? i 1

/-- The index of a closing delimiter behind content that starts at `start`. -/
def findCloser? (closing : Text) (start i : Nat) : Option (Search Nat) :=
  if i < s.limit then do
    if ← (if start < i then s.startsWith? closing i else some false) then return .found i
    else
      let next ← Word.ahead? i (s.step? i)
      findCloser? closing start next
  else some (.atEnd s.more)
termination_by s.limit - i
decreasing_by
  have := next.property
  omega

/-- The index of the first dollar from `start` on, which must not be there. -/
def findDollar? (start i : Nat) : Option (Search Nat) :=
  if i < s.limit then do
    if (← s.byte? i) = '$'.toUInt8 then return if start < i then .found i else .absent
    else
      let next ← Word.ahead? i (s.step? i)
      findDollar? start next
  else some (.atEnd s.more)
termination_by s.limit - i
decreasing_by
  have := next.property
  omega

/-- The index behind the closing tag of an environment whose content starts at `start`, where
`depth` environments of its name are open inside. -/
def findEnd? (name : Text) (start depth i : Nat) : Option (Search Nat) :=
  if i < s.limit then do
    if ← s.startsWith? (Environment.closingTag name) i then
      if depth = 0 then
        if start < i then
          return .found (← Word.add? i (Text.width (Environment.closingTag name)))
        else return .absent
      else
        let depth ← Word.sub? depth 1
        let next ← Word.ahead? i (Word.add? i (Text.width (Environment.closingTag name)))
        findEnd? name start depth next
    else if ← s.startsWith? (Environment.openingTag name) i then
      let depth ← Word.add? depth 1
      let next ← Word.ahead? i (Word.add? i (Text.width (Environment.openingTag name)))
      findEnd? name start depth next
    else
      let next ← Word.ahead? i (s.step? i)
      findEnd? name start depth next
  else some (.atEnd s.more)
termination_by s.limit - i
decreasing_by
  all_goals
    have := next.property
    omega

/-- The name in the braces at an index, and the index behind them. -/
def environmentName? (i : Nat) : Option (Search (Text × Nat)) :=
  match (Text.slice? i s.limit s.text).bind (Text.dropPrefix? ['{']) with
  | none => some .absent
  | some rest =>
      match Text.offsetOf? (!Region.isNameCharacter ·) rest with
      | none => some (.atEnd s.more)
      | some close => do
          if (← Text.slice? close (Text.width rest) rest).head? = some '}' then
            let name ← Text.slice? 0 close rest
            return .found (name, ← Word.add? (← Word.add? i close) 2)
          else return .absent

/-- The end of the environment whose opening tag is at an index. -/
def matchEnvironment? (i : Nat) : Option (Search (Nat × Delimiters)) := do
  match ← s.environmentName? (← Word.add? i (Text.width "\\begin".toList)) with
  | .found (name, start) =>
      if s.accepts name then
        return (← s.findEnd? name start 0 start).map fun stop => (stop, .environment name)
      else return .absent
  | .absent => return .absent
  | .inconclusive => return .inconclusive

/-- The end of the math whose opening delimiter is at an index, where `find?` looks for the closing
one behind it. -/
def matchClosed? (d : Delimiters) (i : Nat) (find? : Nat → Option (Search Nat)) :
    Option (Search (Nat × Delimiters)) := do
  (← find? (← Word.add? i (Text.width d.opening))).mapM fun close => do
    return (← Word.add? close (Text.width d.closing), d)

/-- The texts that open math and that the limit can cut in two. -/
def openers : List Text :=
  [Delimiters.displayDollar.opening, Delimiters.displayBracket.opening,
    Delimiters.inlineParen.opening, Environment.openingStart]

/-- The end of the math that starts at an index. -/
def matchAt? (i : Nat) : Option (Search (Nat × Delimiters)) := do
  let rest ← s.rest? i
  let closer (d : Delimiters) (start : Nat) := s.findCloser? d.closing start start
  if openers.any fun t => rest.length < Text.width t && rest.isPrefixOf (Text.utf8 t) then
    return .atEnd s.more
  else if (Text.utf8 Delimiters.displayDollar.opening).isPrefixOf rest then
    matchClosed? .displayDollar i (closer .displayDollar)
  else if (Text.utf8 Delimiters.inlineDollar.opening).isPrefixOf rest then
    matchClosed? .inlineDollar i fun start => s.findDollar? start start
  else if (Text.utf8 Delimiters.displayBracket.opening).isPrefixOf rest then
    matchClosed? .displayBracket i (closer .displayBracket)
  else if (Text.utf8 Delimiters.inlineParen.opening).isPrefixOf rest then
    matchClosed? .inlineParen i (closer .inlineParen)
  else if (Text.utf8 Environment.openingStart).isPrefixOf rest then s.matchEnvironment? i
  else return .absent

/-- The first math from an index on that contains an offset. -/
def findContaining? (offset i : Nat) : Option (Search Extent) :=
  if i < s.limit ∧ i ≤ offset then do
    let b ← s.byte? i
    if b = '%'.toUInt8 then
      let next ← Word.ahead? i (s.skipComment? i)
      findContaining? offset next
    else if b = '$'.toUInt8 ∨ b = '\\'.toUInt8 then
      match ← s.matchAt? i with
      | .inconclusive => return .inconclusive
      | .found (stop, d) =>
          if offset ≤ stop then return .found (← Extent.cut? s.text i stop d)
          else
            let next ← Word.ahead? i (some stop)
            findContaining? offset next
      | .absent =>
          let next ← Word.ahead? i (Word.add? i (if (← s.byte? i) = '\\'.toUInt8 then 2 else 1))
          findContaining? offset next
    else
      let next ← Word.ahead? i (Word.add? i 1)
      findContaining? offset next
  else some .absent
termination_by s.limit - i
decreasing_by
  all_goals
    have := next.property
    omega

end ByteSearch

/-! ## Location -/

/-- The offsets where the search around an offset starts and ends, unless the document is not longer
than two windows. -/
def Text.searchWindow? (size offset : Nat) (t : Text) : Option (Option (Nat × Nat)) :=
  if size = 0 ∨ width t ≤ Word.mulUpTo size 2 then some none
  else do
    let start ← paragraphBefore? t (← floorBoundary? t (offset - size))
    let limit ← ceilBoundary? t (min (Word.addUpTo offset size) (width t))
    return some (start, limit)

/-- The math of a document that contains an offset, looked for in a window first. -/
def Extent.locate? (r : Recognition) (t : Text) (offset : Nat) : Option (Option Extent) :=
  if Text.width t < offset then some none
  else do
    let windowed ← match ← t.searchWindow? r.window offset with
      | some (start, limit) => (ByteSearch.mk t limit r.accepts).findContaining? offset start
      | none => some .absent
    match windowed with
    | .found e => return some e
    | _ =>
        return (← (ByteSearch.mk t (Text.width t) r.accepts).findContaining? offset 0).toOption

end MathEdit
