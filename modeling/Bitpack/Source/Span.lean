import Bitpack.Text.Bytes

/-! Places in a source text, as ranges of bytes. -/

namespace Bitpack

/-- `len` bytes from the offset `lo` on. -/
structure Span where
  lo : Nat
  len : Nat
  deriving DecidableEq, Inhabited, Repr

namespace Span

/-- The end, exclusive. -/
def hi (s : Span) : Nat := s.lo + s.len

/-- The start of every text. -/
def origin : Span := ⟨0, 0⟩

/-- The range between two offsets: refused when they are out of order or 4 GiB or more apart. -/
def ofBounds? (lo hi : Nat) : Option Span :=
  if lo ≤ hi ∧ hi - lo < UInt32.size then some ⟨lo, hi - lo⟩ else none

/-- The least range that holds both, however long; `join?` refuses it from 4 GiB on, which takes a text of that
size. -/
def join (a b : Span) : Span :=
  ⟨min a.lo b.lo, max a.hi b.hi - min a.lo b.lo⟩

def join? (a b : Span) : Option Span :=
  ofBounds? (min a.lo b.lo) (max a.hi b.hi)

theorem join?_eq_some {a b s : Span} (h : a.join? b = some s) : s = a.join b := by
  simp only [join?, ofBounds?] at h
  split at h
  · simpa [join] using h.symm
  · simp at h

/-- The text of a range: none when an end is inside a character or past the end. -/
def slice? (s : Span) (src : String) : Option String :=
  (Text.slice? src.toList s.lo s.hi).map String.ofList

/-- Both ends, as `lo..hi`. -/
def text (s : Span) : String :=
  let (lo, hi) := (s.lo, s.hi)
  s!"{lo}..{hi}"

/-- Both ends and the length. -/
def details (s : Span) : String :=
  let (range, len) := (s.text, s.len)
  s!"Span({range}, len: {len})"

end Span
end Bitpack
