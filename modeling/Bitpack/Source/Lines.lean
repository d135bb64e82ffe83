import Bitpack.Text.Bytes

/-! Lines and columns of a source text. Both count from one; a column counts characters. -/

namespace Bitpack

/-- The offsets at which the lines of a text start, in increasing order. -/
structure LineTable where
  starts : List Nat
  deriving Repr

namespace LineTable

/-- The starts of lines after each line feed of the text that follows the offset `pos`. -/
def startsFrom (pos : Nat) : List Char → List Nat
  | [] => []
  | c :: cs =>
    if c = '\n' then (pos + 1) :: startsFrom (pos + 1) cs
    else startsFrom (pos + c.utf8Size) cs

def ofText (src : String) : LineTable :=
  ⟨0 :: startsFrom 0 src.toList⟩

/-- The number of the last line that starts at or before an offset. -/
def lineOf (t : LineTable) (offset : Nat) : Nat :=
  (t.starts.takeWhile (· ≤ offset)).length

/-- Where the line with this number starts. -/
def startOf? (t : LineTable) (line : Nat) : Option Nat :=
  if line = 0 then none else t.starts[line - 1]?

/-- Line and column of an offset, an offset past the end counting as the end. There is none inside
a character. -/
def position? (t : LineTable) (src : String) (offset : Nat) : Option (Nat × Nat) := do
  let line := t.lineOf offset
  let start ← t.startOf? line
  let before ← Text.slice? src.toList start (min offset (Text.byteLength src.toList))
  return (line, before.length + 1)

def dropTrailingReturns (cs : List Char) : List Char :=
  (cs.reverse.dropWhile (· = '\r')).reverse

/-- The text of a line without its line feed and the carriage returns before it. -/
def text? (t : LineTable) (src : String) (line : Nat) : Option String := do
  let start ← t.startOf? line
  let stop := match t.starts[line]? with
    | some next => next - 1
    | none => Text.byteLength src.toList
  let cs ← Text.slice? src.toList start stop
  return String.ofList (dropTrailingReturns cs)

end LineTable
end Bitpack
