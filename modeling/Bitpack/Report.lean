import Bitpack.Diagnostic
import Bitpack.Source.Lines

/-! Reports of problems: a line with the place and the message, the line of the source, and carets
under the text that is meant. -/

namespace Bitpack

/-- The margin in front of source text. -/
def reportMargin : String := "    "

/-- The number of carets: as many as the span has bytes, but no more than the line has bytes after the
characters in front of them, and at least one. -/
def caretCount (spanLength lineLength column : Nat) : Nat :=
  max 1 (min spanLength (max (lineLength - (column - 1)) 1))

namespace Diagnostic

/-- The report of a problem. There is none if its span begins inside a character. -/
def report? (d : Diagnostic) (path src : String) (table : LineTable) : Option String := do
  let (line, column) ← table.position? src d.span.lo
  let text ← table.text? src line
  let (category, message) := (d.cause.category.text, d.message)
  let carets := caretCount d.span.len (Text.byteLength text.toList) column
  let marker := String.ofList (List.replicate (column - 1) ' ' ++ List.replicate carets '^')
  return s!"{path}:{line}:{column}: {category} error: {message}\n"
    ++ reportMargin ++ text ++ "\n" ++ reportMargin ++ marker ++ "\n"

end Diagnostic

/-- The reports of problems, in order. -/
def reports? (ds : List Diagnostic) (path src : String) : Option (List String) :=
  let table := LineTable.ofText src
  ds.mapM fun d => d.report? path src table

end Bitpack
