import Bitpack.Lowering.Unit
import Bitpack.Reading.Unit
import Bitpack.SourceUnit.Outline

/-! A source text compiled to C. -/

namespace Bitpack

structure Compiled where
  unit : SourceUnit
  /-- The C text. -/
  output : String
  /-- Problems that are not fatal; a unit with any of them is not linked. -/
  faults : List Diagnostic

/-- Compiles a source text. It fails, with all problems up to it, at a fatal one. -/
def compile (word : Word) (src : String) : Except (List Diagnostic) Compiled :=
  let (unit, faults) := SourceUnit.ofText word src
  if faults.any Diagnostic.isFatal then .error faults
  else
    let (output, more) := unit.generate word
    let faults := faults ++ more
    if faults.any Diagnostic.isFatal then .error faults else .ok ⟨unit, output, faults⟩

end Bitpack
