import Bitpack.C.Printer
import Bitpack.Lowering.Expression
import Bitpack.Signature

/-! Methods and units as C. -/

namespace Bitpack

namespace Lower

def statement (u : SourceUnit) : Statement → Lower Unit
  | .eval e => do
    let _ ← expression u e
  | .ret e => do
    if let some e := e then
      let _ ← expression u e
    emit .returnResult

def statements (u : SourceUnit) : List Statement → Lower Unit
  | [] => return ()
  | s :: rest => do
    statement u s
    statements u rest

/-- Whether the last statement leaves the method. -/
def endsWithReturn (body : Body) : Bool :=
  match body.statements.getLast? with
  | some (.ret _) => true
  | _ => false

/-- The statements of a function. -/
def body (u : SourceUnit) (b : Body) : Lower Unit := do
  emitAll [.discard "self", .discard "params"]
  emitAll (if b.groupCount > 0 then [.declareWords .locals b.groupCount] else [])
  emit .declareResult
  statements u b.statements
  emitAll (if endsWithReturn b then [] else [.returnResult])

/-- A method that is defined here and not exposed is static. -/
def prototype (u : SourceUnit) (m : Method) : C.Prototype where
  isStatic := m.access = .internal && m.body.isSome
  name := functionName u m
  symbol := (Signature.ofMethod u m).symbol

/-- The definition of a method that has a body, with the problems in it. -/
def function? (u : SourceUnit) (m : Method) : Option (C.Function × List Diagnostic) :=
  m.body.map fun b =>
    let r := body u b {}
    (⟨prototype u m, r.code⟩, r.faults)

end Lower

namespace SourceUnit

/-- The methods that the output knows of. -/
def visibleMethods (u : SourceUnit) : List Method :=
  u.methods.toList.filter (·.access ≠ .ignored)

/-- The C file of a unit. Whatever is wrong, the file is complete. -/
def lower (u : SourceUnit) : C.File × List Diagnostic :=
  let functions := u.visibleMethods.filterMap (Lower.function? u)
  (⟨u.word, u.visibleMethods.map (Lower.prototype u), functions.map (·.1)⟩, functions.flatMap (·.2))

/-- The C text of a unit for a word; nothing, if the unit was packed for another. -/
def generate (u : SourceUnit) (word : Word) : String × List Diagnostic :=
  if u.word = word then
    let (file, faults) := u.lower
    (file.text, faults)
  else ("", [⟨.wordMismatch u.word.bits word.bits, Span.origin⟩])

end SourceUnit
end Bitpack
