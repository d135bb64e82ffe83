import Bitpack.Build.Tool
import Bitpack.CommandLine
import Bitpack.Compile
import Bitpack.Report
import Bitpack.Tally

/-! Builds. Every input is taken through the stages that are asked for; problems with one are reported
and do not keep the others from being built, but they keep all from being linked. -/

namespace Bitpack

/-- A name inside a directory. -/
def joinPath (dir name : String) : String :=
  if dir.isEmpty || dir.endsWith "/" then dir ++ name else dir ++ "/" ++ name

/-- What an input came to. -/
structure UnitResult where
  faults : List Diagnostic
  object : Option String := none

namespace Build

def emitAll (sink : Sink) : List String → Build Unit
  | [] => return ()
  | text :: rest => do
    emit sink text
    emitAll sink rest

/-- Reports problems of an input. -/
def report (path src : String) (faults : List Diagnostic) : Build Unit :=
  emitAll .diagnostics ((reports? faults path src).getD [])

/-- Lists the tokens of an input. -/
def listTokens (path src : String) : Build UnitResult :=
  match Token.list? src with
  | none => do
    let faults := [⟨.emptyInput, Span.origin⟩]
    report path src faults
    return { faults }
  | some ts => do
    emitAll .output (ts.map fun t => t.line ++ "\n")
    return { faults := [] }

/-- Shows the outline of an input. -/
def showOutline (word : Word) (path src : String) : Build UnitResult := do
  let (unit, faults) := SourceUnit.ofText word src
  emit .output unit.outline
  report path src faults
  return { faults }

/-- Writes C text to a new file and compiles it. -/
def makeObject (toolchain : Toolchain) (base text : String) : Build String := do
  let paths ← UnitPaths.reserve base
  writeFile paths.source text
  toolchain.compile paths
  return paths.object

/-- Compiles an input, as far as the stage asks for. An object is made only if there was no problem. -/
def compileUnit (c : Command) (base path src : String) : Build UnitResult :=
  match compile c.word src with
  | .error faults => do
    report path src faults
    return { faults }
  | .ok compiled => do
    let faults := compiled.faults
    report path src faults
    if c.stage = .source then
      emit .output compiled.output
      return { faults }
    else if !faults.isEmpty then
      return { faults }
    else
      let object ← makeObject ⟨c.compiler, c.entry⟩ base compiled.output
      if c.stage = .objects then
        emit .output (object ++ "\n")
      return { faults, object := some object }

/-- Takes one input through the stages. -/
def unit (c : Command) (base path : String) : Build UnitResult := do
  let src ← readSource path
  match c.stage with
  | .tokens => listTokens path src
  | .outline => showOutline c.word path src
  | .source | .objects | .executable => compileUnit c base path src

/-- Takes inputs through the stages, one after the other. A failure outside of the sources is reported
like their problems, except that a sink that fails ends the build. -/
def units (c : Command) (base : String) (tally : Tally) (objects : List String) :
    List String → Build (Tally × List String)
  | [] => return (tally, objects)
  | path :: rest => do
    match ← ExceptT.lift (unit c base path).run with
    | .ok r => units c base (tally.recordAll r.faults) (objects ++ r.object.toList) rest
    | .error (.output reason) => throw (.output reason)
    | .error e =>
      let (category, message) := (Category.tool.text, e.message)
      emit .diagnostics s!"{path}: {category} error: {message}\n"
      units c base (tally.record .tool) objects rest

/-- Links the objects, if there was no problem. -/
def linkAll (c : Command) (tally : Tally) (objects : List String) : Build Unit :=
  if tally.mayLink then (⟨c.compiler, c.entry⟩ : Toolchain).link objects c.output
  else
    let (output, count) := (c.output, max tally.count 1)
    emit .diagnostics s!"bitc: not linking {output}: {count} error(s)\n"

/-- Shows the signature that a symbol spells out. -/
def showSymbol (symbol : String) : Build Unit :=
  match Signature.ofSymbol? symbol with
  | some s => emit .output (s.text ++ "\n")
  | none => emit .output s!"{symbol}: not a bitc symbol\n"

end Build

/-- What a command does. Temporary files go to `tempDir` if the command names no directory. -/
def Command.plan (c : Command) (tempDir : String) : Build Tally :=
  match c.symbol with
  | some symbol => do
    Build.showSymbol symbol
    return Tally.empty
  | none => do
    let base := joinPath (c.tempDir.getD tempDir) "bitc-"
    let (tally, objects) ← Build.units c base Tally.empty [] c.inputs
    if c.stage = .executable then
      Build.linkAll c tally objects
    return tally

end Bitpack
