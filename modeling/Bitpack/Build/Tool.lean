import Bitpack.Build.Plan
import Bitpack.Text.Numeral

/-! The tools of a build: temporary files, the C compiler and the linker. -/

namespace Bitpack

/-- Failures outside of any source. -/
inductive ToolError
  | read (path reason : String)
  | write (path reason : String)
  /-- A sink took no more text. -/
  | output (reason : String)
  | random (reason : String)
  | tempPathsExhausted (base : String) (attempts : Nat)
  | spawn (program reason : String)
  | compile (program path : String) (status : ExitStatus)
  | link (path : String) (status : ExitStatus)
  deriving DecidableEq, Repr

def ToolError.message : ToolError → String
  | .read path reason => s!"failed to read {path}: {reason}"
  | .write path reason => s!"failed to write {path}: {reason}"
  | .output reason => s!"failed to write output: {reason}"
  | .random reason => s!"failed to draw a random unit id: {reason}"
  | .tempPathsExhausted base attempts =>
    s!"no free temporary path at {base} after {attempts} attempts"
  | .spawn program reason => s!"failed to run {program}: {reason}"
  | .compile program path status => s!"{program} did not produce {path} (" ++ status.text ++ ")"
  | .link path status => s!"linking {path} failed (" ++ status.text ++ ")"

/-- A plan that may fail. -/
abbrev Build := ExceptT ToolError Plan

namespace Build

/-- Fails if the answer to a request is a failure. -/
def orThrow (error : String → ToolError) (answer : Plan (Except String α)) : Build α := do
  match ← ExceptT.lift answer with
  | .ok a => return a
  | .error reason => throw (error reason)

def readSource (path : String) : Build String :=
  orThrow (.read path) (Plan.request (.readSource path))

def drawId : Build UInt64 :=
  orThrow .random (Plan.request .drawId)

def writeFile (path text : String) : Build Unit :=
  orThrow (.write path) (Plan.request (.writeFile path text))

def runTool (program : String) (args : List String) : Build ExitStatus :=
  orThrow (.spawn program) (Plan.request (.runTool program args))

/-- Writes a text that is not empty. -/
def emit (sink : Sink) (text : String) : Build Unit :=
  if text.isEmpty then return () else orThrow .output (Plan.request (.emit sink text))

def createFile (path : String) : Build Creation :=
  ExceptT.lift (Plan.request (.createFile path))

def fileExists (path : String) : Build Bool :=
  ExceptT.lift (Plan.request (.fileExists path))

end Build

/-- The files of one unit. -/
structure UnitPaths where
  source : String
  object : String
  deriving DecidableEq, Repr

namespace UnitPaths

/-- A path is the base, the number in 16 hexadecimal digits, and the ending. -/
def ofId (base : String) (id : UInt64) : UnitPaths :=
  let stem := base ++ Text.hexPadded 16 id.toNat
  ⟨stem ++ ".c", stem ++ ".o"⟩

/-- No more numbers than this are drawn for one unit. -/
def maxAttempts : Nat := 32

/-- Draws numbers until one has no source file yet, and makes that file. -/
def reserveWithin (base : String) : Nat → Build UnitPaths
  | 0 => throw (.tempPathsExhausted base maxAttempts)
  | attempts + 1 => do
    let paths := ofId base (← Build.drawId)
    match ← Build.createFile paths.source with
    | .created => return paths
    | .taken => reserveWithin base attempts
    | .failed reason => throw (.write paths.source reason)

def reserve (base : String) : Build UnitPaths :=
  reserveWithin base maxAttempts

end UnitPaths

/-- The C compiler, which also links, and the symbol at which executables start. -/
structure Toolchain where
  compiler : String
  entry : String
  deriving DecidableEq, Repr

namespace Toolchain

/-- Compiles a C file. It is the object file that counts, not how the compiler ended. -/
def compile (t : Toolchain) (paths : UnitPaths) : Build Unit := do
  let status ← Build.runTool t.compiler ["-c", "-O2", paths.source, "-o", paths.object]
  if !(← Build.fileExists paths.object) then
    throw (.compile t.compiler paths.object status)

/-- Links object files into one executable. -/
def link (t : Toolchain) (objects : List String) (output : String) : Build Unit := do
  let status ← Build.runTool t.compiler
    (["-static", "-nostartfiles", "-e", t.entry] ++ objects ++ ["-o", output])
  if !status.isSuccess then
    throw (.link output status)

end Toolchain
end Bitpack
