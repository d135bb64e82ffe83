import Bitpack.Build.Run

/-! The command line program. Everything that it does is decided by its plan; here the requests of the
plan are answered by the machine. No other program can be started from here, so a build that needs the
C compiler reports that it could not be run. -/

namespace Bitpack.Main

/-- The words of the system for a failure, with its number. -/
def reason (e : IO.Error) : String :=
  match e with
  | .noFileOrDirectory .. => "No such file or directory (os error 2)"
  | .permissionDenied .. => "Permission denied (os error 13)"
  | .alreadyExists .. => "File exists (os error 17)"
  | e => toString e

def attempt (action : IO α) : IO (Except String α) :=
  try
    return .ok (← action)
  catch e =>
    return .error (reason e)

/-- A text file, whose bytes have to be UTF-8. -/
def readText (path : String) : IO (Except String String) := do
  match ← attempt (IO.FS.readBinFile path) with
  | .error e => return .error e
  | .ok bytes =>
    match String.fromUTF8? bytes with
    | some text => return .ok text
    | none => return .error "stream did not contain valid UTF-8"

def create (path : String) : IO Creation :=
  try
    let _ ← IO.FS.Handle.mk path .writeNew
    return .created
  catch
    | .alreadyExists .. => return .taken
    | e => return .failed (reason e)

def fileExists (path : String) : IO Bool := do
  match ← attempt (IO.FS.readBinFile path) with
  | .ok _ => return true
  | .error _ => return false

def drawId : IO UInt64 := do
  let bytes ← IO.getRandomBytes 8
  return bytes.foldl (fun n b => n * 256 + b.toUInt64) 0

def write (sink : Sink) (text : String) : IO Unit := do
  let stream ← match sink with
    | .output => IO.getStdout
    | .diagnostics => IO.getStderr
  stream.putStr text
  stream.flush

def answer : (q : Request) → IO q.Answer
  | .readSource path => readText path
  | .drawId => attempt drawId
  | .createFile path => create path
  | .writeFile path text => attempt (IO.FS.writeFile path text)
  | .fileExists path => fileExists path
  | .runTool .. => pure (.error "Operation not supported (os error 95)" : Except String ExitStatus)
  | .emit sink text => attempt (write sink text)

def usage : String :=
  "usage: bitc [--stage lex|parse|c|obj|link] [--word 32|64] [-o OUTPUT] [--cc CC]\n"
    ++ "            [--entry SYMBOL] [--tmp-dir DIR] [-v] INPUT...\n"
    ++ "       bitc --demangle SYMBOL\n"

def commandMessage : CommandError → String
  | .missingInputs => "no input is given"
  | .invalidValue => "an option has no value or a wrong one"
  | .unknownArgument => "there is no such option"
  | .repeatedOption => "an option is given twice"
  | .unwantedValue => "a flag takes no value"
  | .helpAsked | .versionAsked => ""

end Bitpack.Main

open Bitpack in
def main (args : List String) : IO UInt32 := do
  match Command.ofArguments args with
  | .error .helpAsked =>
    IO.print Main.usage
    return 0
  | .error .versionAsked =>
    IO.println "bitc 0.0.1"
    return 0
  | .error e =>
    IO.eprint ("error: " ++ Main.commandMessage e ++ "\n" ++ Main.usage)
    return 2
  | .ok c =>
    let tempDir := (← IO.getEnv "TMPDIR").getD "/tmp"
    match ← (c.plan tempDir).run.perform Main.answer with
    | .ok tally => return if tally.mayLink then 0 else 1
    | .error e =>
      IO.eprintln ("bitc: " ++ e.message)
      return 1
