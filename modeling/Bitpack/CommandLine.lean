import Bitpack.Word

/-! The command line. Options and inputs mix. A value that is attached to its option is checked at
once; a value or an input that stands by itself is checked when the next known option or flag is met,
or else at the end, so an unknown option after it is reported first. -/

namespace Bitpack

/-- How far a build goes. -/
inductive Stage
  | tokens
  | outline
  | source
  | objects
  | executable
  deriving DecidableEq, Repr

namespace Stage

def text : Stage → String
  | .tokens => "lex"
  | .outline => "parse"
  | .source => "c"
  | .objects => "obj"
  | .executable => "link"

def ofText? : String → Option Stage
  | "lex" => some .tokens
  | "parse" => some .outline
  | "c" => some .source
  | "obj" => some .objects
  | "link" => some .executable
  | _ => none

end Stage

/-- What is to be done. -/
structure Command where
  inputs : List String := []
  stage : Stage := .executable
  word : Word := .w64
  /-- The path of the executable. -/
  output : String := "a.out"
  compiler : String := "cc"
  /-- The symbol at which the executable starts. -/
  entry : String := "_start"
  tempDir : Option String := none
  /-- A linkage symbol to be read instead of any input. -/
  symbol : Option String := none
  verbosity : Nat := 0
  deriving DecidableEq, Repr

inductive CommandError
  | missingInputs
  | invalidValue
  | unknownArgument
  | repeatedOption
  /-- A value attached to a flag. -/
  | unwantedValue
  | helpAsked
  | versionAsked
  deriving DecidableEq, Repr

/-- Options that take a value, once each. -/
inductive CommandOption
  | stage
  | word
  | output
  | compiler
  | entry
  | tempDir
  | symbol
  deriving DecidableEq, Repr

inductive CommandFlag
  | verbose
  | help
  | version
  deriving DecidableEq, Repr

namespace CommandOption

def ofLong? : String → Option CommandOption
  | "stage" => some .stage
  | "word" => some .word
  | "output" => some .output
  | "cc" => some .compiler
  | "entry" => some .entry
  | "tmp-dir" => some .tempDir
  | "demangle" => some .symbol
  | _ => none

def ofShort? : Char → Option CommandOption
  | 'o' => some .output
  | _ => none

end CommandOption

namespace CommandFlag

def ofLong? : String → Option CommandFlag
  | "verbose" => some .verbose
  | "help" => some .help
  | "version" => some .version
  | _ => none

def ofShort? : Char → Option CommandFlag
  | 'v' => some .verbose
  | 'h' => some .help
  | 'V' => some .version
  | _ => none

end CommandFlag

namespace Command

/-- No path is empty. -/
def checkPath (path : String) : Except CommandError String :=
  if path.isEmpty then .error .invalidValue else .ok path

def checkKnown (value : Option α) : Except CommandError α :=
  match value with
  | some a => .ok a
  | none => .error .invalidValue

def set (c : Command) (value : String) : CommandOption → Except CommandError Command
  | .stage => return { c with stage := ← checkKnown (Stage.ofText? value) }
  | .word => return { c with word := ← checkKnown (Word.ofText? value) }
  | .output => return { c with output := ← checkPath value }
  | .compiler => return { c with compiler := value }
  | .entry => return { c with entry := value }
  | .tempDir => return { c with tempDir := some (← checkPath value) }
  | .symbol => return { c with symbol := some value }

/-- Verbosity stops growing here. -/
def maxVerbosity : Nat := 255

end Command

/-- Arguments that have been met but not checked. -/
inductive Pending
  | nothing
  /-- An option and the value after it, if there was one. -/
  | option (o : CommandOption) (value : Option String)
  /-- Inputs, the latest first. -/
  | inputs (paths : List String)
  deriving DecidableEq, Repr

structure CommandReader where
  command : Command := {}
  /-- The options given so far. -/
  seen : List CommandOption := []
  pending : Pending := .nothing
  deriving DecidableEq, Repr

namespace CommandReader

/-- Gives an option its value. -/
def assign (r : CommandReader) (o : CommandOption) (value : String) :
    Except CommandError CommandReader :=
  if r.seen.contains o then .error .repeatedOption
  else return { r with command := ← r.command.set value o, seen := o :: r.seen }

/-- Checks what is pending. -/
def settle (r : CommandReader) : Except CommandError CommandReader :=
  let settled : CommandReader := { r with pending := .nothing }
  match r.pending with
  | .nothing => .ok settled
  | .option _ none => .error .invalidValue
  | .option o (some value) => settled.assign o value
  | .inputs paths => do
    let paths ← paths.reverse.mapM Command.checkPath
    return { settled with command := { r.command with inputs := r.command.inputs ++ paths } }

/-- An option whose value is attached to it. -/
def attach (r : CommandReader) (o : CommandOption) (value : String) :
    Except CommandError CommandReader := do
  (← r.settle).assign o value

/-- An option whose value is yet to come. -/
def await (r : CommandReader) (o : CommandOption) : Except CommandError CommandReader := do
  return { ← r.settle with pending := .option o none }

def flag (r : CommandReader) (f : CommandFlag) : Except CommandError CommandReader := do
  let r ← r.settle
  match f with
  | .verbose =>
    let verbosity := min (r.command.verbosity + 1) Command.maxVerbosity
    return { r with command := { r.command with verbosity } }
  | .help => .error .helpAsked
  | .version => .error .versionAsked

def input (r : CommandReader) (path : String) : Except CommandError CommandReader :=
  match r.pending with
  | .inputs paths => return { r with pending := .inputs (path :: paths) }
  | _ => return { ← r.settle with pending := .inputs [path] }

/-- An argument that is neither an option nor a flag: the value that is waited for, or an input. -/
def plain (r : CommandReader) (arg : String) : Except CommandError CommandReader :=
  match r.pending with
  | .option o none => return { r with pending := .option o (some arg) }
  | _ => r.input arg

/-- What follows two dashes, perhaps with a value after an equals sign. -/
def long (r : CommandReader) (cs : List Char) : Except CommandError CommandReader :=
  let name := String.ofList (cs.takeWhile (· ≠ '='))
  let value := match cs.dropWhile (· ≠ '=') with
    | _ :: value => some (String.ofList value)
    | [] => none
  match CommandOption.ofLong? name, value with
  | some o, some value => r.attach o value
  | some o, none => r.await o
  | none, value =>
    match CommandFlag.ofLong? name, value with
    | some f, none => r.flag f
    | some _, some _ => .error .unwantedValue
    | none, _ => .error .unknownArgument

/-- What follows one dash: flags, and perhaps an option with its value. -/
def short (r : CommandReader) : List Char → Except CommandError CommandReader
  | [] => .ok r
  | c :: cs =>
    match CommandFlag.ofShort? c, CommandOption.ofShort? c with
    | some f, _ => do short (← r.flag f) cs
    | none, some o =>
      match cs with
      | [] => r.await o
      | '=' :: value => r.attach o (String.ofList value)
      | value => r.attach o (String.ofList value)
    | none, none => .error .unknownArgument

def argument (r : CommandReader) (arg : String) : Except CommandError CommandReader :=
  match arg.toList with
  | '-' :: '-' :: name => r.long name
  | '-' :: c :: cs => r.short (c :: cs)
  | _ => r.plain arg

/-- Reads the arguments that follow; after two dashes all are inputs. -/
def arguments (r : CommandReader) : List String → Except CommandError CommandReader
  | [] => r.settle
  | "--" :: rest => do
    let r ← rest.foldlM input r
    r.settle
  | arg :: rest => do arguments (← r.argument arg) rest

end CommandReader

/-- The command that a list of arguments gives. Inputs may be missing only if a symbol is given. -/
def Command.ofArguments (args : List String) : Except CommandError Command := do
  let r ← ({} : CommandReader).arguments args
  if r.command.inputs.isEmpty && r.command.symbol.isNone then .error .missingInputs
  else .ok r.command

end Bitpack
