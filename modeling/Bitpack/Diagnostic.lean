import Bitpack.Packing
import Bitpack.Token.Basic

/-! What can be wrong with a source, where, and in which words it is reported. -/

namespace Bitpack

inductive Category
  | syntactic
  | semantic
  | allocation
  | tool
  deriving DecidableEq, Repr

namespace Category

def text : Category → String
  | .syntactic => "syntax"
  | .semantic => "semantic"
  | .allocation => "allocation"
  | .tool => "tool"

/-- A fatal problem ends the work on its unit. -/
def isFatal : Category → Bool
  | .allocation | .tool => true
  | .syntactic | .semantic => false

end Category

inductive Cause
  | unexpected (actual expected : String)
  | strayChar (c : Char)
  | badNumber (text : String)
  | illegalSequence (after actual : String)
  | unbalancedParen
  | missingHeader
  | emptyInput
  | undeclared (name : String)
  | duplicateDeclaration (name : String)
  | duplicateMethod (name : String)
  | unknownTag (name : String)
  | zeroWidth (name : String)
  | dynamicCast
  | castWidthOutOfRange (width max : Nat)
  | invalidAssignmentTarget
  | undefinedMethod (name : String)
  | ignoredMethod (name : String)
  | argumentCount (method : String) (expected actual : Nat)
  | divisionByZero
  | unpackable (name : String) (error : PackError)
  | wordMismatch (unit generator : Nat)
  deriving DecidableEq, Repr

namespace Cause

def category : Cause → Category
  | .unexpected .. | .strayChar _ | .badNumber _ | .illegalSequence .. | .unbalancedParen
  | .missingHeader | .emptyInput => .syntactic
  | .undeclared _ | .duplicateDeclaration _ | .duplicateMethod _ | .unknownTag _
  | .zeroWidth _ | .dynamicCast | .castWidthOutOfRange .. | .invalidAssignmentTarget
  | .undefinedMethod _ | .ignoredMethod _ | .argumentCount .. | .divisionByZero => .semantic
  | .unpackable .. | .wordMismatch .. => .allocation

def isFatal (c : Cause) : Bool :=
  c.category.isFatal

def message : Cause → String
  | .unexpected actual expected => s!"expected {expected}, but got {actual}"
  | .strayChar c => "unexpected character " ++ Text.quoteChar c
  | .badNumber text => "invalid number " ++ Text.quoteText text
  | .illegalSequence after actual => s!"illegal symbol sequence: {after} followed by {actual}"
  | .unbalancedParen => "unbalanced parentheses"
  | .missingHeader => "missing object header"
  | .emptyInput => "empty input"
  | .undeclared name => s!"{name} is not declared"
  | .duplicateDeclaration name => s!"{name} is already declared in this scope"
  | .duplicateMethod name => s!"method {name} is already defined"
  | .unknownTag name => s!"unknown annotation @{name}"
  | .zeroWidth name => s!"variable {name} has zero width"
  | .dynamicCast => "cast width must be a constant"
  | .castWidthOutOfRange width max => s!"cast width {width} is out of range 1..={max}"
  | .invalidAssignmentTarget => "assignment target must be a variable"
  | .undefinedMethod name => s!"method {name} is not defined"
  | .ignoredMethod name => s!"method {name} is ignored and can't be called"
  | .argumentCount method expected actual =>
    s!"method {method} takes {expected} arguments, but got {actual}"
  | .divisionByZero => "division by zero in constant expression"
  | .unpackable name error => s!"variable {name}: " ++ error.message
  | .wordMismatch unit generator =>
    s!"unit was packed for {unit}-bit groups, but the generator emits {generator}-bit words"

end Cause

/-- A cause at a place in the source. -/
structure Diagnostic where
  cause : Cause
  span : Span
  deriving DecidableEq, Repr

/-- The problem that something else was expected in place of a token. -/
def Token.unexpected (t : Token) (expected : String) : Diagnostic :=
  match t.kind with
  | .stray c => ⟨.strayChar c, t.span⟩
  | kind => ⟨.unexpected kind.text expected, t.span⟩

namespace Diagnostic

def isFatal (d : Diagnostic) : Bool :=
  d.cause.isFatal

def message (d : Diagnostic) : String :=
  d.cause.message

/-- The message after its place. -/
def located (d : Diagnostic) : String :=
  d.span.text ++ ": " ++ d.message

end Diagnostic
end Bitpack
