import Bitpack.Packing
import Bitpack.SourceUnit.Expression
import Bitpack.Word

/-! What a source text describes: one object, with its imports, its methods and their variables. -/

namespace Bitpack

/-- Which words hold a variable. -/
inductive Storage
  /-- Packed into the words that the caller provides. -/
  | params
  /-- Packed into the words of the method itself. -/
  | locals
  /-- The result, a word of its own. -/
  | result
  deriving DecidableEq, Repr

structure Variable where
  name : String
  width : Nat
  slot : Slot := ⟨0, 0⟩
  castTarget : Option String := none
  storage : Storage
  deriving DecidableEq, Repr

instance : Inhabited Variable := ⟨{ name := "", width := 1, storage := .result }⟩

inductive Statement
  | eval (e : Expression)
  | ret (e : Option Expression)

inductive Access
  | exposed
  | internal
  /-- Neither declared nor defined in the output. -/
  | ignored
  deriving DecidableEq, Repr

namespace Access

def ofTag? : String → Option Access
  | "public" => some .exposed
  | "private" => some .internal
  | "ignore" => some .ignored
  | _ => none

/-- The word for it in an outline. -/
def text : Access → String
  | .exposed => "public"
  | .internal => "private"
  | .ignored => "ignored"

end Access

structure Body where
  /-- Names and variables in the order of declaration. -/
  locals : List (String × VarId)
  statements : List Statement
  groupCount : Nat
  totalBits : Nat

structure Method where
  name : String
  access : Access
  params : List VarId
  paramGroups : Nat
  paramBits : Nat
  /-- The variable that holds the result; it has the name of the method. -/
  result : VarId
  /-- More arguments than parameters may be given. -/
  variadic : Bool
  body : Option Body
  span : Span

structure Import where
  name : String
  span : Span
  deriving DecidableEq, Repr

structure SourceUnit where
  name : String := ""
  bits : Nat := 0
  /-- The word that variables are packed for. -/
  word : Word
  methods : Array Method := #[]
  imports : Array Import := #[]
  /-- All variables of all methods, also of methods that were not kept. -/
  vars : Array Variable := #[]

namespace SourceUnit

def var (u : SourceUnit) (id : VarId) : Variable :=
  u.vars.getD id default

def method? (u : SourceUnit) (name : String) : Option Method :=
  u.methods.find? fun m => m.name == name

end SourceUnit
end Bitpack
