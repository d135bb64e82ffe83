import Bitpack.Operator
import Bitpack.Source.Span

/-! Expressions as lists of items. A list is infix while it is read and postfix in a finished
expression, where no parenthesis is left. -/

namespace Bitpack

/-- The index of a variable among all variables of a unit. -/
abbrev VarId := Nat

mutual

inductive Item
  | var (id : VarId)
  /-- The numbered intermediate result of `width` bits. -/
  | temp (id width : Nat)
  | number (value : Int)
  | call (name : String) (args : List Expression) (span : Span)
  | operator (op : Operator)
  | opening
  | closing

inductive Expression
  | mk (items : List Item) (span : Span)

end

namespace Expression

def items : Expression → List Item
  | mk items _ => items

def span : Expression → Span
  | mk _ span => span

end Expression

namespace Item

def isOpening : Item → Bool
  | .opening => true
  | _ => false

end Item
end Bitpack
