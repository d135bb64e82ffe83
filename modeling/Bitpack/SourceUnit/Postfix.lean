import Bitpack.SourceUnit.Expression

/-! From infix to postfix order. Operands keep their order; an operator waits on a stack until the
next binary operator that binds no tighter, the parenthesis that closes around it, or the end. -/

namespace Bitpack

/-- Whether a waiting item goes out before the binary operator `op` comes in. -/
def Item.yieldsTo (op : Operator) : Item → Bool
  | .operator top => op.precedence ≤ top.precedence
  | _ => false

/-- The postfix order of the items that follow, over a stack of waiting ones, the latest first. A
closing parenthesis without its opening one empties the stack, and an opening one that is never
closed is dropped. -/
def shunt (stack : List Item) : List Item → List Item
  | [] => stack.filter (!·.isOpening)
  | .opening :: rest => shunt (.opening :: stack) rest
  | .closing :: rest =>
    stack.takeWhile (!·.isOpening) ++ shunt (stack.dropWhile (!·.isOpening)).tail rest
  | .operator op :: rest =>
    if op.isPrefix then shunt (.operator op :: stack) rest
    else stack.takeWhile (·.yieldsTo op) ++
      shunt (.operator op :: stack.dropWhile (·.yieldsTo op)) rest
  | operand :: rest => operand :: shunt stack rest

/-- The postfix order of an infix list. A single item stays as it is. -/
def toPostfix : List Item → List Item
  | [item] => [item]
  | items => shunt [] items

end Bitpack
