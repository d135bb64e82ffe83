/-! Operators of expressions, how tightly they bind and how they are written. -/

namespace Bitpack

/-- Operators that compute a number from two numbers. -/
inductive Arith
  | mul
  | div
  | add
  | sub
  | bitAnd
  | bitOr
  | bitXor
  | rem
  | and
  | or
  deriving DecidableEq, Repr

inductive Operator
  | arith (a : Arith)
  /-- Bitwise complement, written before its operand. -/
  | not
  | assign
  /-- `width : value` gives the value another width. -/
  | cast
  deriving DecidableEq, Repr

namespace Arith

/-- A higher number binds tighter. -/
def precedence : Arith → Nat
  | .mul | .div => 3
  | .add | .sub => 2
  | .bitAnd | .bitOr | .bitXor | .rem | .and | .or => 1

def symbol : Arith → String
  | .mul => "*"
  | .div => "/"
  | .add => "+"
  | .sub => "-"
  | .bitAnd => "&"
  | .bitOr => "|"
  | .bitXor => "^"
  | .rem => "%"
  | .and => "and"
  | .or => "or"

end Arith

namespace Operator

def precedence : Operator → Nat
  | .arith a => a.precedence
  | .not => 1
  | .assign => 1
  | .cast => 4

def isPrefix : Operator → Bool
  | .not => true
  | _ => false

def symbol : Operator → String
  | .arith a => a.symbol
  | .not => "~"
  | .assign => "="
  | .cast => ":"

/-- Every operator once. -/
def all : List Operator :=
  [.arith .mul, .arith .div, .arith .add, .arith .sub, .arith .bitAnd, .arith .bitOr, .not,
    .arith .bitXor, .arith .rem, .arith .and, .arith .or, .assign, .cast]

def ofSymbol? (s : String) : Option Operator :=
  all.find? fun op => op.symbol == s

end Operator
end Bitpack
