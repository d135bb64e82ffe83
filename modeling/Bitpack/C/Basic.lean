import Bitpack.Operator
import Bitpack.Word

/-! The part of C that methods are lowered to. Every value is an unsigned storage word. A function has
arrays of words for its parameters, its locals and the arguments of its calls, numbered temporaries
that are set once, and one result. -/

namespace Bitpack.C

/-- An array of words. -/
inductive Bank
  | params
  | locals
  /-- The arguments of a call, numbered within the function. -/
  | args (index : Nat)
  deriving DecidableEq, Repr

inductive Expr
  | decimal (value : UInt64)
  | hex (value : UInt64)
  | temp (index : Nat)
  | result
  | word (bank : Bank) (index : Nat)
  | paren (e : Expr)
  | complement (e : Expr)
  | binary (op : Arith) (left right : Expr)
  | shiftLeft (e : Expr) (amount : Nat)
  | shiftRight (e : Expr) (amount : Nat)
  /-- A call that hands over the object and an array of arguments. -/
  | call (function : String) (args : Nat)
  deriving DecidableEq, Repr

inductive Stmt
  /-- Marks a parameter of the function as used. -/
  | discard (parameter : String)
  /-- An array of words that are all zero. -/
  | declareWords (bank : Bank) (count : Nat)
  | declareResult
  | declareTemp (index : Nat) (value : Expr)
  | setResult (value : Expr)
  | setWord (bank : Bank) (index : Nat) (value : Expr)
  | andWord (bank : Bank) (index : Nat) (value : Expr)
  | orWord (bank : Bank) (index : Nat) (value : Expr)
  /-- Prints a number on a line of its own. -/
  | print (value : Expr)
  | returnResult
  deriving DecidableEq, Repr

/-- What is known of a function outside of it. -/
structure Prototype where
  isStatic : Bool
  name : String
  /-- Its name for the linker. -/
  symbol : String
  deriving DecidableEq, Repr

structure Function where
  prototype : Prototype
  body : List Stmt
  deriving DecidableEq, Repr

structure File where
  word : Word
  prototypes : List Prototype
  functions : List Function
  deriving DecidableEq, Repr

end Bitpack.C
