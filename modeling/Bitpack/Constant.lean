import Bitpack.Operator

/-! Arithmetic on constants. All of it is done in 64-bit words, which wrap around; a result is cut down
to the storage word where it is used. -/

namespace Bitpack
namespace Constant

/-- The least width that holds a value; zero takes one bit. -/
def minBits (value : UInt64) : Nat :=
  if value = 0 then 1 else value.toNat.log2 + 1

/-- The value with its lowest `width` bits set. -/
def mask (width : Nat) : UInt64 :=
  if 64 ≤ width then UInt64.ofNat (UInt64.size - 1) else UInt64.ofNat ((1 <<< width) - 1)

/-- The value of an operator on two constants. There is none for a division by zero. -/
def fold? (op : Arith) (a b : UInt64) : Option UInt64 :=
  match op with
  | .mul => some (a * b)
  | .div => if b = 0 then none else some (a / b)
  | .rem => if b = 0 then none else some (a % b)
  | .add => some (a + b)
  | .sub => some (a - b)
  | .bitAnd => some (a &&& b)
  | .bitOr => some (a ||| b)
  | .bitXor => some (a ^^^ b)
  | .and => some (if a ≠ 0 ∧ b ≠ 0 then 1 else 0)
  | .or => some (if a ≠ 0 ∨ b ≠ 0 then 1 else 0)

/-- The complement of a constant within its width. -/
def complement (value : UInt64) (width : Nat) : UInt64 :=
  ~~~value &&& mask width

end Constant
end Bitpack
