import Mathlib
import Bitpack.Proofs.Field

/-! Operators on numbers. Their results are integers, and unsigned arithmetic of any width is the integer result cut
down to that many bits, so results in different widths can be compared. -/

namespace Bitpack

/-- The integer that an operator makes of two numbers. A zero divisor gives none. -/
def Arith.compute? (op : Arith) (a b : ℕ) : Option ℤ :=
  match op with
  | .mul => some (a * b)
  | .div => if b = 0 then none else some (a / b : ℕ)
  | .rem => if b = 0 then none else some (a % b : ℕ)
  | .add => some (a + b)
  | .sub => some (a - b)
  | .bitAnd => some (a &&& b : ℕ)
  | .bitOr => some (a ||| b : ℕ)
  | .bitXor => some (a ^^^ b : ℕ)
  | .and => some (if a ≠ 0 ∧ b ≠ 0 then 1 else 0)
  | .or => some (if a ≠ 0 ∨ b ≠ 0 then 1 else 0)

/-- Unsigned arithmetic of `w` bits, which wraps around. There is no quotient and no remainder for zero. -/
def Arith.onWords? {w : ℕ} (op : Arith) (a b : BitVec w) : Option (BitVec w) :=
  match op with
  | .mul => some (a * b)
  | .div => if b = 0 then none else some (a / b)
  | .rem => if b = 0 then none else some (a % b)
  | .add => some (a + b)
  | .sub => some (a - b)
  | .bitAnd => some (a &&& b)
  | .bitOr => some (a ||| b)
  | .bitXor => some (a ^^^ b)
  | .and => some (if a ≠ 0 ∧ b ≠ 0 then 1 else 0)
  | .or => some (if a ≠ 0 ∨ b ≠ 0 then 1 else 0)

/-- An integer modulo `2 ^ width`. -/
def truncate (width : ℕ) (z : ℤ) : ℕ :=
  (z % 2 ^ width).toNat

theorem truncate_natCast (width v : ℕ) : truncate width v = v % 2 ^ width := by
  unfold truncate
  norm_cast

theorem truncate_cast (width : ℕ) (z : ℤ) : (truncate width z : ℤ) = z % 2 ^ width :=
  Int.toNat_of_nonneg (Int.emod_nonneg z (by positivity))

theorem truncate_truncate {width wider : ℕ} (h : width ≤ wider) (z : ℤ) :
    truncate width (truncate wider z) = truncate width z := by
  rw [truncate, truncate_cast, Int.emod_emod_of_dvd z (pow_dvd_pow 2 h), truncate]

theorem truncate_mod {width wider : ℕ} (h : width ≤ wider) (z : ℤ) :
    truncate wider z % 2 ^ width = truncate width z := by
  rw [← truncate_natCast, truncate_truncate h]

theorem toNat_onWords? {w : ℕ} (op : Arith) (a b : BitVec w) :
    (op.onWords? a b).map BitVec.toNat = (op.compute? a.toNat b.toNat).map (truncate w) := by
  have hzero (x : BitVec w) : x = 0 ↔ x.toNat = 0 := BitVec.toNat_inj.symm
  have hbit (p : Prop) [Decidable p] : (if p then 1 else 0 : BitVec w).toNat = truncate w (if p then 1 else 0) := by
    split_ifs
    · exact (BitVec.toNat_ofNat 1 w).trans (truncate_natCast w 1).symm
    · exact (BitVec.toNat_ofNat 0 w).trans (truncate_natCast w 0).symm
  cases op with
  | mul =>
    simp only [Arith.onWords?, Arith.compute?, Option.map_some, BitVec.toNat_mul]
    rw [← Nat.cast_mul, truncate_natCast]
  | div =>
    have hlt : a.toNat / b.toNat < 2 ^ w := lt_of_le_of_lt (Nat.div_le_self _ _) a.isLt
    simp only [Arith.onWords?, Arith.compute?, hzero]
    split_ifs
    · rfl
    · rw [Option.map_some, Option.map_some, truncate_natCast, BitVec.toNat_udiv, Nat.mod_eq_of_lt hlt]
  | rem =>
    have hlt : a.toNat % b.toNat < 2 ^ w := lt_of_le_of_lt (Nat.mod_le _ _) a.isLt
    simp only [Arith.onWords?, Arith.compute?, hzero]
    split_ifs
    · rfl
    · rw [Option.map_some, Option.map_some, truncate_natCast, BitVec.toNat_umod, Nat.mod_eq_of_lt hlt]
  | add =>
    simp only [Arith.onWords?, Arith.compute?, Option.map_some, BitVec.toNat_add]
    rw [← Nat.cast_add, truncate_natCast]
  | sub =>
    simp only [Arith.onWords?, Arith.compute?, Option.map_some, BitVec.toNat_sub]
    have hb := b.isLt
    rw [← truncate_natCast, Nat.cast_add, Nat.cast_sub hb.le]
    unfold truncate
    congr 2
    push_cast
    rw [sub_add_eq_add_sub, add_sub_assoc, Int.add_emod_left]
  | bitAnd =>
    have hlt : a.toNat &&& b.toNat < 2 ^ w := lt_of_le_of_lt Nat.and_le_left a.isLt
    simp only [Arith.onWords?, Arith.compute?, Option.map_some, BitVec.toNat_and]
    rw [truncate_natCast, Nat.mod_eq_of_lt hlt]
  | bitOr =>
    have hlt : a.toNat ||| b.toNat < 2 ^ w := Nat.or_lt_two_pow a.isLt b.isLt
    simp only [Arith.onWords?, Arith.compute?, Option.map_some, BitVec.toNat_or]
    rw [truncate_natCast, Nat.mod_eq_of_lt hlt]
  | bitXor =>
    have hlt : a.toNat ^^^ b.toNat < 2 ^ w := Nat.xor_lt_two_pow a.isLt b.isLt
    simp only [Arith.onWords?, Arith.compute?, Option.map_some, BitVec.toNat_xor]
    rw [truncate_natCast, Nat.mod_eq_of_lt hlt]
  | and =>
    simp only [Arith.onWords?, Arith.compute?, Option.map_some, ne_eq, hzero]
    exact congrArg some (hbit _)
  | or =>
    simp only [Arith.onWords?, Arith.compute?, Option.map_some, ne_eq, hzero]
    exact congrArg some (hbit _)

namespace Constant

theorem fold?_eq_onWords? (op : Arith) (a b : UInt64) :
    fold? op a b = (op.onWords? a.toBitVec b.toBitVec).map UInt64.ofBitVec := by
  have hzero (x : UInt64) : x.toBitVec = 0 ↔ x = 0 := UInt64.toBitVec_inj
  cases op with
  | mul | add | sub | bitAnd | bitOr | bitXor => rfl
  | div | rem =>
    simp only [fold?, Arith.onWords?, hzero]
    split_ifs <;> rfl
  | and | or =>
    simp only [fold?, Arith.onWords?, ne_eq, hzero]
    split_ifs <;> rfl

theorem toNat_fold? (op : Arith) (a b : UInt64) :
    (fold? op a b).map UInt64.toNat = (op.compute? a.toNat b.toNat).map (truncate 64) := by
  rw [fold?_eq_onWords?, Option.map_map]
  exact toNat_onWords? op a.toBitVec b.toBitVec

end Constant
end Bitpack
