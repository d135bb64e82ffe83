import Mathlib
import Bitpack.Constant
import Bitpack.Word

/-! Bit fields of a word: runs of `width` bits that begin `low` bits above the least significant end. A
field that is set reads back what was put there, and all bits outside of it stay as they were. -/

namespace Bitpack

variable {n : ℕ}

/-- The number that a field holds. -/
def field (x : BitVec n) (low width : ℕ) : ℕ :=
  (x.extractLsb' low width).toNat

/-- The word with the lowest `width` bits of `v` in a field. -/
def setField (x : BitVec n) (low width v : ℕ) : BitVec n :=
  (x &&& ~~~(BitVec.ofNat n (2 ^ width - 1) <<< low)) ||| (BitVec.ofNat n (v % 2 ^ width) <<< low)

theorem field_eq (x : BitVec n) (low width : ℕ) : field x low width = (x.toNat >>> low) % 2 ^ width := by
  simp [field]

theorem field_lt (x : BitVec n) (low width : ℕ) : field x low width < 2 ^ width :=
  (x.extractLsb' low width).isLt

theorem testBit_field (x : BitVec n) (low width i : ℕ) :
    (field x low width).testBit i = (decide (i < width) && x.getLsbD (low + i)) := by
  rw [field, BitVec.testBit_toNat, BitVec.getLsbD_extractLsb']

theorem field_whole (x : BitVec n) : field x 0 n = x.toNat := by
  rw [field_eq, Nat.shiftRight_zero, Nat.mod_eq_of_lt x.isLt]

theorem getLsbD_setField (x : BitVec n) {low width : ℕ} (v i : ℕ) (h : low + width ≤ n) :
    (setField x low width v).getLsbD i =
      if low ≤ i ∧ i < low + width then v.testBit (i - low) else x.getLsbD i := by
  simp only [setField, BitVec.getLsbD_or, BitVec.getLsbD_and, BitVec.getLsbD_not, BitVec.getLsbD_shiftLeft,
    BitVec.getLsbD_ofNat, Nat.testBit_two_pow_sub_one, Nat.testBit_mod_two_pow]
  by_cases hi : i < n
  · split_ifs with hin
    · have h1 : ¬ i < low := by omega
      have h2 : i - low < width := by omega
      have h3 : i - low < n := by omega
      simp [hi, h1, h2, h3]
    · by_cases hl : i < low
      · simp [hi, hl]
      · have h2 : ¬ i - low < width := by omega
        simp [hi, hl, h2]
  · have hx : x.getLsbD i = false := BitVec.getLsbD_of_ge x i (by omega)
    have hin : ¬ (low ≤ i ∧ i < low + width) := by omega
    simp [hi, hx, hin]

theorem field_setField_self (x : BitVec n) {low width : ℕ} (v : ℕ) (h : low + width ≤ n) :
    field (setField x low width v) low width = v % 2 ^ width := by
  apply Nat.eq_of_testBit_eq
  intro i
  rw [testBit_field, getLsbD_setField x v _ h, Nat.testBit_mod_two_pow]
  by_cases hi : i < width
  · rw [if_pos ⟨Nat.le_add_right _ _, by omega⟩, Nat.add_sub_cancel_left]
  · simp [hi]

theorem field_setField_of_disjoint (x : BitVec n) {low width low' width' : ℕ} (v : ℕ) (h : low + width ≤ n)
    (hd : low + width ≤ low' ∨ low' + width' ≤ low) :
    field (setField x low width v) low' width' = field x low' width' := by
  apply Nat.eq_of_testBit_eq
  intro i
  rw [testBit_field, testBit_field]
  by_cases hi : i < width'
  · rw [getLsbD_setField x v _ h, if_neg (by omega)]
  · simp [hi]

theorem setField_whole (x : BitVec n) (v : ℕ) : setField x 0 n v = BitVec.ofNat n v := by
  apply BitVec.eq_of_getLsbD_eq
  intro i hi
  rw [getLsbD_setField x v i (by omega), if_pos (by omega), BitVec.getLsbD_ofNat, Nat.sub_zero]
  simp [hi]

/-- A number that has room in a field has room in the word when it is moved there. -/
theorem shiftLeft_lt {v low width : ℕ} (hv : v < 2 ^ width) (h : low + width ≤ n) : v <<< low < 2 ^ n :=
  lt_of_lt_of_le (Nat.shiftLeft_lt hv) (Nat.pow_le_pow_right two_pos (Nat.add_comm low width ▸ h))

/-- The bits of a word above and below a field that a mask in its place leaves standing. -/
theorem ofNat_and_complement (x : BitVec n) {low width : ℕ} (h : low + width ≤ n) :
    BitVec.ofNat n (x.toNat &&& (2 ^ n - 1 - (2 ^ width - 1) <<< low)) = setField x low width 0 := by
  have hlt : (2 ^ width - 1) <<< low < 2 ^ n := shiftLeft_lt (Nat.sub_lt (Nat.two_pow_pos _) one_pos) h
  apply BitVec.eq_of_getLsbD_eq
  intro i hi
  rw [getLsbD_setField x 0 i h, BitVec.getLsbD_ofNat, Nat.testBit_and, Nat.sub_sub, Nat.add_comm 1,
    Nat.testBit_two_pow_sub_succ hlt, Nat.testBit_shiftLeft, Nat.testBit_two_pow_sub_one, BitVec.testBit_toNat]
  split_ifs with hin
  · simp [hin, show i - low < width by omega]
  · by_cases hl : low ≤ i
    · simp [hi, hl, show ¬ i - low < width by omega]
    · simp [hi, hl]

theorem ofNat_or_shiftLeft (x : BitVec n) {low width : ℕ} (v : ℕ) (h : low + width ≤ n) :
    BitVec.ofNat n ((setField x low width 0).toNat ||| (v % 2 ^ width) <<< low) = setField x low width v := by
  apply BitVec.eq_of_getLsbD_eq
  intro i hi
  rw [getLsbD_setField x v i h, BitVec.getLsbD_ofNat, Nat.testBit_or, Nat.testBit_shiftLeft,
    Nat.testBit_mod_two_pow, BitVec.testBit_toNat, getLsbD_setField x 0 i h]
  split_ifs with hin
  · simp [hi, hin, show i - low < width by omega]
  · by_cases hl : low ≤ i
    · simp [hi, hl, show ¬ i - low < width by omega]
    · simp [hi, hl]

/-- A complement within more bits ends with the complement within `width` bits. -/
theorem complement_mod {width bits v : ℕ} (hv : v < 2 ^ width) (h : width ≤ bits) :
    (2 ^ bits - 1 - v) % 2 ^ width = 2 ^ width - 1 - v := by
  obtain ⟨d, hd⟩ : 2 ^ width ∣ 2 ^ bits := pow_dvd_pow 2 h
  have hd1 : d - 1 + 1 = d := by
    apply Nat.sub_add_cancel
    rcases Nat.eq_zero_or_pos d with rfl | hpos
    · exact absurd hd (Nat.two_pow_pos bits).ne'
    · exact hpos
  have hsplit : 2 ^ bits - 1 - v = (2 ^ width - 1 - v) + 2 ^ width * (d - 1) := by
    have : 2 ^ width * d = 2 ^ width * (d - 1) + 2 ^ width := by
      rw [← Nat.mul_succ, Nat.succ_eq_add_one, hd1]
    omega
  rw [hsplit, Nat.add_mul_mod_self_left, Nat.mod_eq_of_lt (by omega)]

namespace Constant

theorem toNat_mask {width : ℕ} (h : width ≤ 64) : (mask width).toNat = 2 ^ width - 1 := by
  have hlt : 2 ^ width - 1 < 2 ^ 64 :=
    lt_of_lt_of_le (Nat.sub_lt (Nat.two_pow_pos _) one_pos) (Nat.pow_le_pow_right two_pos h)
  unfold mask
  split_ifs with h64
  · obtain rfl : width = 64 := by omega
    rfl
  · rw [Nat.one_shiftLeft, UInt64.toNat_ofNat', Nat.mod_eq_of_lt hlt]

theorem and_toNat_mask {width : ℕ} (a : ℕ) (h : width ≤ 64) : a &&& (mask width).toNat = a % 2 ^ width := by
  rw [toNat_mask h, Nat.and_two_pow_sub_one_eq_mod]

theorem toNat_and_mask {width : ℕ} (a : UInt64) (h : width ≤ 64) :
    (a &&& mask width).toNat = a.toNat % 2 ^ width := by
  rw [UInt64.toNat_and, and_toNat_mask _ h]

theorem toNat_lt_minBits (a : UInt64) : a.toNat < 2 ^ minBits a := by
  unfold minBits
  split_ifs with h
  · rw [h]; decide
  · exact Nat.lt_log2_self

theorem minBits_le (a : UInt64) : minBits a ≤ 64 := by
  unfold minBits
  split_ifs with h
  · omega
  · have h0 : a.toNat ≠ 0 := fun h' => h (UInt64.toNat_inj.1 h')
    have : a.toNat.log2 < 64 := (Nat.log2_lt h0).2 a.toNat_lt
    omega

theorem toNat_complement {a : UInt64} {width : ℕ} (h : width ≤ 64) (ha : a.toNat < 2 ^ width) :
    (complement a width).toNat = 2 ^ width - 1 - a.toNat := by
  rw [complement, toNat_and_mask _ h, UInt64.toNat_not]
  exact complement_mod ha h

end Constant
end Bitpack
