import Mathlib
import Bitpack.Lowering.Basic
import Bitpack.Proofs.Execution

/-! Packed slots as C code sees them. Reading a slot gives the number in its field of the word, and
writing it sets that field, provided that the value can still be had once the slot is cleared. -/

namespace Bitpack

variable {w : Word}

namespace Slot

/-- Two ranges of bits that have none in common. -/
def Apart (a : Slot) (width : ℕ) (b : Slot) (width' : ℕ) : Prop :=
  a.group ≠ b.group ∨ a.offset + width ≤ b.offset ∨ b.offset + width' ≤ a.offset

theorem Apart.symm {a b : Slot} {width width' : ℕ} (h : Apart a width b width') : Apart b width' a width := by
  rcases h with h | h | h
  · exact Or.inl h.symm
  · exact Or.inr (Or.inr h)
  · exact Or.inr (Or.inl h)

end Slot

theorem slotShift_add {slot : Slot} {width : ℕ} (h : slot.offset + width ≤ w.bits) :
    slotShift w slot width + width ≤ w.bits := by
  unfold slotShift
  omega

namespace C

theorem le_literalBits (w : Word) (value : UInt64) : w.bits ≤ literalBits w value := by
  unfold literalBits
  split_ifs
  · exact le_rfl
  · exact w.bits_le

theorem literalBits_mask {width : ℕ} (h : width ≤ w.bits) : literalBits w (Constant.mask width) = w.bits := by
  rw [literalBits, Constant.toNat_mask (h.trans w.bits_le), if_pos]
  exact lt_of_lt_of_le (Nat.sub_lt (Nat.two_pow_pos _) one_pos) (Nat.pow_le_pow_right two_pos h)

/-- Where a mask stands on the right of `&`, the left operand is cut down to its width. -/
theorem eval_and_mask {s : State w} {e : Expr} {v width : ℕ} (he : e.eval s = some v) (hw : width ≤ w.bits) :
    (Expr.binary .bitAnd e (.hex (Constant.mask width))).eval s = some (v % 2 ^ width) := by
  have hle : width ≤ max (e.bits w) (literalBits w (Constant.mask width)) :=
    hw.trans ((le_literalBits w _).trans (le_max_right _ _))
  have hlt : v % 2 ^ width < 2 ^ max (e.bits w) (literalBits w (Constant.mask width)) :=
    lt_of_lt_of_le (Nat.mod_lt _ (Nat.two_pow_pos _)) (Nat.pow_le_pow_right two_pos hle)
  simp only [Expr.eval, he, Option.bind_eq_bind, Option.bind_some, Arith.compute?, Option.map_some, Expr.bits]
  rw [Constant.and_toNat_mask v (hw.trans w.bits_le), truncate_natCast, Nat.mod_eq_of_lt hlt]

namespace State

/-- The number in a slot. -/
def slot (s : State w) (bank : Bank) (slot : Slot) (width : ℕ) : ℕ :=
  field ((s.word? bank slot.group).getD 0) (slotShift w slot width) width

/-- The state with a number, cut down to `width` bits, in a slot. -/
def setSlot (s : State w) (bank : Bank) (slot : Slot) (width v : ℕ) : State w :=
  s.setWord bank slot.group (setField ((s.word? bank slot.group).getD 0) (slotShift w slot width) width v)

variable {s : State w} {bank bank' : Bank} {a b : Slot} {width width' : ℕ}

theorem slot_lt (s : State w) (bank : Bank) (slot : Slot) (width : ℕ) : s.slot bank slot width < 2 ^ width :=
  field_lt _ _ _

@[simp] theorem setSlot_returned (v : ℕ) : (s.setSlot bank a width v).returned = s.returned := rfl

@[simp] theorem size_setSlot (v : ℕ) : (s.setSlot bank a width v).size bank' = s.size bank' :=
  size_setWord s bank bank' _ _

theorem slot_setSlot_self (v : ℕ) (hin : a.group < s.size bank) (hfit : a.offset + width ≤ w.bits) :
    (s.setSlot bank a width v).slot bank a width = v % 2 ^ width := by
  unfold slot setSlot
  rw [word?_setWord_self _ hin, Option.getD_some, field_setField_self _ _ (slotShift_add hfit)]

theorem slot_setSlot_of_apart (v : ℕ) (hin : a.group < s.size bank) (hfit : a.offset + width ≤ w.bits)
    (hfit' : b.offset + width' ≤ w.bits) (h : bank' ≠ bank ∨ a.Apart width b width') :
    (s.setSlot bank a width v).slot bank' b width' = s.slot bank' b width' := by
  unfold slot setSlot
  by_cases hw : bank' ≠ bank ∨ b.group ≠ a.group
  · rw [word?_setWord_of_ne s _ hw]
  · obtain ⟨rfl, hg⟩ : bank' = bank ∧ b.group = a.group := by
      simpa only [not_or, ne_eq, not_not] using hw
    rw [hg, word?_setWord_self _ hin, Option.getD_some]
    apply field_setField_of_disjoint _ _ (slotShift_add hfit)
    rcases h with h | h | h | h
    · exact absurd rfl h
    · exact absurd hg.symm h
    · right; unfold slotShift; omega
    · left; unfold slotShift; omega

end State

variable {s : State w} {bank : Bank} {slot : Slot} {width : ℕ}

theorem eval_slotRead (hin : slot.group < s.size bank) (hfit : slot.offset + width ≤ w.bits) (hpos : 0 < width) :
    (slotRead w bank slot width).eval s = some (s.slot bank slot width) := by
  obtain ⟨x, hx⟩ := State.word?_of_lt hin
  have hword : (Expr.word bank slot.group).eval s = some x.toNat := by
    rw [Expr.eval, hx, Option.map_some]
  unfold slotRead State.slot
  rw [hx, Option.getD_some]
  split_ifs with hfull
  · obtain rfl : width = w.bits := hfull
    rw [show slotShift w slot w.bits = 0 by unfold slotShift; omega, field_whole, hword]
  · have hle : width ≤ w.bits := by omega
    cases hs : slotShift w slot width with
    | zero =>
      simp only
      rw [Expr.eval_paren, eval_and_mask hword hle, field_eq, Nat.shiftRight_zero]
    | succ k =>
      have hk : k + 1 < w.bits := by
        unfold slotShift at hs
        omega
      have hshift : (Expr.paren (.shiftRight (.word bank slot.group) (k + 1))).eval s
          = some (x.toNat >>> (k + 1)) := by
        rw [Expr.eval_paren, Expr.eval, if_pos (by simpa [Expr.bits] using hk), hword, Option.map_some]
      simp only
      rw [Expr.eval_paren, eval_and_mask hshift hle, field_eq]

theorem eval_slotRead_congr {s' : State w} (h : s'.word? bank slot.group = s.word? bank slot.group) :
    (slotRead w bank slot width).eval s' = (slotRead w bank slot width).eval s := by
  unfold slotRead
  split_ifs
  · simp only [Expr.eval, h]
  · cases slotShift w slot width <;> simp only [Expr.eval, h]

/-- An expression moved to where a slot is. -/
def shifted (w : Word) (slot : Slot) (width : ℕ) (e : Expr) : Expr :=
  match slotShift w slot width with
  | 0 => e
  | shift => .shiftLeft e shift

theorem slotWrite_of_ne (value : Expr) (h : width ≠ w.bits) : slotWrite w bank slot width value =
    [.andWord bank slot.group (.complement (.paren (shifted w slot width (.hex (Constant.mask width))))),
      .orWord bank slot.group
        (shifted w slot width (.paren (.binary .bitAnd value (.hex (Constant.mask width)))))] := by
  rw [slotWrite, if_neg h]
  rfl

theorem bits_shifted (e : Expr) : (shifted w slot width e).bits w = e.bits w := by
  unfold shifted
  split <;> rfl

theorem eval_shifted {e : Expr} {v : ℕ} (he : e.eval s = some v) (hbits : w.bits ≤ e.bits w)
    (hv : v < 2 ^ width) (hfit : slot.offset + width ≤ w.bits) (hpos : 0 < width) :
    (shifted w slot width e).eval s = some (v <<< slotShift w slot width) := by
  unfold shifted
  cases hs : slotShift w slot width with
  | zero => exact he
  | succ k =>
    have hsum : k + 1 + width ≤ w.bits := hs ▸ slotShift_add hfit
    have hlt : v <<< (k + 1) < 2 ^ e.bits w := shiftLeft_lt hv (hsum.trans hbits)
    simp only [Expr.eval]
    rw [if_pos (by omega), he, Option.map_some, Nat.mod_eq_of_lt hlt]

theorem step_clear (callees : Callees w) (hin : slot.group < s.size bank)
    (hfit : slot.offset + width ≤ w.bits) (hpos : 0 < width) :
    (Stmt.andWord bank slot.group
        (.complement (.paren (shifted w slot width (.hex (Constant.mask width)))))).step callees s =
      some (s.setSlot bank slot width 0) := by
  obtain ⟨x, hx⟩ := State.word?_of_lt hin
  have hle : width ≤ w.bits := by omega
  have hmask : (Expr.hex (Constant.mask width)).eval s = some (2 ^ width - 1) := by
    rw [Expr.eval, Constant.toNat_mask (hle.trans w.bits_le)]
  have hshift : (shifted w slot width (.hex (Constant.mask width))).eval s = _ :=
    eval_shifted hmask (le_literalBits w _) (Nat.sub_lt (Nat.two_pow_pos _) one_pos) hfit hpos
  have hbits : (Expr.paren (shifted w slot width (.hex (Constant.mask width)))).bits w = w.bits := by
    rw [Expr.bits_paren, bits_shifted, Expr.bits, literalBits_mask hle]
  rw [Stmt.step, Expr.eval, Expr.eval_paren, hshift, hbits]
  simp only [Option.map_some, Option.bind_eq_bind, Option.bind_some, hx]
  unfold State.setSlot
  rw [hx, Option.getD_some, ofNat_and_complement x (slotShift_add hfit)]

theorem step_fill (callees : Callees w) {value : Expr} {v : ℕ} (hin : slot.group < s.size bank)
    (hfit : slot.offset + width ≤ w.bits) (hpos : 0 < width)
    (hv : value.eval (s.setSlot bank slot width 0) = some v) :
    (Stmt.orWord bank slot.group
        (shifted w slot width (.paren (.binary .bitAnd value (.hex (Constant.mask width)))))).step callees
      (s.setSlot bank slot width 0) = some (s.setSlot bank slot width v) := by
  have hle : width ≤ w.bits := by omega
  have hand : (Expr.paren (.binary .bitAnd value (.hex (Constant.mask width)))).eval (s.setSlot bank slot width 0)
      = some (v % 2 ^ width) := by
    rw [Expr.eval_paren, eval_and_mask hv hle]
  have hbits : w.bits ≤ (Expr.paren (.binary .bitAnd value (.hex (Constant.mask width)))).bits w :=
    (le_literalBits w _).trans (le_max_right _ _)
  have hshift : (shifted w slot width (.paren (.binary .bitAnd value (.hex (Constant.mask width))))).eval
      (s.setSlot bank slot width 0) = _ :=
    eval_shifted hand hbits (Nat.mod_lt _ (Nat.two_pow_pos _)) hfit hpos
  have hx : (s.setSlot bank slot width 0).word? bank slot.group =
      some (setField ((s.word? bank slot.group).getD 0) (slotShift w slot width) width 0) :=
    State.word?_setWord_self _ hin
  rw [Stmt.step, hshift]
  simp only [Option.bind_eq_bind, Option.bind_some, hx]
  rw [ofNat_or_shiftLeft _ _ (slotShift_add hfit)]
  unfold State.setSlot
  rw [State.setWord_setWord]

/-- Writing a slot sets the number in it. A slot that is narrower than its word is cleared first, and
only then the value is looked at. -/
theorem run_slotWrite (callees : Callees w) {value : Expr} {v : ℕ} (hr : s.returned = none)
    (hin : slot.group < s.size bank) (hfit : slot.offset + width ≤ w.bits) (hpos : 0 < width)
    (hv : value.eval (if width = w.bits then s else s.setSlot bank slot width 0) = some v) :
    run callees (slotWrite w bank slot width value) s = some (s.setSlot bank slot width v) := by
  by_cases hfull : width = w.bits
  · obtain ⟨x, hx⟩ := State.word?_of_lt hin
    obtain rfl := hfull
    rw [if_pos rfl] at hv
    rw [slotWrite, if_pos rfl, run_singleton callees _ hr, Stmt.step, hv]
    simp only [Option.bind_eq_bind, Option.bind_some, hx]
    unfold State.setSlot
    rw [hx, Option.getD_some, show slotShift w slot w.bits = 0 by unfold slotShift; omega, setField_whole]
  · rw [if_neg hfull] at hv
    rw [slotWrite_of_ne value hfull, run_cons callees _ _ hr, step_clear callees hin hfit hpos,
      Option.bind_some, run_singleton callees _ (by rw [State.setSlot_returned, hr]),
      step_fill callees hin hfit hpos hv]

end C
end Bitpack
