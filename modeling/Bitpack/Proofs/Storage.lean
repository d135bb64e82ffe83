import Mathlib
import Bitpack.Proofs.Packing

/-! Packed storage behaves as independent variables do. After any sequence of writes to the slots of one
layout, each slot holds what was last written to it, or else what it held at the start, and bits
outside of all slots are as they were. -/

namespace Bitpack

namespace C

variable {w : Word}

/-- Whether an expression can be computed from literals and temporaries. -/
def Expr.Settled : Expr → Prop
  | .decimal _ | .hex _ | .temp _ => True
  | .result | .word .. | .call .. => False
  | .paren e | .complement e | .shiftLeft e _ | .shiftRight e _ => e.Settled
  | .binary _ left right => left.Settled ∧ right.Settled

theorem Expr.Settled.eval_eq {e : Expr} (h : e.Settled) {s s' : State w} (ht : s'.temps = s.temps) :
    e.eval s' = e.eval s := by
  induction e with
  | decimal | hex => rfl
  | temp index => simp only [Expr.eval, ht]
  | result | word | call => exact h.elim
  | paren e ih => simp only [Expr.eval, ih h]
  | complement e ih => simp only [Expr.eval, ih h]
  | shiftLeft e _ ih => simp only [Expr.eval, ih h]
  | shiftRight e _ ih => simp only [Expr.eval, ih h]
  | binary op left right ihl ihr => cases op <;> simp only [Expr.eval, ihl h.1, ihr h.2]

theorem State.getMsbD_setSlot {s : State w} {bank : Bank} {a : Slot} {width index bit : ℕ} (v : ℕ)
    (hin : a.group < s.size bank) (hfit : a.offset + width ≤ w.bits)
    (hout : a.group = index → ¬ (a.offset ≤ bit ∧ bit < a.offset + width)) :
    ((s.setSlot bank a width v).word? bank index).map (·.getMsbD bit) =
      (s.word? bank index).map (·.getMsbD bit) := by
  by_cases hg : a.group = index
  · subst hg
    have hbit := hout rfl
    obtain ⟨x, hx⟩ := word?_of_lt hin
    rw [setSlot, word?_setWord_self _ hin, hx]
    simp only [Option.map_some, Option.getD_some, BitVec.getMsbD_eq_getLsbD]
    by_cases hlt : bit < w.bits
    · rw [getLsbD_setField _ _ _ (slotShift_add hfit), if_neg]
      unfold slotShift
      omega
    · simp [hlt]
  · rw [setSlot, word?_setWord_of_ne s _ (Or.inr fun h => hg h.symm)]

variable (w) in
/-- The code for writes to variables of a layout, each given by its index. -/
def writeAll (bank : Bank) (l : Layout) (widths : List ℕ) (writes : List (ℕ × Expr)) : List Stmt :=
  writes.flatMap fun p => slotWrite w bank (l.slotAt p.1) (widths.getD p.1 0) p.2

/-- The value that the last write to a variable stores. -/
def lastWrite (s : State w) (writes : List (ℕ × Expr)) (i : ℕ) : Option ℕ :=
  (writes.filter fun p => p.1 = i).getLast?.bind fun p => p.2.eval s

theorem lastWrite_append_self (s : State w) (writes : List (ℕ × Expr)) (i : ℕ) (e : Expr) :
    lastWrite s (writes ++ [(i, e)]) i = e.eval s := by
  simp [lastWrite]

theorem lastWrite_append_of_ne (s : State w) (writes : List (ℕ × Expr)) {i j : ℕ} (e : Expr) (h : i ≠ j) :
    lastWrite s (writes ++ [(i, e)]) j = lastWrite s writes j := by
  simp [lastWrite, h]

/-- What a run of writes leaves behind. -/
structure Written (bank : Bank) (l : Layout) (widths : List ℕ) (writes : List (ℕ × Expr))
    (s s' : State w) : Prop where
  temps : s'.temps = s.temps
  returned : s'.returned = s.returned
  size : s'.size bank = s.size bank
  slots : ∀ i < widths.length, s'.slot bank (l.slotAt i) (widths.getD i 0) =
    ((lastWrite s writes i).map (· % 2 ^ widths.getD i 0)).getD (s.slot bank (l.slotAt i) (widths.getD i 0))
  outside : ∀ index bit, (∀ i < widths.length, (l.slotAt i).group = index →
      ¬ ((l.slotAt i).offset ≤ bit ∧ bit < (l.slotAt i).offset + widths.getD i 0)) →
    (s'.word? bank index).map (·.getMsbD bit) = (s.word? bank index).map (·.getMsbD bit)

variable {bank : Bank} {l : Layout} {widths : List ℕ}

theorem Written.setSlot (hl : l.Packs w.bits widths) {writes : List (ℕ × Expr)} {s s' : State w}
    (h : Written bank l widths writes s s') (hroom : l.groupCount ≤ s.size bank) {i v : ℕ} {e : Expr}
    (hi : i < widths.length) (he : e.eval s = some v) :
    Written bank l widths (writes ++ [(i, e)]) s (s'.setSlot bank (l.slotAt i) (widths.getD i 0) v) := by
  obtain ⟨hgroup, hfit⟩ := hl.slotAt_within hi
  have hin : (l.slotAt i).group < s'.size bank := by rw [h.size]; omega
  refine ⟨h.temps, h.returned, by rw [State.size_setSlot, h.size], ?_, ?_⟩
  · intro j hj
    by_cases hij : i = j
    · subst hij
      rw [State.slot_setSlot_self v hin hfit, lastWrite_append_self, he, Option.map_some, Option.getD_some]
    · rw [State.slot_setSlot_of_apart v hin hfit (hl.slotAt_within hj).2 (Or.inr (hl.slotAt_apart hi hj hij)),
        lastWrite_append_of_ne s writes e hij, h.slots j hj]
  · intro index bit hout
    rw [State.getMsbD_setSlot v hin hfit (hout i hi), h.outside index bit hout]

theorem getD_pos (hpos : ∀ x ∈ widths, 0 < x) {i : ℕ} (hi : i < widths.length) : 0 < widths.getD i 0 := by
  rw [List.getD_eq_getElem _ _ hi]
  exact hpos _ (List.getElem_mem hi)

theorem run_writeAll (hl : l.Packs w.bits widths) (hpos : ∀ x ∈ widths, 0 < x) (callees : Callees w)
    {s : State w} (hroom : l.groupCount ≤ s.size bank) (hr : s.returned = none) (writes : List (ℕ × Expr)) :
    (∀ p ∈ writes, p.1 < widths.length ∧ p.2.Settled ∧ ∃ v, p.2.eval s = some v) →
    ∃ s', run callees (writeAll w bank l widths writes) s = some s' ∧ Written bank l widths writes s s' := by
  induction writes using List.reverseRecOn with
  | nil =>
    intro _
    exact ⟨s, rfl, ⟨rfl, rfl, rfl, fun i _ => rfl, fun _ _ _ => rfl⟩⟩
  | append_singleton writes p ih =>
    intro hwrites
    obtain ⟨s', hrun, hw⟩ := ih fun q hq => hwrites q (List.mem_append_left _ hq)
    obtain ⟨i, e⟩ := p
    obtain ⟨hi, hsettled, v, hv⟩ := hwrites (i, e) (by simp)
    obtain ⟨hgroup, hfit⟩ := hl.slotAt_within hi
    have hin : (l.slotAt i).group < s'.size bank := lt_of_lt_of_le hgroup (hroom.trans hw.size.ge)
    have hvalue : e.eval (if widths.getD i 0 = w.bits then s'
        else s'.setSlot bank (l.slotAt i) (widths.getD i 0) 0) = some v := by
      rw [hsettled.eval_eq (s := s) (by split_ifs <;> exact hw.temps), hv]
    refine ⟨_, ?_, hw.setSlot hl hroom hi hv⟩
    rw [writeAll, List.flatMap_append, ← writeAll, run_append_of_eq hrun, List.flatMap_singleton]
    exact run_slotWrite callees (hw.returned.trans hr) hin hfit (getD_pos hpos hi) hvalue

/-- Whatever the words hold at first, and in whatever order variables of one layout are written, each
reads as the last value written to it modulo its width, or as at first if there is none. Bits that
are no variable's keep their value; they are counted from the most significant one. -/
theorem packed_storage_independent (widths : List ℕ) (hpos : ∀ x ∈ widths, 0 < x) (l : Layout)
    (hl : pack w.bits.toUInt32 widths = .ok l) (callees : Callees w) (s : State w)
    (hroom : l.groupCount ≤ s.size bank) (hr : s.returned = none) (writes : List (ℕ × Expr))
    (hwrites : ∀ p ∈ writes, p.1 < widths.length ∧ p.2.Settled ∧ ∃ v, p.2.eval s = some v) :
    ∃ s', run callees (writeAll w bank l widths writes) s = some s' ∧
      (∀ i < widths.length, (slotRead w bank (l.slotAt i) (widths.getD i 0)).eval s' =
        some (((lastWrite s writes i).map (· % 2 ^ widths.getD i 0)).getD
          (s.slot bank (l.slotAt i) (widths.getD i 0)))) ∧
      ∀ index bit, (∀ i < widths.length, (l.slotAt i).group = index →
          ¬ ((l.slotAt i).offset ≤ bit ∧ bit < (l.slotAt i).offset + widths.getD i 0)) →
        (s'.word? bank index).map (·.getMsbD bit) = (s.word? bank index).map (·.getMsbD bit) := by
  have hpacks := pack_word hl
  obtain ⟨s', hrun, hw⟩ := run_writeAll hpacks hpos callees hroom hr writes hwrites
  refine ⟨s', hrun, ?_, hw.outside⟩
  intro i hi
  obtain ⟨hgroup, hfit⟩ := hpacks.slotAt_within hi
  rw [eval_slotRead (by rw [hw.size]; omega) hfit (getD_pos hpos hi), hw.slots i hi]

/-- Two variables in one word, the wider of them written twice. -/
theorem packed_storage_independent_two :
    ∃ (l : Layout) (s' : State .w64), pack 64 [3, 8] = .ok l ∧
      run (fun _ _ _ => ⟨0, []⟩)
        (writeAll .w64 .locals l [3, 8] [(1, .decimal 300), (0, .temp 4), (1, .decimal 261)])
        (((State.entry []).setBank .locals [5]).setTemp 4 14) = some s' ∧
      (slotRead .w64 .locals (l.slotAt 1) 8).eval s' = some 5 ∧
      (slotRead .w64 .locals (l.slotAt 0) 3).eval s' = some 6 ∧
      (s'.word? .locals 0).map (·.getMsbD 63) = some true := by
  have hl : pack (Word.bits .w64).toUInt32 [3, 8] = .ok ⟨[⟨0, 8⟩, ⟨0, 0⟩], 1, 64⟩ := by cbv
  obtain ⟨s', hrun, hread, hout⟩ := packed_storage_independent [3, 8] (by decide) _ hl (fun _ _ _ => ⟨0, []⟩)
    (((State.entry []).setBank .locals [5]).setTemp 4 14) (by decide : 1 ≤ State.size _ .locals) rfl
    [(1, .decimal 300), (0, .temp 4), (1, .decimal 261)]
    (by simp [Expr.Settled, Expr.eval, State.setTemp])
  exact ⟨_, s', hl, hrun, (hread 1 (by decide)).trans (by decide), (hread 0 (by decide)).trans (by decide),
    (hout 0 63 (by decide)).trans (by decide)⟩

end C
end Bitpack
