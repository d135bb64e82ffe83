import Mathlib
import Bitpack.Proofs.Meaning
import Bitpack.Proofs.Variables

/-! Running the code that lowering emits. The code for operators only ever adds temporaries, so that
whatever could be read before can still be read, and each value on the lowering's stack stands for an
operand of the source. -/

namespace Bitpack

open C (Callees run)
open Meaning (Operand)

section Runs

variable {w : Word} {α β : Type} {callees : Callees w} {n : Numbering} {s : C.State w}

/-- The code of a lowering runs, and then `post` holds of its value, the numbering and the state. -/
def Lower.Runs (callees : Callees w) (x : Lower α) (n : Numbering) (s : C.State w)
    (post : α → Numbering → C.State w → Prop) : Prop :=
  ∃ s', run callees (x n).code s = some s' ∧ post (x n).value (x n).next s'

namespace Lower

theorem bind_assoc {γ : Type} (x : Lower α) (f : α → Lower β) (g : β → Lower γ) :
    x >>= f >>= g = x >>= fun a => f a >>= g := by
  funext n
  simp only [bind, List.append_assoc]

@[simp] theorem runs_pure {a : α} {post : α → Numbering → C.State w → Prop} :
    Runs callees (pure a : Lower α) n s post ↔ post a n s := by
  constructor
  · rintro ⟨s', hs', h⟩
    obtain rfl : s = s' := Option.some.inj hs'
    exact h
  · exact fun h => ⟨s, rfl, h⟩

theorem runs_bind {x : Lower α} {f : α → Lower β} {post : β → Numbering → C.State w → Prop} :
    Runs callees (x >>= f) n s post ↔
      Runs callees x n s fun a n' s' => Runs callees (f a) n' s' post := by
  have hcode : ((x >>= f) n).code = (x n).code ++ (f (x n).value (x n).next).code := rfl
  constructor
  · rintro ⟨s', hs', h⟩
    rw [hcode, C.run_append] at hs'
    obtain ⟨s₁, hs₁, hs₂⟩ := Option.bind_eq_some_iff.1 hs'
    exact ⟨s₁, hs₁, s', hs₂, h⟩
  · rintro ⟨s₁, hs₁, s', hs₂, h⟩
    refine ⟨s', ?_, h⟩
    rw [hcode, C.run_append_of_eq hs₁, hs₂]

theorem Runs.mono {x : Lower α} {post post' : α → Numbering → C.State w → Prop}
    (h : Runs callees x n s post) (himp : ∀ a n' s', post a n' s' → post' a n' s') :
    Runs callees x n s post' := by
  obtain ⟨s', hs', hpost⟩ := h
  exact ⟨s', hs', himp _ _ _ hpost⟩

end Lower

/-- What is numbered from `n` on is not declared yet, and the function has not returned. -/
structure Ready (n : Numbering) (s : C.State w) : Prop where
  temps : ∀ i, n.temps ≤ i → s.temps i = none
  arrays : ∀ k, n.arrays ≤ k → s.banks (.args k) = none
  returned : s.returned = none

/-- All that values and variables are read from stays as it is. -/
structure Extends (s s' : C.State w) : Prop where
  temps : ∀ i x, s.temps i = some x → s'.temps i = some x
  params : s'.banks .params = s.banks .params
  locals : s'.banks .locals = s.banks .locals
  result : s'.result = s.result

theorem Extends.refl (s : C.State w) : Extends s s :=
  ⟨fun _ _ h => h, rfl, rfl, rfl⟩

theorem Extends.trans {a b c : C.State w} (h₁ : Extends a b) (h₂ : Extends b c) : Extends a c :=
  ⟨fun i x h => h₂.temps i x (h₁.temps i x h), h₂.params.trans h₁.params, h₂.locals.trans h₁.locals,
    h₂.result.trans h₁.result⟩

theorem Extends.banks_eq {s s' : C.State w} (h : Extends s s') {st : Storage} {bank : C.Bank}
    (hb : st.bank? = some bank) : s'.banks bank = s.banks bank := by
  cases st with
  | params => cases hb; exact h.params
  | locals => cases hb; exact h.locals
  | result => cases hb

theorem Extends.value_eq {s s' : C.State w} (h : Extends s s') (v : Variable) : s'.value v = s.value v := by
  unfold C.State.value
  cases hb : v.storage.bank? with
  | some bank => simp only [C.State.slot, C.State.word?, h.banks_eq hb]
  | none => simp only [h.result]

theorem Extends.fits {s s' : C.State w} (h : Extends s s') {v : Variable} (hv : v.Fits s) : v.Fits s' := by
  refine ⟨hv.1, ?_⟩
  obtain ⟨-, hv⟩ := hv
  cases hb : v.storage.bank? with
  | some bank => simpa only [hb, C.State.size, h.banks_eq hb] using hv
  | none => simpa only [hb, h.result] using hv

/-- A lowering whose code does nothing but to set new temporaries. -/
def Lower.Quiet (callees : Callees w) (x : Lower α) (n : Numbering) (s : C.State w)
    (post : α → C.State w → Prop) : Prop :=
  Lower.Runs callees x n s fun a n' s' => Ready n' s' ∧ Extends s s' ∧ s'.events = s.events ∧ post a s'

theorem Lower.quiet_pure {a : α} {post : α → C.State w → Prop} (hn : Ready n s) (h : post a s) :
    Lower.Quiet callees (pure a : Lower α) n s post :=
  runs_pure.2 ⟨hn, .refl s, rfl, h⟩

theorem Lower.Quiet.bind {x : Lower α} {f : α → Lower β} {post : α → C.State w → Prop}
    {post' : β → C.State w → Prop} (hx : Lower.Quiet callees x n s post)
    (hf : ∀ a n' s', Ready n' s' → Extends s s' → post a s' → Lower.Quiet callees (f a) n' s' post') :
    Lower.Quiet callees (x >>= f) n s post' := by
  refine runs_bind.2 (hx.mono ?_)
  rintro a n₁ s₁ ⟨hn₁, hs₁, he₁, h₁⟩
  refine (hf a n₁ s₁ hn₁ hs₁ h₁).mono ?_
  rintro b n₂ s₂ ⟨hn₂, hs₂, he₂, h₂⟩
  exact ⟨hn₂, hs₁.trans hs₂, he₂.trans he₁, h₂⟩

theorem Lower.quiet_newTemp {e : C.Expr} {v : ℕ} (hn : Ready n s) (he : e.eval s = some v) :
    Lower.Quiet callees (Lower.newTemp e) n s fun i s' => s'.temps i = some (BitVec.ofNat w.bits v) := by
  refine ⟨s.setTemp n.temps (BitVec.ofNat w.bits v), ?_, ⟨?_, hn.arrays, hn.returned⟩, ⟨?_, rfl, rfl, rfl⟩,
    rfl, by simp [newTemp, C.State.setTemp]⟩
  · exact (C.run_singleton callees _ hn.returned).trans (C.step_declareTemp callees (hn.temps _ le_rfl) he)
  · intro i hi
    have hi' : n.temps + 1 ≤ i := hi
    have hne : i ≠ n.temps := by omega
    simp [C.State.setTemp, hne, hn.temps i (by omega)]
  · intro i x hx
    have hne : i ≠ n.temps := by
      rintro rfl
      rw [hn.temps _ le_rfl] at hx
      cases hx
    simpa [C.State.setTemp, hne] using hx

end Runs

section Values

variable {u : SourceUnit} {s s' : C.State u.word}

/-- A value of the lowering stands for an operand: reading it gives the operand's value. -/
inductive Holds (u : SourceUnit) (s : C.State u.word) : Value → Operand → Prop
  | const {value : UInt64} {width : ℕ} (hlt : value.toNat < 2 ^ width) (hpos : 0 < width) (hle : width ≤ 64) :
      Holds u s (.const value width) (.const value.toNat width)
  | var {id : VarId} (hfit : (u.var id).Fits s) (hlt : s.value (u.var id) < 2 ^ (u.var id).width) :
      Holds u s (.var id) (.var id (s.value (u.var id)))
  | temp {index width : ℕ} {x : BitVec u.word.bits} (h : s.temps index = some x) (hlt : x.toNat < 2 ^ width)
      (hpos : 0 < width) (hle : width ≤ u.word.bits) : Holds u s (.temp index width) (.computed x.toNat width)

namespace Holds

theorem mono {v : Value} {o : Operand} (h : Holds u s v o) (hs : Extends s s') : Holds u s' v o := by
  cases h with
  | const hlt hpos hle => exact .const hlt hpos hle
  | var hfit hlt =>
    rw [← hs.value_eq] at hlt ⊢
    exact .var (hs.fits hfit) hlt
  | temp h hlt hpos hle => exact .temp (hs.temps _ _ h) hlt hpos hle

theorem eval_read {v : Value} {o : Operand} (h : Holds u s v o) : (v.read u).eval s = some o.value := by
  cases h with
  | const => rfl
  | var hfit => exact hfit.eval_read
  | temp h => simp [Value.read, C.Expr.eval, h, Operand.value]

theorem width_eq {v : Value} {o : Operand} (h : Holds u s v o) : v.width u = o.width u := by
  cases h <;> rfl

theorem width_pos {v : Value} {o : Operand} (h : Holds u s v o) : 0 < o.width u := by
  cases h with
  | const _ hpos => exact hpos
  | var hfit => exact hfit.1
  | temp _ _ hpos => exact hpos

theorem value_lt {v : Value} {o : Operand} (h : Holds u s v o) : o.value < 2 ^ o.width u := by
  cases h with
  | const hlt => exact hlt
  | var _ hlt => exact hlt
  | temp _ hlt => exact hlt

theorem literal (u : SourceUnit) (s : C.State u.word) (value : UInt64) :
    Holds u s (.literal value) (.literal value.toNat) := by
  have hzero : value = 0 ↔ value.toNat = 0 := UInt64.toNat_inj.symm
  have hwidth : Constant.minBits value = if value.toNat = 0 then 1 else value.toNat.log2 + 1 := by
    unfold Constant.minBits
    simp only [hzero]
  have hpos : 0 < Constant.minBits value := by
    rw [hwidth]
    split_ifs <;> omega
  unfold Value.literal Operand.literal
  rw [← hwidth]
  exact .const (Constant.toNat_lt_minBits value) hpos (Constant.minBits_le value)

end Holds

/-- The type of a variable or a temporary is no narrower than a word. -/
theorem le_bits_read (u : SourceUnit) {v : Value} (h : ∀ value width, v ≠ .const value width) :
    u.word.bits ≤ (v.read u).bits u.word := by
  cases v with
  | const value width => exact absurd rfl (h value width)
  | temp => exact le_rfl
  | var id =>
    rw [Value.read, Variable.read_eq]
    split
    · unfold slotRead
      split_ifs
      · exact le_rfl
      · exact (C.le_literalBits _ _).trans (le_max_right _ _)
    · exact le_rfl

end Values

section Operators

variable {u : SourceUnit} {s : C.State u.word} {n : Numbering} {callees : Callees u.word}

namespace Lower

theorem quiet_zeroFor (hn : Ready n s) (d : Diagnostic) :
    Quiet callees (zeroFor d) n s fun v s' => Holds u s' v (.literal 0) :=
  ⟨s, rfl, hn, .refl s, rfl, .literal u s 0⟩

theorem quiet_temp (hn : Ready n s) {e : C.Expr} {v width : ℕ} (he : e.eval s = some v) (hpos : 0 < width) :
    Quiet callees (temp u width e) n s fun r s' =>
      Holds u s' r (.computed (v % 2 ^ min width u.word.bits) (min width u.word.bits)) := by
  have hpos' : 0 < min width u.word.bits := lt_min hpos u.word.bits_pos
  have hle : min width u.word.bits ≤ u.word.bits := min_le_right _ _
  have hlt : v % 2 ^ min width u.word.bits < 2 ^ u.word.bits :=
    lt_of_lt_of_le (Nat.mod_lt _ (Nat.two_pow_pos _)) (Nat.pow_le_pow_right two_pos hle)
  -- what the temporary is set to, cut down to a word, is the operand in both cases
  have hset : ∃ v', (if min width u.word.bits = u.word.bits then e
      else .binary .bitAnd (.paren e) (.hex (Constant.mask (min width u.word.bits)))).eval s = some v' ∧
      (BitVec.ofNat u.word.bits v').toNat = v % 2 ^ min width u.word.bits := by
    split_ifs with hfull
    · exact ⟨v, he, by rw [BitVec.toNat_ofNat, hfull]⟩
    · refine ⟨v % 2 ^ min width u.word.bits, C.eval_and_mask (by rwa [C.Expr.eval_paren]) hle, ?_⟩
      rw [BitVec.toNat_ofNat, Nat.mod_eq_of_lt hlt]
  obtain ⟨v', hv', heq⟩ := hset
  refine (quiet_newTemp hn hv').bind ?_
  intro index n' s' hn' _ htemp
  refine quiet_pure hn' ?_
  rw [← heq]
  exact .temp htemp (by rw [heq]; exact Nat.mod_lt _ (Nat.two_pow_pos _)) hpos' hle

theorem quiet_complement (hn : Ready n s) {v : Value} {o : Operand} (h : Holds u s v o) :
    Quiet callees (complement u v) n s fun r s' => Holds u s' r (o.complement u) := by
  -- the same temporary for a variable and for a temporary
  have hcomputed (hc : ∀ value width, v ≠ .const value width) (hle : v.width u ≤ u.word.bits) :
      Quiet callees (temp u (v.width u) (.complement (v.read u))) n s fun r s' =>
        Holds u s' r (.computed (2 ^ o.width u - 1 - o.value) (o.width u)) := by
    have heval : (C.Expr.complement (v.read u)).eval s =
        some (2 ^ (v.read u).bits u.word - 1 - o.value) := by
      rw [C.Expr.eval, h.eval_read, Option.map_some]
    have : Quiet callees (temp u (v.width u) (.complement (v.read u))) n s _ :=
      quiet_temp hn heval (h.width_eq ▸ h.width_pos)
    rw [min_eq_left hle, h.width_eq, complement_mod h.value_lt
      ((h.width_eq ▸ hle).trans (le_bits_read u hc))] at this
    rwa [h.width_eq]
  cases h with
  | const hlt hpos hle =>
    refine quiet_pure hn ?_
    have hval := Constant.toNat_complement hle hlt
    rw [Operand.complement, ← hval]
    exact .const (by omega) hpos hle
  | var hfit => exact hcomputed (by simp) hfit.width_le
  | temp _ _ _ hle => exact hcomputed (by simp) hle

theorem quiet_cast (hn : Ready n s) (span : Span) (width : UInt64) {v : Value} {o : Operand} (h : Holds u s v o) :
    Quiet callees (cast u span width v) n s fun r s' => Holds u s' r (o.cast u width.toNat) := by
  unfold cast Operand.cast
  simp only
  split_ifs with hbad
  · exact quiet_zeroFor hn _
  have hpos : 0 < width.toNat := by omega
  have hle : width.toNat ≤ u.word.bits := by omega
  have hcomputed : Quiet callees (temp u width.toNat (v.read u)) n s fun r s' =>
      Holds u s' r (.computed (o.value % 2 ^ width.toNat) width.toNat) := by
    have : Quiet callees (temp u width.toNat (v.read u)) n s _ := quiet_temp hn h.eval_read hpos
    rwa [min_eq_left hle] at this
  cases h with
  | const =>
    refine quiet_pure hn ?_
    simp only
    rw [← Constant.toNat_and_mask _ (hle.trans u.word.bits_le)]
    refine .const ?_ hpos (hle.trans u.word.bits_le)
    rw [Constant.toNat_and_mask _ (hle.trans u.word.bits_le)]
    exact Nat.mod_lt _ (Nat.two_pow_pos _)
  | var => exact hcomputed
  | temp => exact hcomputed

theorem quiet_arith (hn : Ready n s) (span : Span) {op : Arith} {left right : Value} {l r o : Operand}
    (hl : Holds u s left l) (hr : Holds u s right r) (ho : l.arith? u op r = some o) :
    Quiet callees (arith u span op left right) n s fun v s' => Holds u s' v o := by
  obtain ⟨z, hz, rfl⟩ := Option.map_eq_some_iff.1 ho
  -- the same temporary unless both operands are constants
  have hcomputed (hc : (∀ value width, left ≠ .const value width) ∨ ∀ value width, right ≠ .const value width) :
      Quiet callees (temp u (max (left.width u) (right.width u)) (.binary op (left.read u) (right.read u))) n s
        fun v s' => Holds u s' v (.computed (truncate (min (max (l.width u) (r.width u)) u.word.bits) z)
          (min (max (l.width u) (r.width u)) u.word.bits)) := by
    have hbits : u.word.bits ≤ max ((left.read u).bits u.word) ((right.read u).bits u.word) := by
      rcases hc with hc | hc
      · exact (le_bits_read u hc).trans (le_max_left _ _)
      · exact (le_bits_read u hc).trans (le_max_right _ _)
    obtain ⟨v, hv, hcut⟩ := C.Expr.eval_binary hl.eval_read hr.eval_read hz
    have hpos : 0 < max (l.width u) (r.width u) := lt_max_of_lt_left hl.width_pos
    rw [hl.width_eq, hr.width_eq, ← hcut _ (lt_min hpos u.word.bits_pos) ((min_le_right _ _).trans hbits)]
    exact quiet_temp hn hv hpos
  cases hl with
  | @const a _ _ _ _ =>
    cases hr with
    | @const b _ _ _ _ =>
      obtain ⟨c, hc, hcz⟩ : ∃ c, Constant.fold? op a b = some c ∧ c.toNat = truncate 64 z := by
        rw [← Option.map_eq_some_iff, Constant.toNat_fold?, ← Option.map_some, ← hz]
        rfl
      have hcut : (c &&& Constant.mask u.word.bits).toNat = truncate u.word.bits z := by
        rw [Constant.toNat_and_mask _ u.word.bits_le, hcz, truncate_mod u.word.bits_le]
      rw [arith, hc]
      refine quiet_pure hn ?_
      simp only
      rw [← hcut]
      exact .literal u s _
    | var => exact hcomputed (Or.inr (by simp))
    | temp => exact hcomputed (Or.inr (by simp))
  | var => exact hcomputed (Or.inl (by simp))
  | temp => exact hcomputed (Or.inl (by simp))

/-- What an operator takes from the top of a stack, or zero. -/
theorem holds_headD {stack : List Value} {os : List Operand} (h : List.Forall₂ (Holds u s) stack os) :
    Holds u s (stack.headD (.literal 0)) (os.headD (.literal 0)) := by
  cases h with
  | nil => exact .literal u s 0
  | cons h _ => exact h

theorem forall₂_tail {stack : List Value} {os : List Operand} (h : List.Forall₂ (Holds u s) stack os) :
    List.Forall₂ (Holds u s) stack.tail os.tail := by
  cases h with
  | nil => exact .nil
  | cons _ h => exact h

theorem forall₂_mono {s' : C.State u.word} {stack : List Value} {os : List Operand}
    (h : List.Forall₂ (Holds u s) stack os) (hs : Extends s s') : List.Forall₂ (Holds u s') stack os :=
  h.imp fun _ _ hvo => hvo.mono hs

/-- A result on top of what is left of a stack. -/
theorem Quiet.push {x : Lower Value} {o : Operand} {rest : List Value} {os : List Operand}
    (hx : Quiet callees x n s fun v s' => Holds u s' v o) (hrest : List.Forall₂ (Holds u s) rest os) :
    Quiet callees (do return (← x) :: rest) n s fun stack s' => List.Forall₂ (Holds u s') stack (o :: os) := by
  refine hx.bind ?_
  intro v n' s' hn' hs' hv
  exact quiet_pure hn' (.cons hv (forall₂_mono hrest hs'))

theorem quiet_apply {M : Meaning.Machine} {callees : Callees M.unit.word} {s : C.State M.unit.word}
    (hn : Ready n s) (span : Span) {op : Operator} (hop : op ≠ .assign) {stack : List Value}
    {os os' : List Operand} {t t' : Meaning.Store} (hst : List.Forall₂ (Holds M.unit s) stack os)
    (h : M.apply op os t = some (os', t')) :
    Quiet callees (apply M.unit span op stack) n s fun stack' s' =>
      List.Forall₂ (Holds M.unit s') stack' os' := by
  have htop := holds_headD hst
  have hrest := forall₂_tail hst
  have htop₂ := holds_headD hrest
  have hrest₂ := forall₂_tail hrest
  cases op with
  | assign => exact absurd rfl hop
  | not =>
    cases h
    exact (quiet_complement hn htop).push hrest
  | cast =>
    simp only [Meaning.Machine.apply] at h
    simp only [apply]
    generalize stack.tail.headD (.literal 0) = left at htop₂ ⊢
    generalize os.tail.headD (.literal 0) = l at htop₂ h
    cases htop₂ with
    | const =>
      cases h
      exact (quiet_cast hn span _ htop).push hrest₂
    | var =>
      cases h
      exact (quiet_zeroFor hn _).push hrest₂
    | temp =>
      cases h
      exact (quiet_zeroFor hn _).push hrest₂
  | arith a =>
    obtain ⟨o, ho, heq⟩ := Option.map_eq_some_iff.1 h
    cases heq
    exact (quiet_arith hn span htop₂ htop ho).push hrest₂

end Lower
end Operators
end Bitpack
