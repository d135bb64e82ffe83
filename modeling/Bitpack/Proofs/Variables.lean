import Mathlib
import Bitpack.Proofs.Slots
import Bitpack.Proofs.WellFormed

/-! Variables of a method in the state of its function. Each has bits of its own, in a slot or in the
result, and an assignment to one leaves all others alone. -/

namespace Bitpack

open C (Callees run)

variable {w : Word}

/-- The array that has the slots of a kind of storage. The result is a word of its own. -/
def Storage.bank? : Storage → Option C.Bank
  | .params => some .params
  | .locals => some .locals
  | .result => none

theorem Storage.bank?_eq_none {st : Storage} : st.bank? = none ↔ st = .result := by
  cases st <;> simp [bank?]

theorem Storage.bank?_inj {st st' : Storage} : st.bank? = st'.bank? ↔ st = st' := by
  cases st <;> cases st' <;> simp [bank?]

namespace Variable

/-- The bits of a variable are there. -/
def Fits (v : Variable) (s : C.State w) : Prop :=
  0 < v.width ∧ match v.storage.bank? with
    | some bank => v.slot.group < s.size bank ∧ v.slot.offset + v.width ≤ w.bits
    | none => s.result.isSome ∧ v.width ≤ w.bits

/-- Two variables have no bit in common. -/
def Apart (v v' : Variable) : Prop :=
  v.storage ≠ v'.storage ∨ v.storage ≠ .result ∧ v.slot.Apart v.width v'.slot v'.width

/-- A slot that shares its word is cleared before it is set. -/
def ClearedFirst (w : Word) (v : Variable) : Prop :=
  v.storage ≠ .result ∧ v.width ≠ w.bits

instance (w : Word) (v : Variable) : Decidable (v.ClearedFirst w) :=
  inferInstanceAs (Decidable (_ ∧ _))

theorem Fits.width_le {v : Variable} {s : C.State w} (h : v.Fits s) : v.width ≤ w.bits := by
  obtain ⟨-, h⟩ := h
  split at h
  · omega
  · exact h.2

theorem read_eq (w : Word) (v : Variable) : v.read w =
    match v.storage.bank? with
    | some bank => slotRead w bank v.slot v.width
    | none => .result := by
  unfold read
  cases v.storage <;> rfl

theorem write_eq (w : Word) (v : Variable) (e : C.Expr) : v.write w e =
    match v.storage.bank? with
    | some bank => slotWrite w bank v.slot v.width e
    | none =>
      [.setResult (if w.bits ≤ v.width then e else .binary .bitAnd e (.hex (Constant.mask v.width)))] := by
  unfold write
  cases v.storage with
  | params => rfl
  | locals => rfl
  | result => exact (apply_ite (fun e => [C.Stmt.setResult e]) _ _ _).symm

end Variable

namespace C.State

/-- The number that a variable holds. -/
def value (s : State w) (v : Variable) : ℕ :=
  match v.storage.bank? with
  | some bank => s.slot bank v.slot v.width
  | none => (s.result.getD 0).toNat

/-- The state with a number, cut down to its width, in a variable. -/
def assign (s : State w) (v : Variable) (x : ℕ) : State w :=
  match v.storage.bank? with
  | some bank => s.setSlot bank v.slot v.width x
  | none => { s with result := some (BitVec.ofNat w.bits (x % 2 ^ v.width)) }

variable {s : State w} {v v' : Variable} {x : ℕ}

@[simp] theorem assign_temps : (s.assign v x).temps = s.temps := by
  unfold assign
  split <;> rfl

@[simp] theorem assign_events : (s.assign v x).events = s.events := by
  unfold assign
  split <;> rfl

@[simp] theorem assign_returned : (s.assign v x).returned = s.returned := by
  unfold assign
  split <;> rfl

@[simp] theorem size_assign (bank : Bank) : (s.assign v x).size bank = s.size bank := by
  unfold assign
  split
  · exact size_setSlot x
  · rfl

theorem assign_banks_args (k : ℕ) : (s.assign v x).banks (.args k) = s.banks (.args k) := by
  unfold assign
  cases hst : v.storage with
  | params => exact setWord_banks_of_ne s _ _ (by simp)
  | locals => exact setWord_banks_of_ne s _ _ (by simp)
  | result => rfl

theorem result_assign_isSome (h : s.result.isSome) : (s.assign v x).result.isSome := by
  unfold assign
  split
  · exact h
  · rfl

end C.State

namespace Variable

variable {s : C.State w} {v v' : Variable} {x : ℕ}

theorem Fits.assign (h : v'.Fits s) : v'.Fits (s.assign v x) := by
  refine ⟨h.1, ?_⟩
  obtain ⟨-, h⟩ := h
  split at h
  · rwa [C.State.size_assign]
  · exact ⟨C.State.result_assign_isSome h.1, h.2⟩

theorem Fits.eval_read (h : v.Fits s) : (v.read w).eval s = some (s.value v) := by
  rw [read_eq]
  unfold C.State.value
  obtain ⟨hpos, h⟩ := h
  split at h
  · exact C.eval_slotRead h.1 h.2 hpos
  · obtain ⟨r, hr⟩ := Option.isSome_iff_exists.1 h.1
    simp [C.Expr.eval, hr]

theorem Fits.value_assign_self (h : v.Fits s) : (s.assign v x).value v = x % 2 ^ v.width := by
  unfold C.State.value C.State.assign
  obtain ⟨-, h⟩ := h
  split at h
  · exact C.State.slot_setSlot_self x h.1 h.2
  · have hlt : x % 2 ^ v.width < 2 ^ w.bits :=
      lt_of_lt_of_le (Nat.mod_lt _ (Nat.two_pow_pos _)) (Nat.pow_le_pow_right two_pos h.2)
    simp [Nat.mod_eq_of_lt hlt]

theorem Fits.value_assign_of_apart (h : v.Fits s) (h' : v'.Fits s) (hd : v.Apart v') :
    (s.assign v x).value v' = s.value v' := by
  unfold C.State.value C.State.assign
  obtain ⟨-, h⟩ := h
  obtain ⟨-, h'⟩ := h'
  cases hb : v.storage.bank? with
  | some bank =>
    rw [hb] at h
    cases hb' : v'.storage.bank? with
    | some bank' =>
      rw [hb'] at h'
      refine C.State.slot_setSlot_of_apart x h.1 h.2 h'.2 ?_
      refine hd.imp (fun hne heq => hne ?_) (·.2)
      rw [← Storage.bank?_inj, hb, hb', heq]
    | none => rfl
  | none =>
    have hr := Storage.bank?_eq_none.1 hb
    cases hb' : v'.storage.bank? with
    | some bank' => rfl
    | none =>
      have hr' := Storage.bank?_eq_none.1 hb'
      rcases hd with hd | hd
      · exact absurd (hr.trans hr'.symm) hd
      · exact absurd hr hd.1

theorem value_lt (s : C.State w) (hst : v.storage ≠ .result) : s.value v < 2 ^ v.width := by
  unfold C.State.value
  cases hb : v.storage.bank? with
  | some bank => exact C.State.slot_lt _ _ _ _
  | none => exact absurd (Storage.bank?_eq_none.1 hb) hst

/-- Writing a variable assigns to it. Where it is cleared first, the value is only looked at afterwards. -/
theorem Fits.run_write (callees : Callees w) (h : v.Fits s) (hr : s.returned = none) {e : C.Expr}
    (he : e.eval (if v.ClearedFirst w then s.assign v 0 else s) = some x) :
    run callees (v.write w e) s = some (s.assign v x) := by
  rw [write_eq]
  unfold C.State.assign at *
  obtain ⟨hpos, h⟩ := h
  cases hb : v.storage.bank? with
  | some bank =>
    have hst : v.storage ≠ .result := fun hst => by simp [Storage.bank?_eq_none.2 hst] at hb
    have hclear : v.ClearedFirst w ↔ ¬ v.width = w.bits := and_iff_right hst
    rw [hb] at h
    simp only [hb, hclear, ite_not] at he ⊢
    exact C.run_slotWrite callees hr h.1 h.2 hpos he
  | none =>
    have hclear : ¬ v.ClearedFirst w := fun hc => hc.1 (Storage.bank?_eq_none.1 hb)
    rw [hb] at h
    obtain ⟨hsome, hle⟩ := h
    simp only [hb, hclear, if_false] at he ⊢
    rw [C.run_singleton callees _ hr]
    split_ifs with hfull
    · have hcut : BitVec.ofNat w.bits (x % 2 ^ v.width) = BitVec.ofNat w.bits x := by
        rw [le_antisymm hle hfull]
        exact BitVec.eq_of_toNat_eq (by simp)
      rw [C.step_setResult callees hsome he, hcut]
    · rw [C.step_setResult callees hsome (C.eval_and_mask he hle)]

end Variable

namespace Method

/-- A state with the words that a method's variables are in. -/
structure Room (m : Method) (s : C.State w) : Prop where
  params : m.paramGroups ≤ s.size .params
  locals : ∀ b, m.body = some b → b.groupCount ≤ s.size .locals
  result : s.result.isSome

variable {vars : Array Variable} {m : Method}

namespace WellFormed

theorem fits (h : m.WellFormed w vars) {s : C.State w} (hs : m.Room s) {id : VarId} (hid : id ∈ m.scope) :
    (vars.getD id default).Fits s := by
  rcases mem_scope.1 hid with rfl | hid | ⟨b, hb, hid⟩
  · refine ⟨h.result_pos, ?_⟩
    rw [h.result_storage]
    exact ⟨hs.result, h.result_le⟩
  · refine ⟨h.params.width_pos id hid, ?_⟩
    rw [h.params.storage_eq id hid]
    exact ⟨lt_of_lt_of_le (h.params.within id hid).1 hs.params, (h.params.within id hid).2⟩
  · have hl := h.locals b hb
    refine ⟨hl.width_pos id hid, ?_⟩
    rw [hl.storage_eq id hid]
    exact ⟨lt_of_lt_of_le (hl.within id hid).1 (hs.locals b hb), (hl.within id hid).2⟩

theorem storage_eq_result (h : m.WellFormed w vars) {id : VarId} (hid : id ∈ m.scope)
    (hst : (vars.getD id default).storage = .result) : id = m.result := by
  rcases mem_scope.1 hid with rfl | hid | ⟨b, hb, hid⟩
  · rfl
  · rw [h.params.storage_eq id hid] at hst
    cases hst
  · rw [(h.locals b hb).storage_eq id hid] at hst
    cases hst

end WellFormed
end Method

theorem Placed.apart_of_ne {vars : Array Variable} {storage : Storage} {ids : List VarId} {groups : ℕ}
    (h : Placed w vars storage ids groups) (hst : storage ≠ .result) {a b : VarId} (ha : a ∈ ids) (hb : b ∈ ids)
    (hne : a ≠ b) : (vars.getD a default).Apart (vars.getD b default) := by
  have : Std.Symm fun a b => (vars.getD a default).slot.Apart (vars.getD a default).width
      (vars.getD b default).slot (vars.getD b default).width := ⟨fun _ _ hab => hab.symm⟩
  exact Or.inr ⟨(h.storage_eq a ha).trans_ne hst, h.apart.forall ha hb hne⟩

theorem Method.WellFormed.apart {vars : Array Variable} {m : Method} (h : m.WellFormed w vars) {a b : VarId}
    (ha : a ∈ m.scope) (hb : b ∈ m.scope) (hne : a ≠ b) :
    (vars.getD a default).Apart (vars.getD b default) := by
  by_cases hst : (vars.getD a default).storage = (vars.getD b default).storage
  · rcases mem_scope.1 ha with rfl | ha' | ⟨body, hbody, ha'⟩
    · rw [h.result_storage] at hst
      exact absurd (h.storage_eq_result hb hst.symm).symm hne
    · rw [h.params.storage_eq a ha'] at hst
      rcases mem_scope.1 hb with rfl | hb' | ⟨body, hbody, hb'⟩
      · rw [h.result_storage] at hst
        cases hst
      · exact h.params.apart_of_ne (by simp) ha' hb' hne
      · rw [(h.locals body hbody).storage_eq b hb'] at hst
        cases hst
    · rw [(h.locals body hbody).storage_eq a ha'] at hst
      rcases mem_scope.1 hb with rfl | hb' | ⟨body', hbody', hb'⟩
      · rw [h.result_storage] at hst
        cases hst
      · rw [h.params.storage_eq b hb'] at hst
        cases hst
      · obtain rfl : body = body' := Option.some.inj (hbody.symm.trans hbody')
        exact (h.locals body hbody).apart_of_ne (by simp) ha' hb' hne
  · exact Or.inl hst

end Bitpack
