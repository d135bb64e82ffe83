import Mathlib
import Bitpack.Proofs.Lowering

/-! The words that a call hands over. Parameters are in the slots that the called method has for them,
further arguments have a word each, and all other bits are zero. -/

namespace Bitpack

open C (Callees run)
open Meaning (Operand Action passed)

variable {u : SourceUnit}

/-- The words with a number in the slot of a variable. -/
def putSlot (u : SourceUnit) (words : List (BitVec u.word.bits)) (v : Variable) (x : ℕ) :
    List (BitVec u.word.bits) :=
  words.set v.slot.group
    (setField ((words[v.slot.group]?).getD 0) (slotShift u.word v.slot v.width) v.width x)

/-- The words with numbers in the slots of parameters. -/
def putParams (u : SourceUnit) (words : List (BitVec u.word.bits)) (ps : List (VarId × ℕ)) :
    List (BitVec u.word.bits) :=
  ps.foldl (fun words p => putSlot u words (u.var p.1) p.2) words

/-- The words that a call hands over. There is at least one. -/
def argumentWords (u : SourceUnit) (m : Method) (args : List ℕ) : List (BitVec u.word.bits) :=
  putParams u (List.replicate m.paramGroups 0) (m.params.zip args) ++
    (args.drop m.params.length).map (BitVec.ofNat u.word.bits) ++
    List.replicate (1 - (m.paramGroups + (args.length - m.params.length))) 0

/-- What is seen of an action in C. -/
def Meaning.Action.event (u : SourceUnit) : Action → C.Event u.word
  | .call m args => .call (Lower.functionName u m) (argumentWords u m args)
  | .print value => .print value

@[simp] theorem length_putSlot (words : List (BitVec u.word.bits)) (v : Variable) (x : ℕ) :
    (putSlot u words v x).length = words.length :=
  List.length_set

@[simp] theorem length_putParams (ps : List (VarId × ℕ)) (words : List (BitVec u.word.bits)) :
    (putParams u words ps).length = words.length := by
  induction ps generalizing words with
  | nil => rfl
  | cons p ps ih => exact (ih _).trans (length_putSlot _ _ _)

theorem putParams_cons (words : List (BitVec u.word.bits)) (p : VarId × ℕ) (ps : List (VarId × ℕ)) :
    putParams u words (p :: ps) = putParams u (putSlot u words (u.var p.1) p.2) ps := rfl

theorem putSlot_append {words : List (BitVec u.word.bits)} (rest : List (BitVec u.word.bits)) {v : Variable}
    (x : ℕ) (h : v.slot.group < words.length) :
    putSlot u (words ++ rest) v x = putSlot u words v x ++ rest := by
  unfold putSlot
  rw [List.set_append, if_pos h, List.getElem?_append_left h]

theorem putParams_append {ps : List (VarId × ℕ)} (rest : List (BitVec u.word.bits)) :
    ∀ {words : List (BitVec u.word.bits)}, (∀ p ∈ ps, (u.var p.1).slot.group < words.length) →
      putParams u (words ++ rest) ps = putParams u words ps ++ rest := by
  induction ps with
  | nil => intro words _; rfl
  | cons p ps ih =>
    intro words h
    rw [putParams_cons, putParams_cons, putSlot_append rest p.2 (h p (by simp))]
    exact ih fun q hq => by simpa using h q (by simp [hq])

namespace C.State

variable {w : Word} {s : State w} {bank : Bank} {words : List (BitVec w.bits)}

@[simp] theorem size_setBank_self : (s.setBank bank words).size bank = words.length := by
  simp [size, setBank]

theorem word?_setBank_self (index : ℕ) : (s.setBank bank words).word? bank index = words[index]? := by
  simp [word?, setBank]

theorem setWord_setBank (index : ℕ) (x : BitVec w.bits) :
    (s.setBank bank words).setWord bank index x = s.setBank bank (words.set index x) := by
  simp [setWord, setBank]

end C.State

section Invoke

variable {s : C.State u.word} {n : Numbering} {callees : Callees u.word}

/-- The C expression for a value gives a number. -/
def Value.ReadsAs (u : SourceUnit) (s : C.State u.word) (v : Value) (x : ℕ) : Prop :=
  (v.read u).eval s = some x

theorem Value.ReadsAs.setBank {v : Value} {x : ℕ} (h : v.ReadsAs u s x) (k : ℕ) (words : List (BitVec u.word.bits)) :
    v.ReadsAs u (s.setBank (.args k) words) x := by
  unfold ReadsAs at h ⊢
  rw [← h]
  cases v with
  | const value width => rfl
  | temp index width => rfl
  | var id =>
    rw [Value.read, Variable.read_eq]
    cases hst : (u.var id).storage with
    | result => rfl
    | params => exact C.eval_slotRead_congr (by simp [C.State.word?, C.State.setBank])
    | locals => exact C.eval_slotRead_congr (by simp [C.State.word?, C.State.setBank])

theorem setSlot_setBank (bank : C.Bank) (words : List (BitVec u.word.bits)) (v : Variable) (x : ℕ) :
    (s.setBank bank words).setSlot bank v.slot v.width x = s.setBank bank (putSlot u words v x) := by
  unfold C.State.setSlot
  rw [C.State.setWord_setBank, C.State.word?_setBank_self, putSlot]

theorem run_putSlot {k : ℕ} {words : List (BitVec u.word.bits)} {v : Variable} {value : Value} {x : ℕ}
    (hr : s.returned = none) (hin : v.slot.group < words.length) (hfit : v.slot.offset + v.width ≤ u.word.bits)
    (hpos : 0 < v.width) (hx : value.ReadsAs u s x) :
    run callees (slotWrite u.word (.args k) v.slot v.width (value.read u)) (s.setBank (.args k) words) =
      some (s.setBank (.args k) (putSlot u words v x)) := by
  rw [← setSlot_setBank]
  refine C.run_slotWrite callees hr (by rwa [C.State.size_setBank_self]) hfit hpos ?_
  split_ifs
  · exact hx.setBank k words
  · rw [setSlot_setBank]
    exact hx.setBank k _

theorem run_packParams {k : ℕ} {params : List VarId} (hr : s.returned = none) :
    ∀ {values : List Value} {xs : List ℕ} {words : List (BitVec u.word.bits)},
      (∀ id ∈ params, (u.var id).slot.group < words.length ∧
        (u.var id).slot.offset + (u.var id).width ≤ u.word.bits ∧ 0 < (u.var id).width) →
      List.Forall₂ (Value.ReadsAs u s) values xs →
      run callees (Lower.packParams u k params values) (s.setBank (.args k) words) =
        some (s.setBank (.args k) (putParams u words (params.zip xs))) := by
  induction params with
  | nil => intro values xs words _ _; rfl
  | cons id ids ih =>
    intro values xs words hids hvs
    cases hvs with
    | nil => rfl
    | cons hx hvs =>
      obtain ⟨hin, hfit, hpos⟩ := hids id (by simp)
      refine (C.run_append_of_eq (run_putSlot hr hin hfit hpos hx) _).trans ?_
      exact ih (fun id' hid' => by simpa using hids id' (by simp [hid'])) hvs

theorem packExtras_cons (k first : ℕ) (v : Value) (values : List Value) :
    Lower.packExtras u k first (v :: values) =
      .setWord (.args k) first (v.read u) :: Lower.packExtras u k (first + 1) values := by
  unfold Lower.packExtras
  rw [List.mapIdx_cons]
  congr 2
  funext i v
  congr 1
  omega

theorem run_packExtras {k : ℕ} {rest : List (BitVec u.word.bits)} (hr : s.returned = none)
    {values : List Value} {xs : List ℕ} (hvs : List.Forall₂ (Value.ReadsAs u s) values xs) :
    ∀ {first : ℕ} {front : List (BitVec u.word.bits)}, front.length = first →
      run callees (Lower.packExtras u k first values)
          (s.setBank (.args k) (front ++ List.replicate values.length 0 ++ rest)) =
        some (s.setBank (.args k) (front ++ xs.map (BitVec.ofNat u.word.bits) ++ rest)) := by
  induction hvs with
  | nil => intro first front _; rfl
  | @cons v x values xs hx _ ih =>
    rintro first front rfl
    have heval := hx.setBank k (front ++ List.replicate (v :: values).length 0 ++ rest)
    unfold Value.ReadsAs at heval
    rw [packExtras_cons, C.run_cons callees _ _ (by exact hr), C.Stmt.step, heval, C.State.word?_setBank_self]
    simp only [List.length_cons, List.replicate_succ, List.append_assoc, List.cons_append,
      List.getElem?_append_right le_rfl, Nat.sub_self, List.getElem?_cons_zero, Option.bind_eq_bind,
      Option.bind_some, C.State.setWord_setBank, List.set_append_right _ _ le_rfl, List.set_cons_zero]
    simpa using @ih _ (front ++ [BitVec.ofNat u.word.bits x]) rfl

@[simp] theorem length_passed {m : Method} {os : List Operand} (h : m.params.length ≤ os.length) :
    (passed u m os).length = os.length := by
  simp [passed]
  omega

theorem putSlot_mod (words : List (BitVec u.word.bits)) (v : Variable) (x : ℕ) :
    putSlot u words v (x % 2 ^ v.width) = putSlot u words v x := by
  unfold putSlot setField
  rw [Nat.mod_mod]

theorem putParams_passed {m : Method} {os : List Operand} (words : List (BitVec u.word.bits))
    (h : m.params.length ≤ os.length) : putParams u words (m.params.zip (passed u m os)) =
      putParams u words (m.params.zip (os.map Operand.value)) := by
  unfold passed
  generalize (os.drop m.params.length).map (·.value % 2 ^ u.word.bits) = rest
  generalize m.params = params at h
  induction params generalizing os words with
  | nil => rfl
  | cons id ids ih =>
    cases os with
    | nil => cases h
    | cons o os =>
      simp only [List.zip_cons_cons, List.map_cons, List.cons_append, putParams_cons, putSlot_mod]
      exact ih _ (Nat.le_of_succ_le_succ h)

/-- Cutting the arguments down to their parameters beforehand makes no difference. -/
theorem argumentWords_passed {m : Method} {os : List Operand} (h : m.params.length ≤ os.length) :
    argumentWords u m (passed u m os) = argumentWords u m (os.map Operand.value) := by
  have hextras : ((passed u m os).drop m.params.length).map (BitVec.ofNat u.word.bits) =
      ((os.map Operand.value).drop m.params.length).map (BitVec.ofNat u.word.bits) := by
    have hmod (x : ℕ) : BitVec.ofNat u.word.bits (x % 2 ^ u.word.bits) = BitVec.ofNat u.word.bits x :=
      BitVec.eq_of_toNat_eq (by simp)
    unfold passed
    rw [List.drop_left' (by simp [h]), List.map_map, ← List.map_drop, List.map_map]
    simp only [Function.comp_def, hmod]
  rw [argumentWords, argumentWords, putParams_passed _ h, hextras, length_passed h, List.length_map]

theorem run_fillArguments {m : Method} (hm : m.WellFormed u.word u.vars) {k : ℕ} {values : List Value}
    {xs : List ℕ} (hr : s.returned = none) (hvs : List.Forall₂ (Value.ReadsAs u s) values xs)
    (hlen : m.params.length ≤ values.length) :
    run callees (Lower.packParams u k m.params values ++
        Lower.packExtras u k m.paramGroups (values.drop m.params.length))
        (s.setBank (.args k) (List.replicate (max 1 (m.paramGroups + values.length - m.params.length)) 0)) =
      some (s.setBank (.args k) (argumentWords u m xs)) := by
  have hlength := hvs.length_eq
  have hcount : max 1 (m.paramGroups + values.length - m.params.length) =
      m.paramGroups + ((values.drop m.params.length).length +
        (1 - (m.paramGroups + (xs.length - m.params.length)))) := by
    rw [List.length_drop, ← hlength]
    omega
  have hparams : ∀ id ∈ m.params, (u.var id).slot.group < m.paramGroups ∧
      (u.var id).slot.offset + (u.var id).width ≤ u.word.bits ∧ 0 < (u.var id).width :=
    fun id hid => ⟨(hm.params.within id hid).1, (hm.params.within id hid).2, hm.params.width_pos id hid⟩
  have hfront : (putParams u (List.replicate m.paramGroups 0) (m.params.zip xs)).length = m.paramGroups := by
    rw [length_putParams, List.length_replicate]
  rw [hcount, List.replicate_add, C.run_append_of_eq
    (run_packParams hr (fun id hid => ⟨lt_of_lt_of_le (hparams id hid).1 (by simp), (hparams id hid).2⟩) hvs),
    putParams_append, argumentWords, List.replicate_add, ← List.append_assoc]
  · exact run_packExtras hr (List.forall₂_drop _ hvs) hfront
  · intro p hp
    rw [List.length_replicate]
    exact (hparams p.1 (List.of_mem_zip hp).1).1

/-- A state after a call that `words` were handed to in an array and whose value went to a temporary. -/
def C.State.called (s : C.State u.word) (array index : ℕ) (function : String) (words : List (BitVec u.word.bits))
    (reply : C.Reply u.word) : C.State u.word :=
  (((s.setBank (.args array) words).see (.call function words)).setBank (.args array) reply.words).setTemp index
    reply.value

theorem C.State.called_temps (s : C.State u.word) (array index : ℕ) (function : String)
    (words : List (BitVec u.word.bits)) (reply : C.Reply u.word) :
    (s.called array index function words reply).temps = Function.update s.temps index (some reply.value) := rfl

theorem run_call {array index : ℕ} (function : String) (words : List (BitVec u.word.bits))
    (hr : s.returned = none) (hi : s.temps index = none) :
    run callees [.declareTemp index (.call function array)] (s.setBank (.args array) words) =
      some (s.called array index function words (callees s.events function words)) := by
  have hwords : (s.setBank (.args array) words).banks (.args array) = some words := by simp [C.State.setBank]
  have hi' : (s.setBank (.args array) words).temps index = none := hi
  rw [C.run_singleton callees _ (by exact hr)]
  simp only [C.Stmt.step, hwords, Option.bind_eq_bind, Option.bind_some, hi']
  rfl

theorem ready_called (hn : Ready n s) (function : String) (words : List (BitVec u.word.bits))
    (reply : C.Reply u.word) :
    Ready ⟨n.temps + 1, n.arrays + 1⟩ (s.called n.arrays n.temps function words reply) := by
  refine ⟨?_, ?_, hn.returned⟩
  · intro i hi
    have hne : i ≠ n.temps := by rintro rfl; exact absurd hi (by simp)
    rw [C.State.called_temps, Function.update_of_ne hne]
    exact hn.temps i (Nat.le_of_succ_le hi)
  · intro k hk
    have hne : k ≠ n.arrays := by rintro rfl; exact absurd hk (by simp)
    simpa [C.State.called, C.State.setTemp, C.State.setBank, C.State.see, hne] using
      hn.arrays k (Nat.le_of_succ_le hk)

theorem extends_called {array index : ℕ} (hi : s.temps index = none) (function : String)
    (words : List (BitVec u.word.bits)) (reply : C.Reply u.word) :
    Extends s (s.called array index function words reply) := by
  refine ⟨?_, ?_, ?_, rfl⟩
  · intro i x hx
    have hne : i ≠ index := by
      rintro rfl
      rw [hi] at hx
      cases hx
    rwa [C.State.called_temps, Function.update_of_ne hne]
  · simp [C.State.called, C.State.setTemp, C.State.setBank, C.State.see]
  · simp [C.State.called, C.State.setTemp, C.State.setBank, C.State.see]

theorem callee_ok {u : SourceUnit} {name : String} {count : ℕ} {m : Method}
    (h : Lower.callee u name count = .ok m) : m ∈ u.methods ∧ m.params.length ≤ count := by
  unfold Lower.callee at h
  split at h
  · cases h
  · rename_i m' hm'
    split_ifs at h with _ hcount
    cases h
    exact ⟨Array.mem_of_find?_eq_some hm', by omega⟩

/-- What calls return fits the width that the called method gives its result. -/
def C.Callees.Bounded (u : SourceUnit) (callees : Callees u.word) : Prop :=
  ∀ past words, ∀ m ∈ u.methods,
    (callees past (Lower.functionName u m) words).value.toNat < 2 ^ (u.var m.result).width

theorem run_invoke {m : Method} (hm : m.WellFormed u.word u.vars) (callees : Callees u.word) (hn : Ready n s)
    {values : List Value} {xs : List ℕ} (hvs : List.Forall₂ (Value.ReadsAs u s) values xs)
    (hlen : m.params.length ≤ values.length) :
    run callees (Lower.invoke u m values n).code s = some (s.called n.arrays n.temps (Lower.functionName u m)
      (argumentWords u m xs) (callees s.events (Lower.functionName u m) (argumentWords u m xs))) := by
  have hdeclare : run callees [.declareWords (.args n.arrays)
      (max 1 (m.paramGroups + values.length - m.params.length))] s = some (s.setBank (.args n.arrays)
        (List.replicate (max 1 (m.paramGroups + values.length - m.params.length)) 0)) := by
    rw [C.run_singleton callees _ hn.returned, C.Stmt.step, hn.arrays _ le_rfl]
    rfl
  have hcode : (Lower.invoke u m values n).code = [.declareWords (.args n.arrays)
      (max 1 (m.paramGroups + values.length - m.params.length))] ++
      (Lower.packParams u n.arrays m.params values ++
        Lower.packExtras u n.arrays m.paramGroups (values.drop m.params.length) ++
        [.declareTemp n.temps (.call (Lower.functionName u m) n.arrays)]) := by
    rw [List.append_assoc]
    rfl
  rw [hcode, C.run_append_of_eq hdeclare, C.run_append_of_eq (run_fillArguments hm hn.returned hvs hlen),
    run_call _ _ hn.returned (hn.temps _ le_rfl)]

/-- Calling a method hands over its arguments, and the value is the one that it returns. -/
theorem Lower.runs_invoke {m : Method} (hu : u.WellFormed) (hm : m ∈ u.methods) (hb : callees.Bounded u)
    (hn : Ready n s) {values : List Value} {os : List Operand} (hvs : List.Forall₂ (Holds u s) values os)
    (hlen : m.params.length ≤ values.length) :
    Runs callees (invoke u m values) n s fun v n' s' => Ready n' s' ∧ Extends s s' ∧
      s'.events = s.events ++ [Action.event u (.call m (passed u m os))] ∧
      Holds u s' v (.computed (callees s.events (functionName u m)
        (argumentWords u m (passed u m os))).value.toNat (u.var m.result).width) := by
  have hwf := hu.methods m hm
  have htemp : s.temps n.temps = none := hn.temps _ le_rfl
  have hreads : List.Forall₂ (Value.ReadsAs u s) values (os.map Operand.value) :=
    List.forall₂_map_right_iff.2 (hvs.imp fun _ _ hvo => hvo.eval_read)
  have hwords : argumentWords u m (passed u m os) = argumentWords u m (os.map Operand.value) :=
    argumentWords_passed (hvs.length_eq ▸ hlen)
  refine ⟨_, run_invoke hwf callees hn hreads hlen, ready_called hn _ _ _, extends_called htemp _ _ _, ?_, ?_⟩
  · rw [Action.event, hwords]
    rfl
  · have hvalue : (invoke u m values n).value = .temp n.temps (u.var m.result).width := rfl
    rw [hvalue, hwords]
    refine .temp ?_ (hb _ _ m hm) hwf.result_pos hwf.result_le
    rw [C.State.called_temps, Function.update_self]

end Invoke
end Bitpack
