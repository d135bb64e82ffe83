import Mathlib
import Bitpack.Proofs.Calls
import Bitpack.Proofs.Reading

/-! Caller and callee agree on where arguments are. The caller writes them into an array by the slots that the
called method has for its parameters, and the callee reads its parameters from that array by the same slots, so
that each parameter has the argument given for it; a further argument has the word that comes next. -/

namespace Bitpack

open C (Callees run)

namespace C.State

variable {w : Word} {s : State w} {bank : Bank} {words : List (BitVec w.bits)}

theorem setBank_eq_self (h : s.banks bank = some words) : s.setBank bank words = s := by
  rw [setBank, ← h, Function.update_eq_self]

theorem slot_setBank_append (rest : List (BitVec w.bits)) {slot : Slot} (width : ℕ) (h : slot.group < words.length) :
    (s.setBank bank (words ++ rest)).slot bank slot width = (s.setBank bank words).slot bank slot width := by
  unfold State.slot
  rw [word?_setBank_self, word?_setBank_self, List.getElem?_append_left h]

end C.State

section Slots

variable {u : SourceUnit} {s : C.State u.word} {bank : C.Bank}

theorem slot_putParams_of_apart {v : Variable} (hv : v.slot.offset + v.width ≤ u.word.bits) {ps : List (VarId × ℕ)} :
    ∀ {words : List (BitVec u.word.bits)},
      (∀ p ∈ ps, (u.var p.1).slot.group < words.length ∧
        (u.var p.1).slot.offset + (u.var p.1).width ≤ u.word.bits ∧
        (u.var p.1).slot.Apart (u.var p.1).width v.slot v.width) →
      (s.setBank bank (putParams u words ps)).slot bank v.slot v.width =
        (s.setBank bank words).slot bank v.slot v.width := by
  induction ps with
  | nil => intro words _; rfl
  | cons p ps ih =>
    intro words hps
    obtain ⟨hin, hfit, hapart⟩ := hps p (by simp)
    rw [putParams_cons]
    refine (ih fun q hq => ?_).trans ?_
    · rw [length_putSlot]
      exact hps q (by simp [hq])
    · rw [← setSlot_setBank]
      exact C.State.slot_setSlot_of_apart p.2 (by rwa [C.State.size_setBank_self]) hfit hv (Or.inr hapart)

theorem slot_putParams {params : List VarId} : ∀ {xs : List ℕ} {words : List (BitVec u.word.bits)},
    (∀ id ∈ params, (u.var id).slot.group < words.length ∧
      (u.var id).slot.offset + (u.var id).width ≤ u.word.bits) →
    (params.Pairwise fun a b => (u.var a).slot.Apart (u.var a).width (u.var b).slot (u.var b).width) →
    ∀ {i id x : ℕ}, params[i]? = some id → xs[i]? = some x →
      (s.setBank bank (putParams u words (params.zip xs))).slot bank (u.var id).slot (u.var id).width =
        x % 2 ^ (u.var id).width := by
  induction params with
  | nil => intro xs words _ _ i id x hid _; simp at hid
  | cons first params ih =>
    intro xs words hwithin hapart i id x hid hx
    obtain ⟨hfirst, hrest⟩ := List.pairwise_cons.1 hapart
    cases xs with
    | nil => simp at hx
    | cons y ys =>
      have hwithin' : ∀ p ∈ params, (u.var p).slot.group < (putSlot u words (u.var first) y).length ∧
          (u.var p).slot.offset + (u.var p).width ≤ u.word.bits := by
        intro p hp
        rw [length_putSlot]
        exact hwithin p (by simp [hp])
      cases i with
      | succ i => exact ih hwithin' hrest (by simpa using hid) (by simpa using hx)
      | zero =>
        obtain rfl : first = id := by simpa using hid
        obtain rfl : y = x := by simpa using hx
        obtain ⟨hin, hfit⟩ := hwithin first (by simp)
        -- the numbers that come after it go to slots apart from this one
        rw [List.zip_cons_cons, putParams_cons]
        refine (slot_putParams_of_apart hfit fun p hp => ?_).trans ?_
        · have hmem := (List.of_mem_zip hp).1
          exact ⟨(hwithin' p.1 hmem).1, (hwithin' p.1 hmem).2, (hfirst p.1 hmem).symm⟩
        · rw [← setSlot_setBank]
          exact C.State.slot_setSlot_self y (by rwa [C.State.size_setBank_self]) hfit

end Slots

section Callee

variable {u : SourceUnit} {m : Method} {xs : List ℕ}

theorem slot_argumentWords (hm : m.WellFormed u.word u.vars) {s : C.State u.word} {bank : C.Bank} {i id x : ℕ}
    (hid : m.params[i]? = some id) (hx : xs[i]? = some x) :
    (s.setBank bank (argumentWords u m xs)).slot bank (u.var id).slot (u.var id).width =
      x % 2 ^ (u.var id).width := by
  have hlen : (putParams u (List.replicate m.paramGroups 0) (m.params.zip xs)).length = m.paramGroups := by simp
  have hmem : id ∈ m.params := List.mem_of_getElem? hid
  rw [argumentWords, List.append_assoc,
    C.State.slot_setBank_append _ _ (by rw [hlen]; exact (hm.params.within id hmem).1)]
  refine slot_putParams (fun p hp => ?_) hm.params.apart hid hx
  rw [List.length_replicate]
  exact hm.params.within p hp

theorem length_argumentWords_ge (u : SourceUnit) (m : Method) (xs : List ℕ) :
    m.paramGroups ≤ (argumentWords u m xs).length := by
  simp only [argumentWords, List.length_append, length_putParams, List.length_replicate]
  omega

/-- In a function that was handed the words of a call, reading a parameter gives its argument. -/
theorem eval_read_param (hm : m.WellFormed u.word u.vars) {t : C.State u.word}
    (ht : t.banks .params = some (argumentWords u m xs)) {i id x : ℕ} (hid : m.params[i]? = some id)
    (hx : xs[i]? = some x) : ((u.var id).read u.word).eval t = some (x % 2 ^ (u.var id).width) := by
  have hmem : id ∈ m.params := List.mem_of_getElem? hid
  have hstorage : (u.var id).storage = .params := hm.params.storage_eq id hmem
  obtain ⟨hgroup, hfit⟩ : (u.var id).slot.group < m.paramGroups ∧
      (u.var id).slot.offset + (u.var id).width ≤ u.word.bits := hm.params.within id hmem
  have hread : (u.var id).read u.word = slotRead u.word .params (u.var id).slot (u.var id).width := by
    rw [Variable.read, hstorage]
  rw [hread, ← C.State.setBank_eq_self ht, C.eval_slotRead ?_ hfit (hm.params.width_pos id hmem),
    slot_argumentWords hm hid hx]
  rw [C.State.size_setBank_self]
  exact lt_of_lt_of_le hgroup (length_argumentWords_ge u m xs)

theorem getElem?_argumentWords_extra {k x : ℕ} (hx : xs[m.params.length + k]? = some x) :
    (argumentWords u m xs)[m.paramGroups + k]? = some (BitVec.ofNat u.word.bits x) := by
  have hlen : (putParams u (List.replicate m.paramGroups 0) (m.params.zip xs)).length = m.paramGroups := by simp
  have hk : k < ((xs.drop m.params.length).map (BitVec.ofNat u.word.bits)).length := by
    obtain ⟨hlt, -⟩ := List.getElem?_eq_some_iff.1 hx
    rw [List.length_map, List.length_drop]
    omega
  rw [argumentWords, List.append_assoc, List.getElem?_append_right (by rw [hlen]; omega), hlen,
    Nat.add_sub_cancel_left, List.getElem?_append_left hk, List.getElem?_map, List.getElem?_drop, hx, Option.map_some]

theorem SourceUnit.WellFormed.method?_name (hu : u.WellFormed) (hm : m ∈ u.methods) :
    u.method? m.name = some m := by
  obtain ⟨m', hm'⟩ : ∃ m', u.method? m.name = some m' := by
    rw [← Option.isSome_iff_exists, SourceUnit.method?, Array.find?_isSome]
    exact ⟨m, hm, by simp⟩
  have hname : m'.name = m.name := by simpa using Array.find?_some hm'
  have hmem : m' ∈ u.methods := Array.mem_of_find?_eq_some hm'
  rw [hm', List.inj_on_of_nodup_map hu.names (Array.mem_toList_iff.2 hmem) (Array.mem_toList_iff.2 hm) hname]

theorem SourceUnit.WellFormed.callee_eq (hu : u.WellFormed) (hm : m ∈ u.methods) (haccess : m.access ≠ .ignored)
    {count : ℕ} (hcount : count = m.params.length ∨ m.variadic ∧ m.params.length ≤ count) :
    Lower.callee u m.name count = .ok m := by
  have hfits : ¬ (count < m.params.length ∨ m.params.length < count ∧ !m.variadic) := by
    rcases hcount with rfl | ⟨hvariadic, hle⟩
    · simp
    · simp [hvariadic, hle]
  rw [Lower.callee, hu.method?_name hm]
  simp only [haccess, if_false]
  rw [if_neg hfits]

end Callee

/-- A call with as many arguments as there are parameters, or more of them to a method that takes more, is
lowered to code that runs and hands over words from which the called method reads, in any state of its own, each
parameter as the argument for it modulo the parameter's width; further arguments follow in a word each. -/
theorem arguments_arrive (w : Word) (src : String) {u : SourceUnit} (hu : (SourceUnit.ofText w src).1 = u)
    {m : Method} (hm : m ∈ u.methods) (haccess : m.access ≠ .ignored) {values : List Value} {xs : List ℕ}
    (hcount : values.length = m.params.length ∨ m.variadic ∧ m.params.length ≤ values.length)
    (callees : Callees u.word) {n : Numbering} {s : C.State u.word} (hn : Ready n s)
    (hvs : List.Forall₂ (Value.ReadsAs u s) values xs) :
    Lower.callee u m.name values.length = .ok m ∧
    ∃ words s', run callees (Lower.invoke u m values n).code s = some s' ∧
      s'.events = s.events ++ [.call (Lower.functionName u m) words] ∧
      ∀ t : C.State u.word, t.banks .params = some words →
        (∀ (i id x : ℕ), m.params[i]? = some id → xs[i]? = some x →
          ((u.var id).read u.word).eval t = some (x % 2 ^ (u.var id).width)) ∧
        ∀ (k x : ℕ), xs[m.params.length + k]? = some x →
          (t.word? .params (m.paramGroups + k)).map BitVec.toNat = some (x % 2 ^ u.word.bits) := by
  subst hu
  have hwf := (SourceUnit.ofText_wellFormed w src).1
  have hlen : m.params.length ≤ values.length := by
    rcases hcount with heq | ⟨-, hle⟩
    · exact heq.ge
    · exact hle
  refine ⟨hwf.callee_eq hm haccess hcount, argumentWords _ m xs, _,
    run_invoke (hwf.methods m hm) callees hn hvs hlen, rfl, ?_⟩
  intro t ht
  refine ⟨fun i id x hid hx => eval_read_param (hwf.methods m hm) ht hid hx, fun k x hx => ?_⟩
  rw [C.State.word?, ht, Option.bind_some, getElem?_argumentWords_extra hx, Option.map_some, BitVec.toNat_ofNat]

/-- One parameter and two arguments more. The first argument, 300, does not fit the parameter of 7 bits, and the
second does not fit a word. -/
theorem arguments_arrive_variadic :
    ∃ (u : SourceUnit) (m : Method) (s : C.State u.word) (id : VarId) (words : List (BitVec u.word.bits)),
      (SourceUnit.ofText .w32 "object 8 A;8 f(7 p,...);").1 = u ∧ m ∈ u.methods ∧ m.access ≠ .ignored ∧
      Ready ⟨1, 0⟩ s ∧ m.params = [id] ∧ m.paramGroups = 1 ∧
      ((u.var id).read u.word).eval (C.State.entry words) = some 44 ∧
      ((C.State.entry words).word? .params 1).map BitVec.toNat = some 9 ∧
      ((C.State.entry words).word? .params 2).map BitVec.toNat = some 77 := by
  let u := (SourceUnit.ofText .w32 "object 8 A;8 f(7 p,...);").1
  let s : C.State u.word := (C.State.entry []).setTemp 0 (BitVec.ofNat u.word.bits 77)
  let values : List Value := [.literal 300, .literal 4294967305, .temp 0 7]
  have hbits : u.word.bits = 32 := congrArg Word.bits (SourceUnit.ofText_wellFormed .w32 _).2
  have hmethod : (u.methods[0]?.bind fun m => m.params[0]?.map fun id =>
      decide (m.access ≠ .ignored ∧ m.variadic ∧ m.paramGroups = 1 ∧ m.params = [id] ∧ (u.var id).width = 7)) =
      some true := by
    decide +kernel
  obtain ⟨m, hm, hmethod⟩ := Option.bind_eq_some_iff.1 hmethod
  obtain ⟨id, hid, hmethod⟩ := Option.map_eq_some_iff.1 hmethod
  obtain ⟨haccess, hvariadic, hgroups, hparams, hwidth⟩ := of_decide_eq_true hmethod
  have hm' : m ∈ u.methods := Array.mem_of_getElem? hm
  have hready : Ready ⟨1, 0⟩ s := by
    refine ⟨fun i hi => ?_, fun _ _ => rfl, rfl⟩
    have hi' : i ≠ 0 := Nat.one_le_iff_ne_zero.1 hi
    simp [s, C.State.setTemp, C.State.entry, hi']
  have hvs : List.Forall₂ (Value.ReadsAs u s) values [300, 4294967305, 77] := by
    have htemp : Value.ReadsAs u s (.temp 0 7) 77 := by
      have hset : s.temps 0 = some (BitVec.ofNat u.word.bits 77) := by simp [s, C.State.setTemp]
      rw [Value.ReadsAs, Value.read, C.Expr.eval, hset, Option.map_some, BitVec.toNat_ofNat, hbits]
    exact .cons rfl (.cons rfl (.cons htemp .nil))
  have hcount : values.length = m.params.length ∨ m.variadic ∧ m.params.length ≤ values.length :=
    Or.inr ⟨hvariadic, by rw [hparams]; exact Nat.le_add_left 1 2⟩
  obtain ⟨-, words, s', -, -, harrive⟩ :=
    arguments_arrive .w32 _ rfl hm' haccess hcount (fun _ _ words => ⟨0, words⟩) hready hvs
  obtain ⟨hread, hextra⟩ := harrive (C.State.entry words) (by simp [C.State.entry])
  rw [hparams, hgroups] at hextra
  refine ⟨u, m, s, id, words, rfl, hm', haccess, hready, hparams, hgroups, ?_, ?_, ?_⟩
  · exact (hread 0 id 300 hid rfl).trans (by rw [hwidth]; rfl)
  · exact (hextra 0 4294967305 rfl).trans (by rw [hbits]; rfl)
  · exact (hextra 1 77 rfl).trans (by rw [hbits]; rfl)

end Bitpack
