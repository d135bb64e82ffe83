import Mathlib
import Bitpack.Proofs.Acts
import Bitpack.Proofs.Bounds

/-! What the code of an act is made of. An expression in it reads values that the act is given, masks and wraps
what it reads, and nothing else, apart from the one operation or the one call that the act is for. -/

namespace Bitpack

namespace C

/-- All parts of an expression, itself among them. -/
def Expr.parts : Expr → List Expr
  | .decimal value => [.decimal value]
  | .hex value => [.hex value]
  | .temp index => [.temp index]
  | .result => [.result]
  | .word bank index => [.word bank index]
  | .call function args => [.call function args]
  | .paren e => .paren e :: e.parts
  | .complement e => .complement e :: e.parts
  | .shiftLeft e amount => .shiftLeft e amount :: e.parts
  | .shiftRight e amount => .shiftRight e amount :: e.parts
  | .binary op left right => .binary op left right :: (left.parts ++ right.parts)

def Stmt.parts (s : Stmt) : List Expr :=
  s.value?.elim [] Expr.parts

/-- Statements that stand at the top and at the end of a function, whatever it does. -/
def Stmt.isFrame : Stmt → Bool
  | .discard _ | .declareWords .locals _ | .declareResult | .returnResult => true
  | _ => false

theorem Stmt.isFrame.not_mem_parts {s : Stmt} (h : s.isFrame) (x : Expr) : x ∉ s.parts := by
  cases s with
  | discard | declareWords | declareResult | returnResult => exact List.not_mem_nil
  | declareTemp | setResult | setWord | andWord | orWord | print => cases h

/-- Expressions that move bits to their place or cut them off. -/
def Expr.isWrapping : Expr → Bool
  | .paren _ | .complement _ | .shiftLeft .. | .shiftRight .. | .binary .bitAnd .. => true
  | _ => false

section Slots

variable {w : Word} {bank : Bank} {slot : Slot} {width : ℕ} {e x : Expr}

theorem parts_shifted (hx : x ∈ (shifted w slot width e).parts) : x.isWrapping ∨ x ∈ e.parts := by
  unfold shifted at hx
  split at hx
  · exact .inr hx
  · rcases List.mem_cons.1 hx with rfl | hx
    · exact .inl rfl
    · exact .inr hx

theorem parts_masked (hx : x ∈ (Expr.binary .bitAnd e (.hex (Constant.mask width))).parts) :
    x.isWrapping ∨ x ∈ e.parts ∨ x = .hex (Constant.mask width) := by
  rcases List.mem_cons.1 hx with rfl | hx
  · exact .inl rfl
  · rcases List.mem_append.1 hx with hx | hx
    · exact .inr (.inl hx)
    · exact .inr (.inr (List.mem_singleton.1 hx))

theorem parts_slotRead (hx : x ∈ (slotRead w bank slot width).parts) :
    x.isWrapping ∨ x = .word bank slot.group ∨ x = .hex (Constant.mask width) ∧ width ≠ w.bits := by
  unfold slotRead at hx
  simp only at hx
  split_ifs at hx with hfull
  · exact .inr (.inl (List.mem_singleton.1 hx))
  · rcases List.mem_cons.1 hx with rfl | hx
    · exact .inl rfl
    · rcases parts_masked hx with h | h | rfl
      · exact .inl h
      · split at h
        · exact .inr (.inl (List.mem_singleton.1 h))
        · rcases List.mem_cons.1 h with rfl | h
          · exact .inl rfl
          · rcases List.mem_cons.1 h with rfl | h
            · exact .inl rfl
            · exact .inr (.inl (List.mem_singleton.1 h))
      · exact .inr (.inr ⟨rfl, hfull⟩)

theorem parts_slotWrite {s : Stmt} (hs : s ∈ slotWrite w bank slot width e) (hx : x ∈ s.parts) :
    x.isWrapping ∨ x ∈ e.parts ∨ x = .hex (Constant.mask width) ∧ width ≠ w.bits := by
  by_cases hfull : width = w.bits
  · rw [slotWrite, if_pos hfull, List.mem_singleton] at hs
    subst hs
    exact .inr (.inl hx)
  · rw [slotWrite_of_ne e hfull, List.mem_cons, List.mem_singleton] at hs
    rcases hs with rfl | rfl
    · rcases List.mem_cons.1 hx with rfl | hx
      · exact .inl rfl
      · rcases List.mem_cons.1 hx with rfl | hx
        · exact .inl rfl
        · rcases parts_shifted hx with h | h
          · exact .inl h
          · exact .inr (.inr ⟨List.mem_singleton.1 h, hfull⟩)
    · rcases parts_shifted hx with h | h
      · exact .inl h
      · rcases List.mem_cons.1 h with rfl | h
        · exact .inl rfl
        · rcases parts_masked h with h | h | h
          · exact .inl h
          · exact .inr (.inl h)
          · exact .inr (.inr ⟨h, hfull⟩)

theorem target_slotWrite {s : Stmt} (hs : s ∈ slotWrite w bank slot width e) : s.target? = some (bank, slot.group) := by
  by_cases hfull : width = w.bits
  · rw [slotWrite, if_pos hfull, List.mem_singleton] at hs
    subst hs
    rfl
  · rw [slotWrite_of_ne e hfull, List.mem_cons, List.mem_singleton] at hs
    rcases hs with rfl | rfl <;> rfl

end Slots
end C

open C (Expr Stmt)

section Variables

variable {w : Word} {v : Variable} {x : Expr}

theorem Variable.parts_read (hx : x ∈ (v.read w).parts) : x.isWrapping ∨ x = .result ∨
    (∃ bank, v.storage.bank? = some bank ∧ x = .word bank v.slot.group) ∨
    x = .hex (Constant.mask v.width) ∧ v.width ≠ w.bits := by
  rw [Variable.read_eq] at hx
  split at hx
  · rename_i bank hbank
    rcases C.parts_slotRead hx with h | h | h
    · exact .inl h
    · exact .inr (.inr (.inl ⟨bank, hbank, h⟩))
    · exact .inr (.inr (.inr h))
  · exact .inr (.inl (List.mem_singleton.1 hx))

theorem Variable.parts_write {e : Expr} {s : Stmt} (hs : s ∈ v.write w e) (hx : x ∈ s.parts) :
    x.isWrapping ∨ x ∈ e.parts ∨ x = .hex (Constant.mask v.width) ∧ v.width ≠ w.bits := by
  rw [Variable.write_eq] at hs
  split at hs
  · exact C.parts_slotWrite hs hx
  · obtain rfl := List.mem_singleton.1 hs
    have hx : x ∈ (if w.bits ≤ v.width then e else .binary .bitAnd e (.hex (Constant.mask v.width))).parts := hx
    split_ifs at hx with hwide
    · exact .inr (.inl hx)
    · rcases C.parts_masked hx with h | h | h
      · exact .inl h
      · exact .inr (.inl h)
      · exact .inr (.inr ⟨h, by omega⟩)

theorem Variable.target_write {e : Expr} {s : Stmt} (hs : s ∈ v.write w e) {bank : C.Bank} {index : ℕ}
    (htarget : s.target? = some (bank, index)) : v.storage.bank? = some bank := by
  rw [Variable.write_eq] at hs
  split at hs
  · rename_i bank' hbank
    rw [C.target_slotWrite hs] at htarget
    cases htarget
    exact hbank
  · obtain rfl := List.mem_singleton.1 hs
    cases htarget

/-- What may occur where a value is read. -/
inductive Value.Part (u : SourceUnit) : Value → Expr → Prop
  | const (value : UInt64) (width : ℕ) : Part u (.const value width) (.decimal value)
  | temp (index width : ℕ) : Part u (.temp index width) (.temp index)
  | wrapping {v : Value} {x : Expr} (h : x.isWrapping) : Part u v x
  | result {v : Value} : Part u v .result
  | word {v : Value} {st : Storage} {bank : C.Bank} (hbank : st.bank? = some bank) (index : ℕ) :
      Part u v (.word bank index)
  | mask {id : VarId} (h : (u.var id).width ≠ u.word.bits) : Part u (.var id) (.hex (Constant.mask (u.var id).width))

theorem Value.parts_read {u : SourceUnit} {v : Value} (hx : x ∈ (v.read u).parts) : v.Part u x := by
  cases v with
  | const value width =>
    obtain rfl := List.mem_singleton.1 hx
    exact .const value width
  | temp index width =>
    obtain rfl := List.mem_singleton.1 hx
    exact .temp index width
  | var id =>
    rcases Variable.parts_read hx with h | rfl | ⟨bank, hbank, rfl⟩ | ⟨rfl, hne⟩
    · exact .wrapping h
    · exact .result
    · exact .word hbank _
    · exact .mask hne

end Variables

section Acts

variable {u : SourceUnit} {n : Numbering} {a : Lower.Act} {x : Expr} {s : Stmt}

namespace Lower

/-- What may occur in the code of an act. -/
inductive Act.Part (u : SourceUnit) (n : Numbering) (a : Act) : Expr → Prop
  /-- A missing operand counts as zero. -/
  | read {v : Value} {x : Expr} (hv : v ∈ a.values ∨ v = .literal 0) (hx : v.Part u x) : Part u n a x
  | wrapping {x : Expr} (h : x.isWrapping) : Part u n a x
  | mask {width : ℕ} (h : width < u.word.bits) : Part u n a (.hex (Constant.mask width))
  /-- A variable that is written, or a parameter of a method that is called. -/
  | slot {id : VarId} (hid : .var id ∈ a.values ∨ ∃ m values, a = .invoke m values ∧ id ∈ m.params)
      (h : (u.var id).width ≠ u.word.bits) : Part u n a (.hex (Constant.mask (u.var id).width))
  | arith {span : Span} {op : Arith} {stack : List Value} (ha : a = .apply span (.arith op) stack)
      (hconst : (top stack.tail).isConst = false ∨ (top stack).isConst = false) :
      Part u n a (.binary op ((top stack.tail).read u) ((top stack).read u))
  | call {m : Method} {values : List Value} (ha : a = .invoke m values) :
      Part u n a (.call (functionName u m) n.arrays)

theorem top_mem_tail (stack : List Value) : top stack.tail ∈ stack ∨ top stack.tail = .literal 0 :=
  (top_mem stack.tail).imp_left List.mem_of_mem_tail

theorem Formula.parts {span : Span} {op : Operator} {stack : List Value} {e : Expr} (he : Formula u stack op e)
    (hx : x ∈ e.parts) : Act.Part u n (.apply span op stack) x := by
  cases he with
  | complement =>
    rcases List.mem_cons.1 hx with rfl | hx
    · exact .wrapping rfl
    · exact .read (top_mem stack) (Value.parts_read hx)
  | cast => exact .read (top_mem stack) (Value.parts_read hx)
  | arith op hconst =>
    rcases List.mem_cons.1 hx with rfl | hx
    · exact .arith rfl hconst
    · rcases List.mem_append.1 hx with hx | hx
      · exact .read (top_mem_tail stack) (Value.parts_read hx)
      · exact .read (top_mem stack) (Value.parts_read hx)

theorem parts_temp {width : ℕ} {e : Expr} (hs : s ∈ (temp u width e n).code) (hx : x ∈ s.parts) :
    x.isWrapping ∨ x ∈ e.parts ∨ ∃ width' < u.word.bits, x = .hex (Constant.mask width') := by
  obtain rfl := List.mem_singleton.1 hs
  have hx : x ∈ (if min width u.word.bits = u.word.bits then e
      else .binary .bitAnd (.paren e) (.hex (Constant.mask (min width u.word.bits)))).parts := hx
  split_ifs at hx with hfull
  · exact .inr (.inl hx)
  · rcases C.parts_masked hx with h | h | h
    · exact .inl h
    · rcases List.mem_cons.1 h with rfl | h
      · exact .inl rfl
      · exact .inr (.inl h)
    · exact .inr (.inr ⟨_, by omega, h⟩)

/-- An operator emits one temporary, or an assignment, or nothing. -/
theorem parts_apply {span : Span} {op : Operator} {stack : List Value} (hs : s ∈ (apply u span op stack n).code)
    (hx : x ∈ s.parts) : Act.Part u n (.apply span op stack) x := by
  have happlied := applied_apply (u := u) span op stack
  generalize apply u span op stack = y at happlied hs
  cases happlied with
  | @result y _ hy =>
    have hs : s ∈ (y n).code := (List.append_nil (y n).code) ▸ hs
    cases hy with
    | complement | cast | fold | fault | division => cases hs
    | computed width he =>
      rcases parts_temp hs hx with h | h | ⟨width', hlt, rfl⟩
      · exact .wrapping h
      · exact he.parts h
      · exact .mask hlt
  | @assign id _ hid =>
    have hs : s ∈ (u.var id).write u.word ((top stack.tail).read u) ++ [] := hs
    rw [List.append_nil] at hs
    have hmem : .var id ∈ stack := by
      rcases top_mem stack with h | h
      · rwa [hid] at h
      · rw [hid] at h
        cases h
    rcases Variable.parts_write hs hx with h | h | ⟨rfl, hne⟩
    · exact .wrapping h
    · exact .read (top_mem_tail stack) (Value.parts_read h)
    · exact .slot (.inl hmem) hne

theorem code_invoke (m : Method) (values : List Value) (n : Numbering) : (invoke u m values n).code =
    .declareWords (.args n.arrays) (max 1 (m.paramGroups + values.length - m.params.length)) ::
      (packParams u n.arrays m.params values ++ packExtras u n.arrays m.paramGroups (values.drop m.params.length) ++
        [.declareTemp n.temps (.call (functionName u m) n.arrays)]) := by
  rw [List.append_assoc]
  rfl

theorem parts_fill {m : Method} {values : List Value}
    (hs : s ∈ packParams u n.arrays m.params values ++
      packExtras u n.arrays m.paramGroups (values.drop m.params.length)) (hx : x ∈ s.parts) :
    Act.Part u n (.invoke m values) x := by
  rcases List.mem_append.1 hs with hs | hs
  · obtain ⟨p, hp, hs⟩ := List.mem_flatMap.1 hs
    obtain ⟨hid, hv⟩ := List.of_mem_zip hp
    rcases C.parts_slotWrite hs hx with h | h | ⟨rfl, hne⟩
    · exact .wrapping h
    · exact .read (.inl hv) (Value.parts_read h)
    · exact .slot (.inr ⟨m, values, rfl, hid⟩) hne
  · obtain ⟨i, hi, rfl⟩ := List.mem_mapIdx.1 hs
    exact .read (.inl (List.mem_of_mem_drop (List.getElem_mem hi))) (Value.parts_read hx)

theorem target_fill {m : Method} {values : List Value}
    (hs : s ∈ packParams u n.arrays m.params values ++
      packExtras u n.arrays m.paramGroups (values.drop m.params.length)) :
    ∃ index, s.target? = some (.args n.arrays, index) := by
  rcases List.mem_append.1 hs with hs | hs
  · obtain ⟨p, -, hs⟩ := List.mem_flatMap.1 hs
    exact ⟨_, C.target_slotWrite hs⟩
  · obtain ⟨i, hi, rfl⟩ := List.mem_mapIdx.1 hs
    exact ⟨_, rfl⟩

theorem parts_invoke {m : Method} {values : List Value} (hs : s ∈ (invoke u m values n).code) (hx : x ∈ s.parts) :
    Act.Part u n (.invoke m values) x := by
  rw [code_invoke] at hs
  rcases List.mem_cons.1 hs with rfl | hs
  · cases hx
  · rcases List.mem_append.1 hs with hs | hs
    · exact parts_fill hs hx
    · obtain rfl := List.mem_singleton.1 hs
      obtain rfl := List.mem_singleton.1 hx
      exact .call rfl

/-- The code of an act is made of what its values are read from. -/
theorem parts_perform (hs : s ∈ (a.perform u n).code) (hx : x ∈ s.parts) : a.Part u n x := by
  cases a with
  | apply span op stack => exact parts_apply ((coincide_apply span op stack n).code ▸ hs) hx
  | invoke m values => exact parts_invoke ((coincide_invoke m values n).code ▸ hs) hx
  | print value =>
    obtain rfl := List.mem_singleton.1 hs
    exact .read (.inl (List.mem_singleton.2 rfl)) (Value.parts_read hx)
  | finish stack => cases hs
  | refuse d => cases hs
  | leave =>
    obtain rfl := List.mem_singleton.1 hs
    cases hx

/-- An operator emits nothing, a new temporary or an assignment. -/
theorem code_apply (span : Span) (op : Operator) (stack : List Value) (n : Numbering) :
    (apply u span op stack n).code = [] ∧ (apply u span op stack n).next = n ∨
    (∃ e, (apply u span op stack n).code = [.declareTemp n.temps e] ∧
      (apply u span op stack n).next = ⟨n.temps + 1, n.arrays⟩) ∨
    ∃ id e, (apply u span op stack n).code = (u.var id).write u.word e ∧ (apply u span op stack n).next = n := by
  have happlied := applied_apply (u := u) span op stack
  generalize apply u span op stack = y at happlied ⊢
  cases happlied with
  | result hx =>
    cases hx with
    | complement | cast | fold | fault | division => exact .inl ⟨rfl, rfl⟩
    | computed => exact .inr (.inl ⟨_, rfl, rfl⟩)
  | assign => exact .inr (.inr ⟨_, _, List.append_nil _, rfl⟩)

theorem code_body_framed (b : Body) : ∃ before after, (body u b {}).code =
    before ++ (performAll u (bodyActs u b) {}).code ++ after ∧ (∀ s ∈ before, s.isFrame) ∧ ∀ s ∈ after, s.isFrame := by
  refine ⟨_, _, code_body b, ?_, ?_⟩
  · have hlocals : ∀ s ∈ (if b.groupCount > 0 then [Stmt.declareWords .locals b.groupCount] else []), s.isFrame := by
      split_ifs <;> simp [Stmt.isFrame]
    simp only [List.forall_mem_append]
    exact ⟨⟨by simp [Stmt.isFrame], hlocals⟩, by simp [Stmt.isFrame]⟩
  · split_ifs <;> simp [Stmt.isFrame]

theorem mem_body_of_numbered {b : Body} {p : Numbering × Act} (hp : p ∈ numbered u {} (bodyActs u b))
    (hs : s ∈ (p.2.perform u p.1).code) : s ∈ (body u b {}).code := by
  obtain ⟨before, after, hcode, -, -⟩ := code_body_framed (u := u) b
  rw [hcode, code_performAll]
  exact List.mem_append_left _ (List.mem_append_right _ (List.mem_flatMap.2 ⟨p, hp, hs⟩))

theorem parts_body {b : Body} (hs : s ∈ (body u b {}).code) (hx : x ∈ s.parts) :
    ∃ p ∈ numbered u {} (bodyActs u b), p.2.Part u p.1 x := by
  obtain ⟨before, after, hcode, hbefore, hafter⟩ := code_body_framed (u := u) b
  rw [hcode, List.mem_append, List.mem_append] at hs
  rcases hs with (hs | hs) | hs
  · exact absurd hx (Stmt.isFrame.not_mem_parts (hbefore s hs) x)
  · rw [code_performAll] at hs
    obtain ⟨p, hp, hs⟩ := List.mem_flatMap.1 hs
    exact ⟨p, hp, parts_perform hs hx⟩
  · exact absurd hx (Stmt.isFrame.not_mem_parts (hafter s hs) x)

end Lower
end Acts
end Bitpack
