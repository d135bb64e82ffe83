import Mathlib
import Bitpack.Compile
import Bitpack.Proofs.Bodies
import Bitpack.Proofs.Declarations

/-! Divisions by the constant zero. A divisor is constant if it is written as a number, or if it is folded from
constants. Such a division is reported where the dividend is constant too; where the dividend is computed at run
time, nothing is reported, and the division is in the output. -/

namespace Bitpack

open C (Expr Stmt)

/-- The operators that have no value for zero on their right. -/
def Arith.divides : Arith → Bool
  | .div | .rem => true
  | _ => false

theorem Constant.fold?_eq_none_iff {op : Arith} {a b : UInt64} : fold? op a b = none ↔ op.divides ∧ b = 0 := by
  cases op <;> simp [fold?, Arith.divides]

theorem Value.read_eq_decimal_iff {u : SourceUnit} {v : Value} {value : UInt64} :
    v.read u = .decimal value ↔ ∃ width, v = .const value width := by
  constructor
  · intro h
    have hpart : v.Part u (.decimal value) := Value.parts_read (by rw [h]; exact List.mem_singleton.2 rfl)
    cases hpart with
    | const => exact ⟨_, rfl⟩
    | wrapping h => cases h
  · rintro ⟨width, rfl⟩
    rfl

namespace Lower

variable {u : SourceUnit} {n : Numbering} {a : Act} {span : Span} {op : Arith} {dividend : Value}

/-- An act that divides by the constant zero. -/
def Act.DividesByZero (a : Act) (span : Span) (op : Arith) (dividend : Value) : Prop :=
  ∃ stack width, a = .apply span (.arith op) stack ∧ op.divides ∧ top stack = .const 0 width ∧
    top stack.tail = dividend

theorem mem_faults_of_dividesByZero (h : a.DividesByZero span op dividend) (hconst : dividend.isConst) :
    ⟨.divisionByZero, span⟩ ∈ (a.perform u n).faults := by
  obtain ⟨stack, width, rfl, hop, hright, rfl⟩ := h
  rw [← (coincide_apply span (.arith op) stack n).faults]
  refine List.mem_append_left _ (?_ : _ ∈ (arith u span op (top stack.tail) (top stack) n).faults)
  cases hleft : top stack.tail with
  | const value width' =>
    have hfold : Constant.fold? op value 0 = none := Constant.fold?_eq_none_iff.2 ⟨hop, rfl⟩
    rw [hright, arith, hfold]
    exact List.mem_singleton.2 rfl
  | var | temp =>
    rw [hleft] at hconst
    cases hconst

theorem dividesByZero_of_mem_faults (ha : a.Called u) (h : ⟨.divisionByZero, span⟩ ∈ (a.perform u n).faults) :
    ∃ op dividend, a.DividesByZero span op dividend ∧ dividend.isConst := by
  cases a with
  | apply span' op stack =>
    rw [← (coincide_apply span' op stack n).faults] at h
    have happlied := applied_apply (u := u) span' op stack
    generalize apply u span' op stack = y at happlied h
    cases happlied with
    | @result y _ hy =>
      rw [((coincide_refl (y n)).bind_pure _).faults] at h
      cases hy with
      | complement | cast | fold | computed => cases h
      | fault hne =>
        cases List.mem_singleton.1 h
        exact absurd rfl hne
      | @division op _ _ _ _ hop hleft hright hfold =>
        cases List.mem_singleton.1 h
        obtain ⟨hdivides, rfl⟩ := Constant.fold?_eq_none_iff.1 hfold
        subst hop
        exact ⟨op, _, ⟨stack, _, rfl, hdivides, hright, hleft⟩, rfl⟩
    | assign => cases h
  | refuse d =>
    obtain ⟨name, count, hcallee⟩ := ha
    cases List.mem_singleton.1 h
    unfold callee at hcallee
    split at hcallee
    · cases hcallee
    · split_ifs at hcallee <;> cases hcallee
  | invoke | finish | print | leave => cases h

theorem mem_parts_of_dividesByZero (h : a.DividesByZero span op dividend) (hcomputed : dividend.isConst = false) :
    ∃ s ∈ (a.perform u n).code, .binary op (dividend.read u) (.decimal 0) ∈ s.parts := by
  obtain ⟨stack, width, rfl, hop, hright, rfl⟩ := h
  have harith : arith u span op (top stack.tail) (top stack) =
      temp u (max ((top stack.tail).width u) ((top stack).width u))
        (.binary op ((top stack.tail).read u) (.decimal 0)) := by
    rw [hright]
    cases hleft : top stack.tail with
    | const =>
      rw [hleft] at hcomputed
      cases hcomputed
    | var | temp => rfl
  rw [← (coincide_apply span (.arith op) stack n).code]
  change ∃ s ∈ (arith u span op (top stack.tail) (top stack) n).code ++ [], _
  rw [List.append_nil, harith]
  refine ⟨_, List.mem_singleton.2 rfl, ?_⟩
  change _ ∈ (ite _ _ _ : Expr).parts
  split_ifs
  · exact List.mem_cons_self
  · exact List.mem_cons_of_mem _ (List.mem_append_left _ (List.mem_cons_of_mem _ List.mem_cons_self))

theorem dividesByZero_of_part {left : Expr} (hop : op.divides) (h : a.Part u n (.binary op left (.decimal 0))) :
    ∃ span dividend, a.DividesByZero span op dividend ∧ dividend.isConst = false ∧ left = dividend.read u := by
  -- Values are cut down with `&` only, so a division is never part of how a value is read or stored.
  have hwrapping : (Expr.binary op left (.decimal 0)).isWrapping = false := by
    cases op with
    | div | rem => rfl
    | mul | add | sub | bitAnd | bitOr | bitXor | and | or => cases hop
  generalize hx : Expr.binary op left (.decimal 0) = x at h hwrapping
  cases h with
  | wrapping h => exact absurd h (hwrapping ▸ Bool.false_ne_true)
  | read _ hpart =>
    cases hpart with
    | wrapping h => exact absurd h (hwrapping ▸ Bool.false_ne_true)
    | const | temp | result | word | mask => cases hx
  | mask | slot | call => cases hx
  | @arith span op stack ha hconst =>
    obtain ⟨rfl, rfl, hright⟩ := Expr.binary.inj hx
    obtain ⟨width, hright⟩ := Value.read_eq_decimal_iff.1 hright.symm
    refine ⟨span, top stack.tail, ⟨stack, width, ha, hop, hright, rfl⟩, hconst.resolve_right ?_, rfl⟩
    rw [hright]
    exact nofun

end Lower

section File

variable {u : SourceUnit}

/-- In a method that is not ignored, there is a division by the constant zero. -/
def SourceUnit.DividesByZero (u : SourceUnit) (span : Span) (op : Arith) (dividend : Value) : Prop :=
  ∃ m ∈ u.visibleMethods, ∃ b, m.body = some b ∧ ∃ a ∈ Lower.bodyActs u b, a.DividesByZero span op dividend

theorem SourceUnit.DividesByZero.divides {span : Span} {op : Arith} {dividend : Value}
    (h : u.DividesByZero span op dividend) : op.divides := by
  obtain ⟨_, _, _, _, _, _, _, _, _, hop, _⟩ := h
  exact hop

/-- In a definition, there is a division by a literal zero. -/
def C.File.DividesByZero (file : C.File) (op : Arith) (left : Expr) : Prop :=
  ∃ f ∈ file.functions, ∃ s ∈ f.body, .binary op left (.decimal 0) ∈ s.parts

theorem mem_lower_faults_iff {d : Diagnostic} : d ∈ u.lower.2 ↔
    ∃ m ∈ u.visibleMethods, ∃ b, m.body = some b ∧ d ∈ (Lower.body u b {}).faults := by
  change d ∈ (u.visibleMethods.filterMap (Lower.function? u)).flatMap (·.2) ↔ _
  constructor
  · intro hd
    obtain ⟨r, hr, hd⟩ := List.mem_flatMap.1 hd
    obtain ⟨m, hm, hr⟩ := List.mem_filterMap.1 hr
    obtain ⟨b, hb, rfl⟩ := Option.map_eq_some_iff.1 hr
    exact ⟨m, hm, b, hb, hd⟩
  · rintro ⟨m, hm, b, hb, hd⟩
    exact List.mem_flatMap.2 ⟨_, List.mem_filterMap.2 ⟨m, hm, Option.map_eq_some_iff.2 ⟨b, hb, rfl⟩⟩, hd⟩

theorem dividesByZero_lower_iff {op : Arith} (hop : op.divides) {left : Expr} : u.lower.1.DividesByZero op left ↔
    ∃ span dividend, u.DividesByZero span op dividend ∧ dividend.isConst = false ∧ left = dividend.read u := by
  constructor
  · rintro ⟨f, hf, s, hs, hx⟩
    obtain ⟨m, hm, b, hb, rfl⟩ := mem_lower_functions_iff.1 hf
    obtain ⟨p, hp, hpart⟩ := Lower.parts_body hs hx
    obtain ⟨span, dividend, hdivides, hcomputed, hleft⟩ := Lower.dividesByZero_of_part hop hpart
    exact ⟨span, dividend, ⟨m, hm, b, hb, p.2, Lower.mem_of_numbered hp, hdivides⟩, hcomputed, hleft⟩
  · rintro ⟨span, dividend, ⟨m, hm, b, hb, a, ha, hdivides⟩, hcomputed, rfl⟩
    obtain ⟨n, hp⟩ := Lower.exists_mem_numbered (u := u) ha {}
    obtain ⟨s, hs, hx⟩ := Lower.mem_parts_of_dividesByZero (u := u) (n := n) hdivides hcomputed
    exact ⟨_, mem_lower_functions_iff.2 ⟨m, hm, b, hb, rfl⟩, s, Lower.mem_body_of_numbered hp hs, hx⟩

theorem SourceUnit.WellFormed.divisionByZero_mem_lower_iff (hu : u.WellFormed) {span : Span} :
    ⟨.divisionByZero, span⟩ ∈ u.lower.2 ↔
    ∃ op dividend, u.DividesByZero span op dividend ∧ dividend.isConst := by
  rw [mem_lower_faults_iff]
  constructor
  · rintro ⟨m, hm, b, hb, hd⟩
    rw [Lower.faults_body, Lower.faults_performAll] at hd
    obtain ⟨p, hp, hd⟩ := List.mem_flatMap.1 hd
    have hcalled := (Lower.along_iff.1 ((hu.methods m (mem_methods_of_visible hm)).along_held hb) p hp).called
    obtain ⟨op, dividend, hdivides, hconst⟩ := Lower.dividesByZero_of_mem_faults hcalled hd
    exact ⟨op, dividend, ⟨m, hm, b, hb, p.2, Lower.mem_of_numbered hp, hdivides⟩, hconst⟩
  · rintro ⟨op, dividend, ⟨m, hm, b, hb, a, ha, hdivides⟩, hconst⟩
    obtain ⟨n, hp⟩ := Lower.exists_mem_numbered (u := u) ha {}
    refine ⟨m, hm, b, hb, ?_⟩
    rw [Lower.faults_body, Lower.faults_performAll]
    exact List.mem_flatMap.2 ⟨_, hp, Lower.mem_faults_of_dividesByZero hdivides hconst⟩

end File

theorem compile_faults {w : Word} {src : String} {c : Compiled} (h : compile w src = .ok c) :
    c.faults = (SourceUnit.ofText w src).2 ++ c.unit.lower.2 := by
  have hword := (SourceUnit.ofText_wellFormed w src).2
  unfold compile at h
  simp only at h
  split_ifs at h
  cases h
  simp only [SourceUnit.generate, hword, if_true]

/-- A division or a remainder whose divisor is the constant zero, however it came about, is reported if, and only
if, its dividend is constant too. With any other dividend it is in the output, as a division by a literal zero, and
there are no others; so a text without faults has such an output if, and only if, something in it is divided by
the constant zero. -/
theorem zero_divisor_emitted_iff_dividend_computed {w : Word} {src : String} {c : Compiled}
    (hc : compile w src = .ok c) :
    c.output = c.unit.lower.1.text ∧ c.faults = (SourceUnit.ofText w src).2 ++ c.unit.lower.2 ∧
    (∀ span, ⟨.divisionByZero, span⟩ ∈ c.unit.lower.2 ↔
      ∃ op dividend, c.unit.DividesByZero span op dividend ∧ dividend.isConst) ∧
    (∀ op left, op.divides → (c.unit.lower.1.DividesByZero op left ↔
      ∃ span dividend, c.unit.DividesByZero span op dividend ∧ dividend.isConst = false ∧
        left = dividend.read c.unit)) ∧
    (c.faults = [] → ((∃ op left, op.divides ∧ c.unit.lower.1.DividesByZero op left) ↔
      ∃ span op dividend, c.unit.DividesByZero span op dividend)) := by
  obtain ⟨hunit, houtput⟩ := compile_ok hc
  have hfaults := compile_faults hc
  have hu : c.unit.WellFormed := hunit ▸ (SourceUnit.ofText_wellFormed w src).1
  refine ⟨houtput, hfaults, fun _ => hu.divisionByZero_mem_lower_iff, fun _ _ hop => dividesByZero_lower_iff hop,
    fun hnone => ⟨?_, ?_⟩⟩
  · rintro ⟨op, left, hop, hdivides⟩
    obtain ⟨span, dividend, hdivides, -, -⟩ := (dividesByZero_lower_iff hop).1 hdivides
    exact ⟨span, op, dividend, hdivides⟩
  · rintro ⟨span, op, dividend, hdivides⟩
    have hcomputed : dividend.isConst = false := by
      rw [Bool.eq_false_iff]
      intro hconst
      have hmem := hu.divisionByZero_mem_lower_iff.2 ⟨op, dividend, hdivides, hconst⟩
      rw [(List.append_eq_nil_iff.1 (hfaults.symm.trans hnone)).2] at hmem
      cases hmem
    have hop := hdivides.divides
    exact ⟨op, _, hop, (dividesByZero_lower_iff hop).2 ⟨span, dividend, hdivides, hcomputed, rfl⟩⟩

/-- A variable modulo a difference that is zero, and a number divided by zero. -/
theorem zero_divisor_emitted_iff_dividend_computed_of_both :
    ∃ c span, compile .w32 "object 8 A;8 f(){f=f%(2-2);print(3/0);}" = .ok c ∧
      c.unit.lower.1.DividesByZero .rem .result ∧ ⟨.divisionByZero, span⟩ ∈ c.unit.lower.2 ∧
      (∃ span' dividend, c.unit.DividesByZero span' .rem dividend ∧ dividend.isConst = false ∧
        .result = dividend.read c.unit) ∧
      ∃ op dividend, c.unit.DividesByZero span op dividend ∧ dividend.isConst := by
  have h : ((compile .w32 "object 8 A;8 f(){f=f%(2-2);print(3/0);}").toOption.bind fun c =>
      c.unit.lower.1.functions[0]?.bind fun f => f.body[3]?.bind fun s => c.unit.lower.2[0]?.map fun d =>
        decide (.binary .rem .result (.decimal 0) ∈ s.parts ∧ d.cause = .divisionByZero)) = some true := by
    decide +kernel
  obtain ⟨c, hc, h⟩ := Option.bind_eq_some_iff.1 h
  obtain ⟨f, hf, h⟩ := Option.bind_eq_some_iff.1 h
  obtain ⟨s, hs, h⟩ := Option.bind_eq_some_iff.1 h
  obtain ⟨⟨cause, span⟩, hd, h⟩ := Option.map_eq_some_iff.1 h
  obtain ⟨hx, rfl⟩ := of_decide_eq_true h
  have hok := compile_of_toOption hc
  have hemitted : c.unit.lower.1.DividesByZero .rem .result :=
    ⟨f, List.mem_of_getElem? hf, s, List.mem_of_getElem? hs, hx⟩
  have hreported : ⟨.divisionByZero, span⟩ ∈ c.unit.lower.2 := List.mem_of_getElem? hd
  obtain ⟨-, -, hreports, hemits, -⟩ := zero_divisor_emitted_iff_dividend_computed hok
  exact ⟨c, span, hok, hemitted, hreported, (hemits .rem .result rfl).1 hemitted, (hreports span).1 hreported⟩

/-- The quotient of a parameter and zero is accepted without a fault and emitted as it is. -/
theorem computed_dividend_divided_by_zero :
    ∃ c, compile .w64 "object 8 A;8 f(64 x){f=x/0;}" = .ok c ∧ c.faults = [] ∧
      c.unit.lower.1.DividesByZero .div (.word .params 0) := by
  have h : ((compile .w64 "object 8 A;8 f(64 x){f=x/0;}").toOption.bind fun c =>
      c.unit.lower.1.functions[0]?.bind fun f => f.body[3]?.map fun s =>
        decide (.binary .div (.word .params 0) (.decimal 0) ∈ s.parts ∧ c.faults = [])) = some true := by
    decide +kernel
  obtain ⟨c, hc, h⟩ := Option.bind_eq_some_iff.1 h
  obtain ⟨f, hf, h⟩ := Option.bind_eq_some_iff.1 h
  obtain ⟨s, hs, h⟩ := Option.map_eq_some_iff.1 h
  obtain ⟨hx, hfaults⟩ := of_decide_eq_true h
  exact ⟨c, compile_of_toOption hc, hfaults, f, List.mem_of_getElem? hf, s, List.mem_of_getElem? hs, hx⟩

end Bitpack
