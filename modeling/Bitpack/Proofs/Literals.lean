import Mathlib
import Bitpack.Proofs.Declarations
import Bitpack.Proofs.Field

/-! Sizes of constants. Folding, casts and complements keep to the storage word, so all constants that lowering
holds fit it if, and only if, all numbers do that are written in the expressions; then all literals of the output
fit it too. A number that does not fit is taken as it is, and differs from what folding makes of it. -/

namespace Bitpack

open C (Expr Stmt)

namespace Lower

variable {u : SourceUnit} {n : Numbering} {a : Act} {v : Value} {x e : Expression}

/-! Each value that is pushed is given to an act. -/

theorem mem_values_of_runActs (span : Span) {stack : List Value} {steps : List Step} (n : Numbering)
    (h : v ∈ stack ∨ .push v ∈ steps) : ∃ a ∈ runActs u span stack steps n, v ∈ a.values := by
  induction steps generalizing stack n with
  | nil => exact ⟨_, List.mem_singleton.2 rfl, h.resolve_right List.not_mem_nil⟩
  | cons s steps ih =>
    cases s with
    | push v' =>
      rcases h with h | h
      · exact ih n (.inl (List.mem_cons_of_mem _ h))
      · rcases List.mem_cons.1 h with h | h
        · cases h
          exact ih n (.inl List.mem_cons_self)
        · exact ih n (.inr h)
    | apply op =>
      rcases h with h | h
      · -- The first operator after the push is given the whole stack.
        exact ⟨_, List.mem_cons_self, h⟩
      · obtain ⟨a, ha, hv⟩ := ih (apply u span op stack n).next (.inr ((List.mem_cons.1 h).resolve_left nofun))
        exact ⟨a, List.mem_cons_of_mem _ ha, hv⟩

theorem push_mem_steps {i : Item} {items : List Item} (hi : i ∈ items) {s : Step}
    (hstep : ∀ n, (step u i n).value = some s) (n : Numbering) : s ∈ (steps u items n).value := by
  induction items generalizing n with
  | nil => cases hi
  | cons i' items ih =>
    rw [steps]
    rcases List.mem_cons.1 hi with rfl | hi
    · exact List.mem_append_left _ (Option.mem_toList.2 (hstep n))
    · exact List.mem_append_right _ (ih hi _)

theorem number_mem_values {k : ℕ} (hk : .number k ∈ e.items) (n : Numbering) :
    ∃ a ∈ expressionActs u e n, .literal k.toUInt64 ∈ a.values := by
  cases e with
  | mk items span =>
    have hstep (n : Numbering) : (step u (.number k) n).value = some (.push (.literal k.toUInt64)) := by
      rw [step]
      rfl
    have hpush : Value.literal k.toUInt64 ∈ [] ∨ .push (.literal k.toUInt64) ∈ (steps u items n).value :=
      .inr (push_mem_steps hk hstep n)
    obtain ⟨a, ha, hv⟩ := mem_values_of_runActs (u := u) span (steps u items n).next hpush
    rw [expressionActs]
    exact ⟨a, List.mem_append_right _ ha, hv⟩

/-! What is lowered with an expression has its acts among those of the expression. -/

theorem stepActs_subset {i : Item} {items : List Item} (hi : i ∈ items) (n : Numbering) :
    ∃ n', stepActs u i n' ⊆ stepsActs u items n := by
  induction items generalizing n with
  | nil => cases hi
  | cons i' items ih =>
    rw [stepsActs]
    rcases List.mem_cons.1 hi with rfl | hi
    · exact ⟨n, List.subset_append_left _ _⟩
    · obtain ⟨n', h⟩ := ih hi (step u i' n).next
      exact ⟨n', List.subset_append_of_subset_right _ h⟩

theorem argumentsActs_subset {args : List Expression} (he : e ∈ args) (after : Value → List Act) (n : Numbering) :
    ∃ n', expressionActs u e n' ⊆ argumentsActs u after args n := by
  induction args generalizing n with
  | nil => cases he
  | cons e' args ih =>
    rw [argumentsActs]
    rcases List.mem_cons.1 he with rfl | he
    · exact ⟨n, List.subset_append_left _ _⟩
    · obtain ⟨n', h⟩ := ih he _
      exact ⟨n', List.subset_append_of_subset_right _ (List.subset_append_of_subset_right _ h)⟩

theorem callActs_subset {name : String} {args : List Expression}
    (hok : name = printName ∨ ∃ m, callee u name args.length = .ok m) (he : e ∈ args) (span : Span) (n : Numbering) :
    ∃ n', expressionActs u e n' ⊆ stepActs u (.call name args span) n := by
  rw [stepActs]
  split_ifs with hprint
  · exact argumentsActs_subset he _ n
  · obtain ⟨m, hm⟩ := hok.resolve_left hprint
    obtain ⟨n', h⟩ := argumentsActs_subset (u := u) he (fun _ => []) n
    rw [hm]
    exact ⟨n', List.subset_append_of_subset_left _ h⟩

theorem expressionActs_subset (hx : x.LoweredIn u e) (n : Numbering) :
    ∃ n', expressionActs u x n' ⊆ expressionActs u e n := by
  induction hx generalizing n with
  | self => exact ⟨n, List.Subset.refl _⟩
  | @argument _ e _ _ span hc hok ha _ ih =>
    cases e with
    | mk items span' =>
      obtain ⟨n₁, hcall⟩ := stepActs_subset (u := u) hc n
      obtain ⟨n₂, harg⟩ := callActs_subset hok ha span n₁
      obtain ⟨n₃, hx⟩ := ih n₂
      rw [expressionActs]
      exact ⟨n₃, fun _ h => List.mem_append_left _ (hcall (harg (hx h)))⟩

theorem statementActs_subset {st : Statement} {sts : List Statement} (hst : st ∈ sts)
    (he : st.expression? = some e) (n : Numbering) : ∃ n', expressionActs u e n' ⊆ statementsActs u sts n := by
  induction sts generalizing n with
  | nil => cases hst
  | cons st' sts ih =>
    rcases List.mem_cons.1 hst with rfl | hst
    · refine ⟨n, List.subset_append_of_subset_left _ ?_⟩
      cases st with
      | eval =>
        cases he
        exact List.Subset.refl _
      | ret =>
        cases he
        exact List.subset_append_left _ _
    · obtain ⟨n', h⟩ := ih hst (statement u st' n).next
      exact ⟨n', List.subset_append_of_subset_right _ h⟩

/-! All constants fit if the numbers that are written do. -/

/-- A constant fits the word, in value and width, and a variable in width. -/
def Fits (u : SourceUnit) (_ : Numbering) : Value → Prop
  | .const value width => value.toNat < 2 ^ u.word.bits ∧ width ≤ u.word.bits
  | .var id => (u.var id).width ≤ u.word.bits
  | .temp .. => True

theorem fits_const {value : UInt64} {width : ℕ} (hvalue : value.toNat < 2 ^ width) (hwidth : width ≤ u.word.bits) :
    Fits u n (.const value width) :=
  ⟨lt_of_lt_of_le hvalue (Nat.pow_le_pow_right two_pos hwidth), hwidth⟩

theorem fits_literal {value : UInt64} (h : value.toNat < 2 ^ u.word.bits) : Fits u n (.literal value) := by
  refine ⟨h, ?_⟩
  unfold Constant.minBits
  split_ifs with hzero
  · exact u.word.bits_pos
  · have hne : value.toNat ≠ 0 := fun h0 => hzero (UInt64.toNat_inj.1 h0)
    exact (Nat.log2_lt hne).2 h

theorem lasting_fits : Lasting u (Fits u) where
  mono {_ _ v} _ h := by
    cases v with
    | const | var | temp => exact h
  temp _ _ _ := trivial
  complement {_ value width} h := by
    refine fits_const ?_ h.2
    rw [Constant.complement, Constant.toNat_and_mask _ (h.2.trans u.word.bits_le)]
    exact Nat.mod_lt _ (Nat.two_pow_pos _)
  cast _ value width h := by
    refine fits_const ?_ h
    rw [Constant.toNat_and_mask _ (h.trans u.word.bits_le)]
    exact Nat.mod_lt _ (Nat.two_pow_pos _)
  fold _ value := by
    refine fits_literal ?_
    rw [Constant.toNat_and_mask _ u.word.bits_le]
    exact Nat.mod_lt _ (Nat.two_pow_pos _)

theorem toNat_mask_lt {width : ℕ} (h : width ≤ u.word.bits) : (Constant.mask width).toNat < 2 ^ u.word.bits := by
  rw [Constant.toNat_mask (h.trans u.word.bits_le)]
  exact lt_of_lt_of_le (Nat.sub_lt (Nat.two_pow_pos _) one_pos) (Nat.pow_le_pow_right two_pos h)

end Lower

/-- The value of a literal, decimal or not. -/
def C.Expr.literal? : Expr → Option UInt64
  | .decimal value | .hex value => some value
  | _ => none

theorem C.Expr.literal?_of_isWrapping {x : Expr} (h : x.isWrapping) : x.literal? = none := by
  cases x with
  | decimal | hex => cases h
  | temp | result | word | paren | complement | binary | shiftLeft | shiftRight | call => rfl

namespace Lower

variable {u : SourceUnit} {n : Numbering} {a : Act}

theorem literal_fits (hu : u.WellFormed) (ha : a.Given u (Fits u) n) {x : Expr} (hx : a.Part u n x) {value : UInt64}
    (hvalue : x.literal? = some value) : value.toNat < 2 ^ u.word.bits := by
  have hread {v : Value} (hv : v ∈ a.values ∨ v = .literal 0) : Fits u n v := by
    rcases hv with hv | rfl
    · exact ha.values v hv
    · exact lasting_fits.zero n
  cases hx with
  | wrapping h =>
    rw [x.literal?_of_isWrapping h] at hvalue
    cases hvalue
  | arith | call => cases hvalue
  | mask h =>
    cases hvalue
    exact toNat_mask_lt h.le
  | slot hid =>
    cases hvalue
    apply toNat_mask_lt
    rcases hid with hid | ⟨m, values, rfl, hid⟩
    · exact ha.values _ hid
    · obtain ⟨name, hcallee⟩ := ha.called
      have hwithin := (hu.methods m (callee_ok hcallee).1).params.within _ hid
      exact le_of_add_le_right hwithin.2
  | read hv hx =>
    cases hx with
    | const =>
      cases hvalue
      exact (hread hv).1
    | mask =>
      cases hvalue
      exact toNat_mask_lt (hread hv)
    | temp | result | word => cases hvalue
    | wrapping h =>
      rw [x.literal?_of_isWrapping h] at hvalue
      cases hvalue

end Lower

section Bodies

variable {u : SourceUnit} {m : Method} {b : Body}

/-- A number is written in what is lowered of a body. -/
def Body.Writes (u : SourceUnit) (b : Body) (k : ℕ) : Prop :=
  ∃ st ∈ b.statements, ∃ e, st.expression? = some e ∧ ∃ x : Expression, x.LoweredIn u e ∧ .number k ∈ x.items

/-- A constant is among the values that lowering works on. -/
def Body.Holds (u : SourceUnit) (b : Body) (value : UInt64) : Prop :=
  ∃ a ∈ Lower.bodyActs u b, ∃ width, .const value width ∈ a.values

theorem Method.WellFormed.written_lt (hm : m.WellFormed u.word u.vars) (hb : m.body = some b) {k : ℕ}
    (hk : b.Writes u k) : k < 2 ^ 63 := by
  obtain ⟨st, hst, e, he, x, hx, hk⟩ := hk
  rcases hx.plain (fun i hi => (hm.statements b hb st hst e he).item hi) _ hk with h | h
  · cases h with
    | number hlt => exact hlt
  · cases h

theorem Body.Writes.holds {k : ℕ} (hk : b.Writes u k) : b.Holds u k.toUInt64 := by
  obtain ⟨st, hst, e, he, x, hx, hk⟩ := hk
  obtain ⟨n₁, hstatement⟩ := Lower.statementActs_subset (u := u) hst he {}
  obtain ⟨n₂, hexpression⟩ := Lower.expressionActs_subset hx n₁
  obtain ⟨a, ha, hv⟩ := Lower.number_mem_values (u := u) hk n₂
  exact ⟨a, hstatement (hexpression ha), _, hv⟩

theorem Method.WellFormed.toNat_written (hm : m.WellFormed u.word u.vars) (hb : m.body = some b) {k : ℕ}
    (hk : b.Writes u k) : k.toUInt64.toNat = k :=
  UInt64.toNat_ofNat_of_lt ((hm.written_lt hb hk).trans (by decide))

theorem Method.WellFormed.width_le (hm : m.WellFormed u.word u.vars) {id : VarId} (hid : id ∈ m.scope) :
    (u.var id).width ≤ u.word.bits := by
  rcases mem_scope.1 hid with rfl | hid | ⟨b, hb, hid⟩
  · exact hm.result_le
  · exact le_of_add_le_right (hm.params.within id hid).2
  · exact le_of_add_le_right ((hm.locals b hb).within id hid).2

theorem Method.WellFormed.along_fits (hm : m.WellFormed u.word u.vars) (hb : m.body = some b)
    (hfit : ∀ k, b.Writes u k → k < 2 ^ u.word.bits) :
    Lower.Along u (Lower.Act.Given u (Lower.Fits u)) {} (Lower.bodyActs u b) := by
  refine Lower.lasting_fits.statements (fun st hst e he => hm.offers hb (fun id hid _ => ?_) hst he ?_) {}
  · exact hm.width_le hid
  · intro x hx k hk _
    have hwrites : b.Writes u k := ⟨st, hst, e, he, x, hx, hk⟩
    apply Lower.fits_literal
    rw [hm.toNat_written hb hwrites]
    exact hfit k hwrites

theorem Method.WellFormed.held_fit_iff (hm : m.WellFormed u.word u.vars) (hb : m.body = some b) :
    (∀ value, b.Holds u value → value.toNat < 2 ^ u.word.bits) ↔ ∀ k, b.Writes u k → k < 2 ^ u.word.bits := by
  constructor
  · intro hheld k hk
    rw [← hm.toNat_written hb hk]
    exact hheld _ hk.holds
  · rintro hfit value ⟨a, ha, width, hv⟩
    obtain ⟨n, hp⟩ := Lower.exists_mem_numbered (u := u) ha {}
    exact ((Lower.along_iff.1 (hm.along_fits hb hfit) _ hp).values _ hv).1

theorem value_arith_eq_literal_iff {op : Arith} {left right value : UInt64}
    (hfold : Constant.fold? op left right = some value) (span : Span) (width width' : ℕ) (n : Numbering) :
    (Lower.arith u span op (.const left width) (.const right width') n).value = .literal value ↔
      value.toNat < 2 ^ u.word.bits := by
  have hvalue : (Lower.arith u span op (.const left width) (.const right width') n).value =
      .literal (value &&& Constant.mask u.word.bits) := by
    rw [Lower.arith, hfold]
    rfl
  have hmod := Constant.toNat_and_mask value u.word.bits_le
  rw [hvalue, ← Nat.mod_eq_iff_lt (Nat.two_pow_pos _).ne', ← hmod, UInt64.toNat_inj]
  exact ⟨fun h => (Value.const.inj h).1, congrArg Value.literal⟩

end Bodies

/-- The constants that lowering works on in a body fit the word if, and only if, the numbers that are written
in it do, as they always do for 64 bits; then the literals in the code fit it too. A constant that is folded is
the one that would be written for its value if, and only if, the value fits the word. -/
theorem constants_fit_iff_written_numbers_fit (w : Word) (src : String) {u : SourceUnit}
    (hu : (SourceUnit.ofText w src).1 = u) {m : Method} (hm : m ∈ u.visibleMethods) {b : Body} (hb : m.body = some b) :
    ((∀ value, b.Holds u value → value.toNat < 2 ^ w.bits) ↔ ∀ k, b.Writes u k → k < 2 ^ w.bits) ∧
    (w = .w64 → ∀ k, b.Writes u k → k < 2 ^ w.bits) ∧
    ((∀ k, b.Writes u k → k < 2 ^ w.bits) → ∀ f ∈ u.lower.1.functions, f.prototype = Lower.prototype u m →
      ∀ s ∈ f.body, ∀ x ∈ s.parts, ∀ value, x.literal? = some value → value.toNat < 2 ^ w.bits) ∧
    ∀ op left right value, Constant.fold? op left right = some value → ∀ span width width' n,
      (Lower.arith u span op (.const left width) (.const right width') n).value = .literal value ↔
        value.toNat < 2 ^ w.bits := by
  obtain ⟨hwf, hword⟩ := SourceUnit.ofText_wellFormed w src
  rw [hu] at hwf hword
  subst hword
  have hmem := mem_methods_of_visible hm
  have hmwf := hwf.methods m hmem
  refine ⟨hmwf.held_fit_iff hb, fun hword k hk => ?_, fun hfit f hf hproto s hs x hx value hvalue => ?_,
    fun _ _ _ _ hfold => value_arith_eq_literal_iff hfold⟩
  · rw [hword]
    exact (hmwf.written_lt hb hk).trans (by decide)
  · obtain ⟨m', hm', b', hb', rfl⟩ := mem_lower_functions_iff.1 hf
    obtain rfl := hwf.eq_of_functionName (mem_methods_of_visible hm') hmem
      (congrArg C.Prototype.name hproto)
    obtain rfl := Option.some.inj (hb'.symm.trans hb)
    obtain ⟨p, hp, hpart⟩ := Lower.parts_body hs hx
    exact Lower.literal_fits hwf (Lower.along_iff.1 (hmwf.along_fits hb hfit) p hp) hpart hvalue

/-- The greatest number that can be written, and what becomes of it when it is folded and complemented. -/
theorem constants_fit_iff_written_numbers_fit_for_64_bits :
    ∃ u m b f, (SourceUnit.ofText .w64 "object 8 A;8 f(){print(9223372036854775807*2+~0);}").1 = u ∧
      m ∈ u.visibleMethods ∧ m.body = some b ∧ f ∈ u.lower.1.functions ∧ f.prototype = Lower.prototype u m ∧
      .print (.decimal 18446744073709551615) ∈ f.body ∧
      (∀ value, b.Holds u value → value.toNat < 2 ^ 64) ∧
      ∀ s ∈ f.body, ∀ x ∈ s.parts, ∀ value, x.literal? = some value → value.toNat < 2 ^ 64 := by
  let u := (SourceUnit.ofText .w64 "object 8 A;8 f(){print(9223372036854775807*2+~0);}").1
  have h : (u.visibleMethods[0]?.bind fun m => m.body.bind fun _ => u.lower.1.functions[0]?.map fun f =>
      decide (f.prototype = Lower.prototype u m ∧ .print (.decimal 18446744073709551615) ∈ f.body)) = some true := by
    decide +kernel
  obtain ⟨m, hm, h⟩ := Option.bind_eq_some_iff.1 h
  obtain ⟨b, hb, h⟩ := Option.bind_eq_some_iff.1 h
  obtain ⟨f, hf, h⟩ := Option.map_eq_some_iff.1 h
  obtain ⟨hproto, hprint⟩ := of_decide_eq_true h
  have hm := List.mem_of_getElem? hm
  have hf := List.mem_of_getElem? hf
  obtain ⟨hheld, hwide, hliterals, -⟩ := constants_fit_iff_written_numbers_fit .w64 _ (u := u) rfl hm hb
  exact ⟨u, m, b, f, rfl, hm, hb, hf, hproto, hprint, hheld.2 (hwide rfl), hliterals (hwide rfl) f hf hproto⟩

/-- A number of 33 bits is printed as it is by a 32-bit unit, and the sum of it and zero is not. -/
theorem number_wider_than_word_kept :
    ∃ f ∈ (SourceUnit.ofText .w32 "object 8 A;8 f(){print(5000000000);print(5000000000+0);}").1.lower.1.functions,
      .print (.decimal 5000000000) ∈ f.body ∧ .print (.decimal 705032704) ∈ f.body ∧
      2 ^ Word.w32.bits ≤ UInt64.toNat 5000000000 := by
  have h : ((SourceUnit.ofText .w32
      "object 8 A;8 f(){print(5000000000);print(5000000000+0);}").1.lower.1.functions[0]?.map fun f =>
      decide (.print (.decimal 5000000000) ∈ f.body ∧ .print (.decimal 705032704) ∈ f.body)) = some true := by
    decide +kernel
  obtain ⟨f, hf, h⟩ := Option.map_eq_some_iff.1 h
  obtain ⟨hwritten, hfolded⟩ := of_decide_eq_true h
  exact ⟨f, List.mem_of_getElem? hf, hwritten, hfolded, by decide⟩

end Bitpack
