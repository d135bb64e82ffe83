import Mathlib
import Bitpack.Compile
import Bitpack.Proofs.Calls
import Bitpack.Proofs.Places

/-! Lowering looks neither at places nor at the numbers of variables. Two units whose methods differ in nothing
else are alike, and their methods get the same code, with the same problems but for the places. -/

namespace Bitpack

section Alike

/-- The same item but for places, where a variable of one unit stands for an equal one of the other. -/
inductive Item.Alike (u u' : SourceUnit) : Item → Item → Prop
  | var {id id' : VarId} (h : u.var id = u'.var id') : Alike u u' (.var id) (.var id')
  | temp (id width : ℕ) : Alike u u' (.temp id width) (.temp id width)
  | number (n : ℤ) : Alike u u' (.number n) (.number n)
  | call (name : String) {args args' : List Expression} (span span' : Span)
      (h : List.Forall₂ (fun e e' => List.Forall₂ (Alike u u') e.items e'.items) args args') :
      Alike u u' (.call name args span) (.call name args' span')
  | operator (op : Operator) : Alike u u' (.operator op) (.operator op)
  | opening : Alike u u' .opening .opening
  | closing : Alike u u' .closing .closing

def Expression.Alike (u u' : SourceUnit) (e e' : Expression) : Prop :=
  List.Forall₂ (Item.Alike u u') e.items e'.items

inductive Statement.Alike (u u' : SourceUnit) : Statement → Statement → Prop
  | eval {e e' : Expression} (h : e.Alike u u' e') : Alike u u' (.eval e) (.eval e')
  | ret {e e' : Option Expression} (h : Option.Rel (Expression.Alike u u') e e') : Alike u u' (.ret e) (.ret e')

structure Body.Alike (u u' : SourceUnit) (b b' : Body) : Prop where
  statements : List.Forall₂ (Statement.Alike u u') b.statements b'.statements
  groupCount : b.groupCount = b'.groupCount

structure Method.Alike (u u' : SourceUnit) (m m' : Method) : Prop where
  name : m.name = m'.name
  access : m.access = m'.access
  params : m.params.map u.var = m'.params.map u'.var
  paramGroups : m.paramGroups = m'.paramGroups
  result : u.var m.result = u'.var m'.result
  variadic : m.variadic = m'.variadic
  body : Option.Rel (Body.Alike u u') m.body m'.body

/-- Two units with the same methods, which may stand in another order and among other variables. -/
structure SourceUnit.Alike (u u' : SourceUnit) : Prop where
  name : u.name = u'.name
  bits : u.bits = u'.bits
  word : u.word = u'.word
  method? : ∀ name, Option.Rel (Method.Alike u u') (u.method? name) (u'.method? name)

theorem Method.Alike.length_params {u u' : SourceUnit} {m m' : Method} (h : m.Alike u u' m') :
    m.params.length = m'.params.length := by
  simpa only [List.length_map] using congrArg List.length h.params

end Alike

section Lowerings

variable {α β γ δ : Type}

/-- The same code and, places apart, the same problems, for values that are related. -/
structure Lowered.Alike (R : α → β → Prop) (x : Lowered α) (y : Lowered β) : Prop where
  value : R x.value y.value
  code : x.code = y.code
  causes : x.faults.map (·.cause) = y.faults.map (·.cause)
  next : x.next = y.next

def Lower.Alike (R : α → β → Prop) (x : Lower α) (y : Lower β) : Prop :=
  ∀ n, (x n).Alike R (y n)

namespace Lower

theorem alike_refl (x : Lower α) : Alike Eq x x :=
  fun _ => ⟨rfl, rfl, rfl, rfl⟩

theorem alike_pure {R : α → β → Prop} {a : α} {b : β} (h : R a b) : Alike R (pure a) (pure b) :=
  fun _ => ⟨h, rfl, rfl, rfl⟩

theorem Alike.bind {R : α → β → Prop} {S : γ → δ → Prop} {x : Lower α} {y : Lower β} {f : α → Lower γ}
    {g : β → Lower δ} (h : Alike R x y) (hf : ∀ a b, R a b → Alike S (f a) (g b)) : Alike S (x >>= f) (y >>= g) := by
  intro n
  obtain ⟨hvalue, hcode, hcauses, hnext⟩ := h n
  obtain ⟨hvalue', hcode', hcauses', hnext'⟩ := hf _ _ hvalue (x n).next
  have hy : ((y >>= g) n) = ⟨(g (y n).value (y n).next).value, (y n).code ++ (g (y n).value (y n).next).code,
      (y n).faults ++ (g (y n).value (y n).next).faults, (g (y n).value (y n).next).next⟩ := rfl
  rw [hy, ← hnext]
  refine ⟨hvalue', ?_, ?_, hnext'⟩
  · exact congrArg₂ (· ++ ·) hcode hcode'
  · exact List.map_append.trans ((congrArg₂ (· ++ ·) hcauses hcauses').trans List.map_append.symm)

theorem alike_note (c : Cause) (span span' : Span) : Alike Eq (note ⟨c, span⟩) (note ⟨c, span'⟩) :=
  fun _ => ⟨rfl, rfl, rfl, rfl⟩

end Lower
end Lowerings

section Values

variable {u u' : SourceUnit}

inductive Value.Alike (u u' : SourceUnit) : Value → Value → Prop
  | const (value : UInt64) (width : ℕ) : Alike u u' (.const value width) (.const value width)
  | var {id id' : VarId} (h : u.var id = u'.var id') : Alike u u' (.var id) (.var id')
  | temp (index width : ℕ) : Alike u u' (.temp index width) (.temp index width)

inductive Step.Alike (u u' : SourceUnit) : Step → Step → Prop
  | push {v v' : Value} (h : v.Alike u u' v') : Alike u u' (.push v) (.push v')
  | apply (op : Operator) : Alike u u' (.apply op) (.apply op)

namespace Value

theorem Alike.literal (n : UInt64) : Alike u u' (.literal n) (.literal n) :=
  .const _ _

theorem Alike.width_eq {v v' : Value} (h : v.Alike u u' v') : v.width u = v'.width u' := by
  cases h with
  | const => rfl
  | var h => exact congrArg Variable.width h
  | temp => rfl

theorem Alike.read_eq (hu : u.Alike u') {v v' : Value} (h : v.Alike u u' v') : v.read u = v'.read u' := by
  cases h with
  | const => rfl
  | var h => rw [Value.read, Value.read, h, hu.word]
  | temp => rfl

/-- The value on top of a stack, where zero stands for a missing one. -/
theorem alike_headD {vs vs' : List Value} (h : List.Forall₂ (Value.Alike u u') vs vs') :
    (vs.headD (.literal 0)).Alike u u' (vs'.headD (.literal 0)) := by
  cases h with
  | nil => exact .literal 0
  | cons h _ => exact h

theorem alike_tail {vs vs' : List Value} (h : List.Forall₂ (Value.Alike u u') vs vs') :
    List.Forall₂ (Value.Alike u u') vs.tail vs'.tail := by
  cases h with
  | nil => exact .nil
  | cons _ h => exact h

end Value

namespace Lower

theorem zeroFor_alike (c : Cause) (span span' : Span) :
    Alike (Value.Alike u u') (zeroFor ⟨c, span⟩) (zeroFor ⟨c, span'⟩) :=
  (alike_note c span span').bind fun _ _ _ => alike_pure (.literal 0)

theorem temp_alike (hu : u.Alike u') (width : ℕ) (e : C.Expr) :
    Alike (Value.Alike u u') (temp u width e) (temp u' width e) := by
  unfold temp
  rw [hu.word]
  refine (alike_refl _).bind fun index index' h => ?_
  cases h
  exact alike_pure (.temp _ _)

theorem complement_alike (hu : u.Alike u') {v v' : Value} (h : v.Alike u u' v') :
    Alike (Value.Alike u u') (complement u v) (complement u' v') := by
  have htemp : Alike (Value.Alike u u') (temp u (v.width u) (.complement (v.read u)))
      (temp u' (v'.width u') (.complement (v'.read u'))) := by
    rw [h.width_eq, h.read_eq hu]
    exact temp_alike hu _ _
  cases h with
  | const value width => exact alike_pure (.const _ _)
  | var h => exact htemp
  | temp index width => exact htemp

theorem cast_alike (hu : u.Alike u') (span span' : Span) (width : UInt64) {v v' : Value} (h : v.Alike u u' v') :
    Alike (Value.Alike u u') (cast u span width v) (cast u' span' width v') := by
  have htemp : Alike (Value.Alike u u') (temp u width.toNat (v.read u)) (temp u' width.toNat (v'.read u')) := by
    rw [h.read_eq hu]
    exact temp_alike hu _ _
  simp only [cast, hu.word]
  split_ifs
  · exact zeroFor_alike _ _ _
  · cases h with
    | const value width => exact alike_pure (.const _ _)
    | var h => exact htemp
    | temp index width => exact htemp

theorem arith_alike (hu : u.Alike u') (span span' : Span) (op : Arith) {a a' b b' : Value} (ha : a.Alike u u' a')
    (hb : b.Alike u u' b') : Alike (Value.Alike u u') (arith u span op a b) (arith u' span' op a' b') := by
  have htemp : Alike (Value.Alike u u') (temp u (max (a.width u) (b.width u)) (.binary op (a.read u) (b.read u)))
      (temp u' (max (a'.width u') (b'.width u')) (.binary op (a'.read u') (b'.read u'))) := by
    rw [ha.width_eq, hb.width_eq, ha.read_eq hu, hb.read_eq hu]
    exact temp_alike hu _ _
  cases ha with
  | const value width =>
    cases hb with
    | const value' width' =>
      simp only [arith, hu.word]
      cases Constant.fold? op value value' with
      | none => exact zeroFor_alike _ _ _
      | some n => exact alike_pure (.literal _)
    | var h => exact htemp
    | temp index width => exact htemp
  | var h => exact htemp
  | temp index width => exact htemp

theorem apply_alike (hu : u.Alike u') (span span' : Span) (op : Operator) {vs vs' : List Value}
    (h : List.Forall₂ (Value.Alike u u') vs vs') :
    Alike (List.Forall₂ (Value.Alike u u')) (apply u span op vs) (apply u' span' op vs') := by
  have htop := Value.alike_headD h
  have hleft := Value.alike_headD (Value.alike_tail h)
  have hrest := Value.alike_tail (Value.alike_tail h)
  have hpush : ∀ {x y : Lower Value} {rest rest' : List Value}, Alike (Value.Alike u u') x y →
      List.Forall₂ (Value.Alike u u') rest rest' →
      Alike (List.Forall₂ (Value.Alike u u')) (do return (← x) :: rest) (do return (← y) :: rest') :=
    fun hx hrest => hx.bind fun _ _ hv => alike_pure (.cons hv hrest)
  cases op with
  | not => exact hpush (complement_alike hu htop) (Value.alike_tail h)
  | arith a => exact hpush (arith_alike hu span span' a hleft htop) hrest
  | assign =>
    have hfault := hpush (zeroFor_alike .invalidAssignmentTarget span span') hrest
    simp only [apply]
    generalize vs.headD (.literal 0) = v at htop ⊢
    generalize vs'.headD (.literal 0) = v' at htop ⊢
    cases htop with
    | const value width => exact hfault
    | var h =>
      dsimp only
      rw [h, hu.word, hleft.read_eq hu]
      exact (alike_refl _).bind fun _ _ _ => alike_pure (.cons (.var h) hrest)
    | temp index width => exact hfault
  | cast =>
    have hfault := hpush (zeroFor_alike .dynamicCast span span') hrest
    simp only [apply]
    generalize vs.tail.headD (.literal 0) = v at hleft ⊢
    generalize vs'.tail.headD (.literal 0) = v' at hleft ⊢
    cases hleft with
    | const value width => exact hpush (cast_alike hu span span' value htop) hrest
    | var h => exact hfault
    | temp index width => exact hfault

theorem runSteps_alike (hu : u.Alike u') (span span' : Span) {ss ss' : List Step}
    (h : List.Forall₂ (Step.Alike u u') ss ss') : ∀ {vs vs' : List Value}, List.Forall₂ (Value.Alike u u') vs vs' →
      Alike (Value.Alike u u') (runSteps u span vs ss) (runSteps u' span' vs' ss') := by
  induction h with
  | nil => exact fun hvs => alike_pure (Value.alike_headD hvs)
  | cons hs _ ih =>
    intro vs vs' hvs
    cases hs with
    | push hv => exact ih (.cons hv hvs)
    | apply op => exact (apply_alike hu span span' op hvs).bind fun _ _ => ih

end Lower
end Values

section Calls

variable {u u' : SourceUnit}

namespace Lower

/-- A call is for like methods, or it is at fault for the same cause. -/
theorem callee_alike (hu : u.Alike u') (name : String) (args : ℕ) :
    (∃ cause, callee u name args = .error cause ∧ callee u' name args = .error cause) ∨
      ∃ m m', callee u name args = .ok m ∧ callee u' name args = .ok m' ∧ m.Alike u u' m' := by
  unfold callee
  have hmethod := hu.method? name
  generalize u.method? name = x, u'.method? name = y at hmethod
  cases hmethod with
  | none => exact .inl ⟨_, rfl, rfl⟩
  | @some m m' h =>
    simp only [h.access, h.length_params, h.variadic]
    split_ifs
    · exact .inl ⟨_, rfl, rfl⟩
    · exact .inl ⟨_, rfl, rfl⟩
    · exact .inr ⟨m, m', rfl, rfl, h⟩

theorem functionName_alike (hu : u.Alike u') {m m' : Method} (h : m.Alike u u' m') :
    functionName u m = functionName u' m' := by
  rw [functionName, functionName, hu.name, h.name]

theorem packParams_alike (hu : u.Alike u') (array : ℕ) {params params' : List VarId} {vs vs' : List Value}
    (hparams : params.map u.var = params'.map u'.var) (h : List.Forall₂ (Value.Alike u u') vs vs') :
    packParams u array params vs = packParams u' array params' vs' := by
  have hreads : vs.map (·.read u) = vs'.map (·.read u') := by
    induction h with
    | nil => rfl
    | cons hv _ ih => exact congrArg₂ List.cons (hv.read_eq hu) ih
  -- Packing looks at nothing but the variables of the parameters and the expressions for the values.
  have heq : ∀ (u : SourceUnit) (params : List VarId) (vs : List Value), packParams u array params vs =
      ((params.map u.var).zip (vs.map (·.read u))).flatMap fun p =>
        slotWrite u.word (.args array) p.1.slot p.1.width p.2 := by
    intro u params vs
    rw [List.zip_map, List.flatMap_map]
    rfl
  rw [heq, heq, hparams, hreads, hu.word]

theorem packExtras_alike (hu : u.Alike u') (array first : ℕ) {vs vs' : List Value}
    (h : List.Forall₂ (Value.Alike u u') vs vs') : packExtras u array first vs = packExtras u' array first vs' := by
  induction h generalizing first with
  | nil => rfl
  | cons hv _ ih => rw [packExtras_cons, packExtras_cons, hv.read_eq hu, ih]

theorem invoke_alike (hu : u.Alike u') {m m' : Method} (hm : m.Alike u u' m') {vs vs' : List Value}
    (h : List.Forall₂ (Value.Alike u u') vs vs') : Alike (Value.Alike u u') (invoke u m vs) (invoke u' m' vs') := by
  unfold invoke
  rw [hm.length_params, hm.paramGroups, h.length_eq, functionName_alike hu hm, hm.result]
  refine (alike_refl _).bind fun array array' harray => ?_
  cases harray
  rw [packParams_alike hu array hm.params h, packExtras_alike hu array _ (List.forall₂_drop _ h)]
  refine (alike_refl _).bind fun _ _ _ => (alike_refl _).bind fun _ _ _ => ?_
  refine (alike_refl _).bind fun index index' hindex => ?_
  cases hindex
  exact alike_pure (.temp _ _)

section Items

theorem step_call_alike (hu : u.Alike u') (name : String) {args args' : List Expression} (span span' : Span)
    (hlength : args.length = args'.length)
    (hargs : ∀ {after after' : Value → Lower Unit}, (∀ v v', v.Alike u u' v' → Alike Eq (after v) (after' v')) →
      Alike (List.Forall₂ (Value.Alike u u')) (arguments u after args) (arguments u' after' args')) :
    Alike (Option.Rel (Step.Alike u u')) (step u (.call name args span)) (step u' (.call name args' span')) := by
  have hzero : Option.Rel (Step.Alike u u') (some (.push (.literal 0))) (some (.push (.literal 0))) :=
    .some (.push (.literal 0))
  simp only [step]
  split_ifs
  · refine (hargs fun v v' hv => ?_).bind fun _ _ _ => alike_pure hzero
    rw [hv.read_eq hu]
    exact alike_refl _
  · rw [hlength]
    obtain ⟨cause, hcallee, hcallee'⟩ | ⟨m, m', hcallee, hcallee', hm⟩ := callee_alike hu name args'.length
    · rw [hcallee, hcallee']
      exact (alike_note cause span span').bind fun _ _ _ => alike_pure hzero
    · rw [hcallee, hcallee']
      exact (hargs fun _ _ _ => alike_refl _).bind fun vs vs' hvs =>
        (invoke_alike hu hm hvs).bind fun v v' hv => alike_pure (.some (.push hv))

mutual

theorem steps_alike (hu : u.Alike u') : (is : List Item) → ∀ {is' : List Item}, List.Forall₂ (Item.Alike u u') is is' →
    Alike (List.Forall₂ (Step.Alike u u')) (steps u is) (steps u' is')
  | [], _, .nil => alike_pure .nil
  | i :: is, _, .cons h hs => (step_alike hu i h).bind fun _ _ hstep => (steps_alike hu is hs).bind fun _ _ hsteps =>
      alike_pure (by
        cases hstep with
        | none => exact hsteps
        | some hstep => exact .cons hstep hsteps)

theorem step_alike (hu : u.Alike u') : (i : Item) → ∀ {i' : Item}, i.Alike u u' i' →
    Alike (Option.Rel (Step.Alike u u')) (step u i) (step u' i')
  | .var _, _, .var h => alike_pure (.some (.push (.var h)))
  | .temp id width, _, .temp _ _ => alike_pure (.some (.push (.temp id width)))
  | .number _, _, .number _ => alike_pure (.some (.push (.literal _)))
  | .operator op, _, .operator _ => alike_pure (.some (.apply op))
  | .opening, _, .opening => alike_pure .none
  | .closing, _, .closing => alike_pure .none
  | .call name args _, _, .call _ span span' h => step_call_alike hu name span span' h.length_eq
      fun hafter => arguments_alike hu args hafter h

theorem arguments_alike (hu : u.Alike u') : (es : List Expression) → ∀ {es' : List Expression}
    {after after' : Value → Lower Unit}, (∀ v v', v.Alike u u' v' → Alike Eq (after v) (after' v')) →
    List.Forall₂ (Expression.Alike u u') es es' →
    Alike (List.Forall₂ (Value.Alike u u')) (arguments u after es) (arguments u' after' es')
  | [], _, _, _, _, .nil => alike_pure .nil
  | e :: es, _, _, _, hafter, .cons h hs => (expression_alike hu e h).bind fun v v' hv =>
      (hafter v v' hv).bind fun _ _ _ => (arguments_alike hu es hafter hs).bind fun _ _ hvs => alike_pure (.cons hv hvs)

theorem expression_alike (hu : u.Alike u') : (e : Expression) → ∀ {e' : Expression}, e.Alike u u' e' →
    Alike (Value.Alike u u') (expression u e) (expression u' e')
  | .mk is span, .mk _ span', h => (steps_alike hu is h).bind fun _ _ hsteps => runSteps_alike hu span span' hsteps .nil

end

end Items
end Lower
end Calls

section Methods

variable {u u' : SourceUnit}

namespace Lower

theorem statement_alike (hu : u.Alike u') {st st' : Statement} (h : st.Alike u u' st') :
    Alike Eq (statement u st) (statement u' st') := by
  cases h with
  | @eval e e' h => exact (expression_alike hu e h).bind fun _ _ _ => alike_pure rfl
  | ret h =>
    cases h with
    | none => exact alike_refl _
    | @some e e' h => exact (expression_alike hu e h).bind fun _ _ _ => alike_refl _

theorem statements_alike (hu : u.Alike u') {sts sts' : List Statement}
    (h : List.Forall₂ (Statement.Alike u u') sts sts') : Alike Eq (statements u sts) (statements u' sts') := by
  induction h with
  | nil => exact alike_refl _
  | cons h _ ih => exact (statement_alike hu h).bind fun _ _ _ => ih

theorem endsWithReturn_alike {b b' : Body} (h : b.Alike u u' b') : endsWithReturn b = endsWithReturn b' := by
  have hlast : Option.Rel (Statement.Alike u u') b.statements.getLast? b'.statements.getLast? := by
    have hreverse := List.rel_reverse h.statements
    rw [List.getLast?_eq_head?_reverse, List.getLast?_eq_head?_reverse]
    generalize b.statements.reverse = xs, b'.statements.reverse = ys at hreverse
    cases hreverse with
    | nil => exact .none
    | cons h _ => exact .some h
  unfold endsWithReturn
  generalize b.statements.getLast? = x, b'.statements.getLast? = y at hlast
  cases hlast with
  | none => rfl
  | some h => cases h <;> rfl

theorem body_alike (hu : u.Alike u') {b b' : Body} (h : b.Alike u u' b') : Alike Eq (body u b) (body u' b') := by
  unfold body
  rw [h.groupCount, endsWithReturn_alike h]
  exact (alike_refl _).bind fun _ _ _ => (alike_refl _).bind fun _ _ _ => (alike_refl _).bind fun _ _ _ =>
    (statements_alike hu h.statements).bind fun _ _ _ => alike_refl _

theorem signature_alike (hu : u.Alike u') {m m' : Method} (h : m.Alike u u' m') :
    Signature.ofMethod u m = Signature.ofMethod u' m' := by
  have hparams : m.params.map (fun id => (u.var id).width) = m'.params.map fun id => (u'.var id).width := by
    simpa only [List.map_map, Function.comp_def] using congrArg (List.map Variable.width) h.params
  simp only [Signature.ofMethod, hu.bits, hu.name, h.name, hparams, h.variadic, h.result]

/-- Like methods have the same declaration. -/
theorem prototype_alike (hu : u.Alike u') {m m' : Method} (h : m.Alike u u' m') : prototype u m = prototype u' m' := by
  have hbody : m.body.isSome = m'.body.isSome := by
    have hrel := h.body
    generalize m.body = b, m'.body = b' at hrel
    cases hrel <;> rfl
  rw [prototype, prototype, h.access, hbody, functionName_alike hu h, signature_alike hu h]

/-- Like methods have the same definition, and what is wrong with it is the same. -/
theorem function?_alike (hu : u.Alike u') {m m' : Method} (h : m.Alike u u' m') :
    Option.Rel (fun f f' : C.Function × List Diagnostic => f.1 = f'.1 ∧ f.2.map (·.cause) = f'.2.map (·.cause))
      (function? u m) (function? u' m') := by
  unfold function?
  rw [prototype_alike hu h]
  have hbody := h.body
  generalize m.body = b, m'.body = b' at hbody
  cases hbody with
  | none => exact .none
  | some hb =>
    obtain ⟨-, hcode, hcauses, -⟩ := body_alike hu hb {}
    exact .some ⟨congrArg (C.Function.mk _) hcode, hcauses⟩

theorem prototypes_alike (hu : u.Alike u') {ms ms' : List Method} (h : List.Forall₂ (Method.Alike u u') ms ms') :
    ms.map (prototype u) = ms'.map (prototype u') := by
  induction h with
  | nil => rfl
  | cons hm _ ih => exact congrArg₂ List.cons (prototype_alike hu hm) ih

theorem functions_alike (hu : u.Alike u') {ms ms' : List Method} (h : List.Forall₂ (Method.Alike u u') ms ms') :
    (ms.filterMap (function? u)).map (·.1) = (ms'.filterMap (function? u')).map (·.1) ∧
      ((ms.filterMap (function? u)).flatMap (·.2)).map (·.cause) =
        ((ms'.filterMap (function? u')).flatMap (·.2)).map (·.cause) := by
  induction h with
  | nil => exact ⟨rfl, rfl⟩
  | @cons m m' ms ms' hm _ ih =>
    obtain ⟨hfunctions, hcauses⟩ := ih
    have hfunction := function?_alike hu hm
    rw [List.filterMap_cons, List.filterMap_cons]
    generalize function? u m = f, function? u' m' = f' at hfunction
    cases hfunction with
    | none => exact ⟨hfunctions, hcauses⟩
    | some hf =>
      simp only [List.map_cons, List.flatMap_cons, List.map_append]
      exact ⟨congrArg₂ List.cons hf.1 hfunctions, congrArg₂ (· ++ ·) hf.2 hcauses⟩

end Lower

/-- Like units whose visible methods stand in the same order give the same file. -/
theorem SourceUnit.lower_alike (hu : u.Alike u')
    (h : List.Forall₂ (Method.Alike u u') u.visibleMethods u'.visibleMethods) :
    u.lower.1 = u'.lower.1 ∧ u.lower.2.map (·.cause) = u'.lower.2.map (·.cause) := by
  obtain ⟨hfunctions, hcauses⟩ := Lower.functions_alike hu h
  refine ⟨?_, hcauses⟩
  unfold lower
  simp only [hu.word, Lower.prototypes_alike hu h, hfunctions]

end Methods
end Bitpack
