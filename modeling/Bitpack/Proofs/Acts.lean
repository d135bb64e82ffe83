import Mathlib
import Bitpack.Lowering.Unit
import Bitpack.Proofs.Reading

/-! Lowering, act by act. An act applies an operator to a stack of values, takes the value of an expression from
the stack that is left, prints a value, calls a method, refuses a call or leaves the function. All that lowering
emits and notes comes from its acts, in their order; so what each act emits says what the code is made of, and a
property of values that no act destroys holds of every value that an act is given. -/

namespace Bitpack

@[elab_as_elim]
theorem Expression.inductionOn {P : Expression → Prop} (e : Expression)
    (h : ∀ e : Expression, (∀ name args span, .call name args span ∈ e.items → ∀ a ∈ args, P a) → P e) : P e :=
  h e fun _ _ _ _ a _ => inductionOn a h
termination_by sizeOf e
decreasing_by
  rename_i args _ hc ha
  cases e with
  | mk items span =>
    have hargs := List.sizeOf_lt_of_mem ha
    have hitems := List.sizeOf_lt_of_mem hc
    simp only [Item.call.sizeOf_spec, Expression.items] at hitems
    simp only [Expression.mk.sizeOf_spec]
    omega

def Value.isConst : Value → Bool
  | .const .. => true
  | .var _ => false
  | .temp .. => false

/-- What is lowered with an expression: itself and the arguments of its calls, those of refused calls left out. -/
inductive Expression.LoweredIn (u : SourceUnit) : Expression → Expression → Prop
  | self {e : Expression} : LoweredIn u e e
  | argument {x a e : Expression} {name : String} {args : List Expression} {span : Span}
      (hc : .call name args span ∈ e.items)
      (hok : name = Lower.printName ∨ ∃ m, Lower.callee u name args.length = .ok m) (ha : a ∈ args)
      (hx : LoweredIn u x a) : LoweredIn u x e

/-- What an item puts on the stack has a property, whatever the numbers are. -/
def Item.Offers (V : Numbering → Value → Prop) : Item → Prop
  | .var id => ∀ n, V n (.var id)
  | .temp id width => ∀ n, V n (.temp id width)
  | .number value => ∀ n, V n (.literal value.toNat.toUInt64)
  | .call .. | .operator _ | .opening | .closing => True

/-- All that an expression puts on the stack has a property, and so for what is lowered with it. -/
def Expression.Offers (u : SourceUnit) (V : Numbering → Value → Prop) (e : Expression) : Prop :=
  ∀ x : Expression, x.LoweredIn u e → ∀ i ∈ x.items, i.Offers V

namespace Lower

variable {u : SourceUnit} {n : Numbering}

/-- One thing that lowering does, with the values that it does it to. -/
inductive Act
  | apply (span : Span) (op : Operator) (stack : List Value)
  /-- The value on top of the stack is that of the expression. -/
  | finish (stack : List Value)
  | print (value : Value)
  | invoke (m : Method) (values : List Value)
  | refuse (d : Diagnostic)
  | leave

namespace Act

def values : Act → List Value
  | .apply _ _ stack => stack
  | .finish stack => stack
  | .print value => [value]
  | .invoke _ values => values
  | .refuse _ => []
  | .leave => []

def perform (u : SourceUnit) : Act → Lower Unit
  | .apply span op stack => do
    let _ ← Lower.apply u span op stack
  | .finish _ => pure ()
  | .print value => emit (.print (value.read u))
  | .invoke m values => do
    let _ ← Lower.invoke u m values
  | .refuse d => note d
  | .leave => emit .returnResult

end Act

def performAll (u : SourceUnit) : List Act → Lower Unit
  | [] => pure ()
  | a :: rest => do
    a.perform u
    performAll u rest

/-! The acts of each part of lowering, from the numbering that it starts with. -/

def runActs (u : SourceUnit) (span : Span) : List Value → List Step → Numbering → List Act
  | stack, [], _ => [.finish stack]
  | stack, .push v :: steps, n => runActs u span (v :: stack) steps n
  | stack, .apply op :: steps, n =>
    let r := apply u span op stack n
    .apply span op stack :: runActs u span r.value steps r.next

mutual

def stepsActs (u : SourceUnit) : List Item → Numbering → List Act
  | [], _ => []
  | item :: rest, n => stepActs u item n ++ stepsActs u rest (step u item n).next

def stepActs (u : SourceUnit) : Item → Numbering → List Act
  | .call name args span, n =>
    if name = printName then argumentsActs u (fun v => [.print v]) args n
    else match callee u name args.length with
      | .error cause => [.refuse ⟨cause, span⟩]
      | .ok m =>
        argumentsActs u (fun _ => []) args n ++ [.invoke m (arguments u (fun _ => pure ()) args n).value]
  | .var _, _ | .temp .., _ | .number _, _ | .operator _, _ | .opening, _ | .closing, _ => []

def argumentsActs (u : SourceUnit) (after : Value → List Act) : List Expression → Numbering → List Act
  | [], _ => []
  | e :: rest, n =>
    let r := expression u e n
    expressionActs u e n ++ (after r.value ++ argumentsActs u after rest (performAll u (after r.value) r.next).next)

def expressionActs (u : SourceUnit) : Expression → Numbering → List Act
  | .mk items span, n =>
    let r := steps u items n
    stepsActs u items n ++ runActs u span [] r.value r.next

end

def statementActs (u : SourceUnit) : Statement → Numbering → List Act
  | .eval e, n => expressionActs u e n
  | .ret none, _ => [.leave]
  | .ret (some e), n => expressionActs u e n ++ [.leave]

def statementsActs (u : SourceUnit) : List Statement → Numbering → List Act
  | [], _ => []
  | st :: rest, n => statementActs u st n ++ statementsActs u rest (statement u st n).next

/-- All that lowering does for the statements of a body. -/
def bodyActs (u : SourceUnit) (b : Body) : List Act :=
  statementsActs u b.statements {}

section Performed

variable {α β γ : Type}

/-- Two lowerings that emit and note the same, whatever their values are. -/
structure Coincide (x : Lowered α) (y : Lowered β) : Prop where
  code : x.code = y.code
  faults : x.faults = y.faults
  next : x.next = y.next

theorem coincide_refl (x : Lowered α) : Coincide x x :=
  ⟨rfl, rfl, rfl⟩

theorem coincide_pure (a : α) (n : Numbering) : Coincide ((pure a : Lower α) n) (performAll u [] n) :=
  ⟨rfl, rfl, rfl⟩

theorem performAll_append (acts acts' : List Act) (n : Numbering) :
    Coincide ((performAll u acts >>= fun _ => performAll u acts') n) (performAll u (acts ++ acts') n) := by
  induction acts generalizing n with
  | nil => exact coincide_refl _
  | cons a acts ih =>
    have hrest := ih (a.perform u n).next
    refine ⟨?_, ?_, hrest.next⟩
    · exact (List.append_assoc ..).trans (congrArg ((a.perform u n).code ++ ·) hrest.code)
    · exact (List.append_assoc ..).trans (congrArg ((a.perform u n).faults ++ ·) hrest.faults)

/-- What comes after some acts is done from the numbers that they leave. -/
theorem Coincide.append {x : Lower α} {f : α → Lower β} {acts acts' : List Act}
    (h : Coincide (x n) (performAll u acts n))
    (h' : Coincide (f (x n).value (x n).next) (performAll u acts' (x n).next)) :
    Coincide ((x >>= f) n) (performAll u (acts ++ acts') n) := by
  have happend := performAll_append (u := u) acts acts' n
  rw [h.next] at h'
  refine ⟨.trans ?_ happend.code, .trans ?_ happend.faults, .trans ?_ happend.next⟩
  · change (x n).code ++ (f (x n).value (x n).next).code = _
    rw [h.code, h.next, h'.code]
    rfl
  · change (x n).faults ++ (f (x n).value (x n).next).faults = _
    rw [h.faults, h.next, h'.faults]
    rfl
  · change (f (x n).value (x n).next).next = _
    rw [h.next, h'.next]
    rfl

theorem Coincide.bind_pure {x : Lower α} {y : Lowered γ} (h : Coincide (x n) y) (f : α → β) :
    Coincide ((x >>= fun a => pure (f a)) n) y :=
  ⟨(List.append_nil _).trans h.code, (List.append_nil _).trans h.faults, h.next⟩

theorem coincide_act {x : Lower α} {a : Act} (h : Coincide (x n) (a.perform u n)) :
    Coincide (x n) (performAll u [a] n) :=
  ⟨h.code.trans (List.append_nil _).symm, h.faults.trans (List.append_nil _).symm, h.next⟩

theorem coincide_apply (span : Span) (op : Operator) (stack : List Value) (n : Numbering) :
    Coincide (apply u span op stack n) ((Act.apply span op stack).perform u n) :=
  ⟨(List.append_nil _).symm, (List.append_nil _).symm, rfl⟩

theorem coincide_invoke (m : Method) (values : List Value) (n : Numbering) :
    Coincide (invoke u m values n) ((Act.invoke m values).perform u n) :=
  ⟨(List.append_nil _).symm, (List.append_nil _).symm, rfl⟩

theorem coincide_runSteps (span : Span) (stack : List Value) (steps : List Step) (n : Numbering) :
    Coincide (runSteps u span stack steps n) (performAll u (runActs u span stack steps n) n) := by
  induction steps generalizing stack n with
  | nil => exact ⟨rfl, rfl, rfl⟩
  | cons s steps ih =>
    cases s with
    | push v => exact ih (v :: stack) n
    | apply op => exact (coincide_act (coincide_apply span op stack n)).append (ih _ _)

/-- What is done at once with an argument: nothing, or it is printed. -/
structure AfterActs (u : SourceUnit) (after : Value → Lower Unit) (acts : Value → List Act) : Prop where
  coincide : ∀ v n, Coincide (after v n) (performAll u (acts v) n)
  acts_eq : ∀ v, acts v = [] ∨ acts v = [.print v]

theorem afterActs_none : AfterActs u (fun _ => pure ()) fun _ => [] :=
  ⟨fun _ => coincide_pure (), fun _ => .inl rfl⟩

theorem afterActs_print : AfterActs u (fun v => emit (.print (v.read u))) fun v => [.print v] :=
  ⟨fun _ _ => ⟨rfl, rfl, rfl⟩, fun _ => .inr rfl⟩

theorem coincide_arguments {after : Value → Lower Unit} {acts : Value → List Act} (hafter : AfterActs u after acts)
    {args : List Expression}
    (hargs : ∀ a ∈ args, ∀ n, Coincide (expression u a n) (performAll u (expressionActs u a n) n)) (n : Numbering) :
    Coincide (arguments u after args n) (performAll u (argumentsActs u acts args n) n) := by
  induction args generalizing n with
  | nil =>
    rw [arguments, argumentsActs]
    exact coincide_pure _ _
  | cons a args ih =>
    obtain ⟨ha, hargs⟩ := List.forall_mem_cons.1 hargs
    rw [arguments, argumentsActs]
    refine (ha n).append ((hafter.coincide _ _).append ?_)
    rw [(hafter.coincide _ _).next]
    exact (ih hargs _).bind_pure _

theorem coincide_step {i : Item} (hi : ∀ name args span, i = .call name args span → ∀ a ∈ args, ∀ n,
    Coincide (expression u a n) (performAll u (expressionActs u a n) n)) (n : Numbering) :
    Coincide (step u i n) (performAll u (stepActs u i n) n) := by
  cases i with
  | call name args span =>
    have hargs := hi name args span rfl
    rw [step, stepActs]
    split_ifs
    · exact (coincide_arguments afterActs_print hargs n).bind_pure _
    · cases callee u name args.length with
      | error cause => exact ⟨rfl, rfl, rfl⟩
      | ok m => exact (coincide_arguments afterActs_none hargs n).append ((coincide_act (coincide_invoke m _ _)).bind_pure _)
  | var | temp | number | operator | opening | closing =>
    rw [step, stepActs]
    exact coincide_pure _ _

theorem coincide_steps {items : List Item} (hitems : ∀ name args span, .call name args span ∈ items → ∀ a ∈ args,
    ∀ n, Coincide (expression u a n) (performAll u (expressionActs u a n) n)) (n : Numbering) :
    Coincide (steps u items n) (performAll u (stepsActs u items n) n) := by
  induction items generalizing n with
  | nil =>
    rw [steps, stepsActs]
    exact coincide_pure _ _
  | cons i items ih =>
    rw [steps, stepsActs]
    refine (coincide_step ?_ n).append ((ih ?_ _).bind_pure _)
    · rintro name args span rfl
      exact hitems name args span List.mem_cons_self
    · exact fun name args span hi => hitems name args span (List.mem_cons_of_mem _ hi)

/-- Lowering an expression is to do its acts. -/
theorem coincide_expression (e : Expression) (n : Numbering) :
    Coincide (expression u e n) (performAll u (expressionActs u e n) n) := by
  induction e using Expression.inductionOn generalizing n with
  | h e ih =>
    cases e with
    | mk items span =>
      rw [expression, expressionActs]
      exact (coincide_steps ih n).append (coincide_runSteps span [] _ _)

theorem next_arguments {after : Value → Lower Unit} {acts : Value → List Act} (hafter : AfterActs u after acts)
    (args : List Expression) (n : Numbering) :
    (arguments u after args n).next = (performAll u (argumentsActs u acts args n) n).next :=
  (coincide_arguments hafter (fun a _ => coincide_expression a) n).next

theorem next_step (i : Item) (n : Numbering) : (step u i n).next = (performAll u (stepActs u i n) n).next :=
  (coincide_step (fun _ _ _ _ a _ => coincide_expression a) n).next

theorem next_steps (items : List Item) (n : Numbering) :
    (steps u items n).next = (performAll u (stepsActs u items n) n).next :=
  (coincide_steps (fun _ _ _ _ a _ => coincide_expression a) n).next

theorem coincide_statement (st : Statement) (n : Numbering) :
    Coincide (statement u st n) (performAll u (statementActs u st n) n) := by
  have hleave (n : Numbering) : Coincide (emit .returnResult n) (performAll u [.leave] n) :=
    coincide_act (coincide_refl _)
  cases st with
  | eval e => exact (coincide_expression e n).bind_pure _
  | ret e =>
    cases e with
    | none => exact hleave n
    | some e => exact (coincide_expression e n).append (hleave _)

theorem coincide_statements (sts : List Statement) (n : Numbering) :
    Coincide (statements u sts n) (performAll u (statementsActs u sts n) n) := by
  induction sts generalizing n with
  | nil => exact coincide_refl _
  | cons st sts ih => exact (coincide_statement st n).append (ih _)

/-- The code of a function: its declarations, what the acts of the body emit, and a return where there is none. -/
theorem code_body (b : Body) : (body u b {}).code =
    [.discard "self", .discard "params"] ++ (if b.groupCount > 0 then [.declareWords .locals b.groupCount] else []) ++
      [.declareResult] ++ (performAll u (bodyActs u b) {}).code ++ (if endsWithReturn b then [] else [.returnResult]) := by
  rw [bodyActs, ← (coincide_statements b.statements {}).code]
  simp only [List.append_assoc]
  rfl

theorem faults_body (b : Body) : (body u b {}).faults = (performAll u (bodyActs u b) {}).faults := by
  rw [bodyActs, ← (coincide_statements b.statements {}).faults]
  exact List.append_nil _

end Performed

section Operators

/-- What an operator finds on top of a stack; a missing value counts as zero. -/
def top (stack : List Value) : Value :=
  stack.headD (.literal 0)

theorem top_mem (stack : List Value) : top stack ∈ stack ∨ top stack = .literal 0 := by
  cases stack with
  | nil => exact .inr rfl
  | cons v rest => exact .inl List.mem_cons_self

/-- The expression that an operator computes at run time. -/
inductive Formula (u : SourceUnit) (stack : List Value) : Operator → C.Expr → Prop
  | complement : Formula u stack .not (.complement ((top stack).read u))
  | cast : Formula u stack .cast ((top stack).read u)
  | arith (op : Arith) (hconst : (top stack.tail).isConst = false ∨ (top stack).isConst = false) :
      Formula u stack (.arith op) (.binary op ((top stack.tail).read u) ((top stack).read u))

/-- The result of an operator: a constant, zero in the place of a fault, or a new temporary. -/
inductive Outcome (u : SourceUnit) (span : Span) (stack : List Value) (op : Operator) : Lower Value → Prop
  | complement {value : UInt64} {width : ℕ} (h : top stack = .const value width) :
      Outcome u span stack op (pure (.const (Constant.complement value width) width))
  | cast (value : UInt64) {width : ℕ} (h : width ≤ u.word.bits) :
      Outcome u span stack op (pure (.const (value &&& Constant.mask width) width))
  | fold (value : UInt64) : Outcome u span stack op (pure (.literal (value &&& Constant.mask u.word.bits)))
  | fault {d : Diagnostic} (h : d.cause ≠ .divisionByZero) : Outcome u span stack op (zeroFor d)
  /-- Constants that the operator has no value for. -/
  | division {a : Arith} {left right : UInt64} {width width' : ℕ} (hop : op = .arith a)
      (hleft : top stack.tail = .const left width) (hright : top stack = .const right width')
      (hfold : Constant.fold? a left right = none) : Outcome u span stack op (zeroFor ⟨.divisionByZero, span⟩)
  | computed (width : ℕ) {e : C.Expr} (he : Formula u stack op e) : Outcome u span stack op (temp u width e)

/-- All that the application of an operator can be. -/
inductive Applied (u : SourceUnit) (span : Span) (stack : List Value) (op : Operator) : Lower (List Value) → Prop
  | result {x : Lower Value} {rest : List Value} (hx : Outcome u span stack op x) (hrest : rest ⊆ stack) :
      Applied u span stack op (do return (← x) :: rest)
  | assign {id : VarId} {rest : List Value} (hid : top stack = .var id) (hrest : rest ⊆ stack) :
      Applied u span stack op (do
        emitAll ((u.var id).write u.word ((top stack.tail).read u))
        return .var id :: rest)

theorem outcome_complement (span : Span) (stack : List Value) :
    Outcome u span stack .not (complement u (top stack)) := by
  have hcomputed : Outcome u span stack .not (temp u ((top stack).width u) (.complement ((top stack).read u))) :=
    .computed _ .complement
  unfold complement
  split
  · rename_i value width h
    exact .complement h
  · exact hcomputed

theorem outcome_cast (span : Span) (width : UInt64) (stack : List Value) :
    Outcome u span stack .cast (cast u span width (top stack)) := by
  unfold cast
  simp only
  split_ifs with hbad
  · exact .fault nofun
  · split
    · exact .cast _ (by omega)
    · exact .computed _ .cast

theorem outcome_arith (span : Span) (op : Arith) (stack : List Value) :
    Outcome u span stack (.arith op) (arith u span op (top stack.tail) (top stack)) := by
  unfold arith
  split
  · rename_i hleft hright
    split
    · exact .fold _
    · rename_i hfold
      exact .division rfl hleft hright hfold
  · rename_i hconst
    refine .computed _ (.arith op ?_)
    cases hl : top stack.tail with
    | const a width =>
      cases hr : top stack with
      | const b width' => exact absurd hr (hconst a width b width' hl)
      | var | temp => exact .inr rfl
    | var | temp => exact .inl rfl

theorem applied_apply (span : Span) (op : Operator) (stack : List Value) :
    Applied u span stack op (apply u span op stack) := by
  have hrest : stack.tail ⊆ stack := List.tail_subset _
  have hrest₂ : stack.tail.tail ⊆ stack := fun v hv => hrest (List.mem_of_mem_tail hv)
  cases op with
  | not => exact .result (outcome_complement span stack) hrest
  | arith a => exact .result (outcome_arith span a stack) hrest₂
  | cast =>
    unfold apply
    simp only
    split
    · exact .result (outcome_cast span _ stack) hrest₂
    · exact .result (.fault nofun) hrest₂
  | assign =>
    unfold apply
    simp only
    split
    · rename_i hid
      exact .assign hid hrest₂
    · exact .result (.fault nofun) hrest₂

theorem Outcome.temps_le {span : Span} {stack : List Value} {op : Operator} {x : Lower Value}
    (hx : Outcome u span stack op x) (n : Numbering) : n.temps ≤ (x n).next.temps := by
  cases hx with
  | computed => exact Nat.le_succ _
  | complement | cast | fold | fault | division => exact le_rfl

theorem temps_le_perform (a : Act) (n : Numbering) : n.temps ≤ (a.perform u n).next.temps := by
  cases a with
  | apply span op stack =>
    change n.temps ≤ (apply u span op stack n).next.temps
    have happlied := applied_apply (u := u) span op stack
    generalize apply u span op stack = y at happlied ⊢
    cases happlied with
    | result hx => exact hx.temps_le n
    | assign => exact le_rfl
  | invoke => exact Nat.le_succ _
  | finish | print | refuse | leave => exact le_rfl

theorem temps_le_performAll (acts : List Act) (n : Numbering) : n.temps ≤ (performAll u acts n).next.temps := by
  induction acts generalizing n with
  | nil => exact le_rfl
  | cons a acts ih => exact (temps_le_perform a n).trans (ih _)

end Operators

section Values

variable {P : Numbering → Act → Prop} {V : Numbering → Value → Prop}

/-- Each act is as `P` says at the numbers that the acts before it leave. -/
def Along (u : SourceUnit) (P : Numbering → Act → Prop) : Numbering → List Act → Prop
  | _, [] => True
  | n, a :: rest => P n a ∧ Along u P (a.perform u n).next rest

theorem along_append (acts acts' : List Act) (n : Numbering) :
    Along u P n (acts ++ acts') ↔ Along u P n acts ∧ Along u P (performAll u acts n).next acts' := by
  induction acts generalizing n with
  | nil => exact (true_and _).symm.to_iff
  | cons a acts ih =>
    rw [List.cons_append, Along, Along, ih, and_assoc]
    rfl

theorem along_singleton {a : Act} : Along u P n [a] ↔ P n a := by
  simp only [Along, and_true]

/-- Acts, each with the numbers that it starts from. -/
def numbered (u : SourceUnit) : Numbering → List Act → List (Numbering × Act)
  | _, [] => []
  | n, a :: rest => (n, a) :: numbered u (a.perform u n).next rest

theorem map_numbered (acts : List Act) (n : Numbering) : (numbered u n acts).map (·.2) = acts := by
  induction acts generalizing n with
  | nil => rfl
  | cons a acts ih => exact congrArg (a :: ·) (ih _)

theorem along_iff {acts : List Act} : Along u P n acts ↔ ∀ p ∈ numbered u n acts, P p.1 p.2 := by
  induction acts generalizing n with
  | nil => exact iff_of_true trivial (List.forall_mem_nil _)
  | cons a acts ih => rw [Along, numbered, List.forall_mem_cons, ih]

theorem code_performAll (acts : List Act) (n : Numbering) :
    (performAll u acts n).code = (numbered u n acts).flatMap fun p => (p.2.perform u p.1).code := by
  induction acts generalizing n with
  | nil => rfl
  | cons a acts ih => exact congrArg ((a.perform u n).code ++ ·) (ih _)

theorem faults_performAll (acts : List Act) (n : Numbering) :
    (performAll u acts n).faults = (numbered u n acts).flatMap fun p => (p.2.perform u p.1).faults := by
  induction acts generalizing n with
  | nil => rfl
  | cons a acts ih => exact congrArg ((a.perform u n).faults ++ ·) (ih _)

theorem exists_mem_numbered {acts : List Act} {a : Act} (ha : a ∈ acts) (n : Numbering) :
    ∃ n', (n', a) ∈ numbered u n acts := by
  rw [← map_numbered (u := u) acts n] at ha
  obtain ⟨⟨n', a⟩, hp, rfl⟩ := List.mem_map.1 ha
  exact ⟨n', hp⟩

theorem mem_of_numbered {acts : List Act} {p : Numbering × Act} (hp : p ∈ numbered u n acts) : p.2 ∈ acts :=
  map_numbered (u := u) acts n ▸ List.mem_map_of_mem hp

theorem length_arguments (after : Value → Lower Unit) (args : List Expression) (n : Numbering) :
    (arguments u after args n).value.length = args.length := by
  induction args generalizing n with
  | nil =>
    rw [arguments]
    rfl
  | cons a args ih =>
    rw [arguments]
    exact congrArg (· + 1) (ih _)

/-- A property of values, given the numbers that come next, that no act destroys. -/
structure Lasting (u : SourceUnit) (V : Numbering → Value → Prop) : Prop where
  mono : ∀ {n n' : Numbering} {v : Value}, n.temps ≤ n'.temps → V n v → V n' v
  temp : ∀ (temps arrays width : ℕ), V ⟨temps + 1, arrays⟩ (.temp temps width)
  complement : ∀ {n : Numbering} {value : UInt64} {width : ℕ}, V n (.const value width) →
    V n (.const (Constant.complement value width) width)
  cast : ∀ (n : Numbering) (value : UInt64) {width : ℕ}, width ≤ u.word.bits →
    V n (.const (value &&& Constant.mask width) width)
  fold : ∀ (n : Numbering) (value : UInt64), V n (.literal (value &&& Constant.mask u.word.bits))

/-- A call, made or refused, is one for which the unit says so. -/
def Act.Called (u : SourceUnit) : Act → Prop
  | .invoke m values => ∃ name, callee u name values.length = .ok m
  | .refuse d => ∃ name count, callee u name count = .error d.cause
  | .apply .. | .finish _ | .print _ | .leave => True

structure Act.Given (u : SourceUnit) (V : Numbering → Value → Prop) (n : Numbering) (a : Act) : Prop where
  values : ∀ v ∈ a.values, V n v
  called : a.Called u

/-- Wherever the lowering of an expression starts, its acts are given values of a property, and its own value
has it too. -/
def Sound (u : SourceUnit) (V : Numbering → Value → Prop) (e : Expression) : Prop :=
  ∀ n, Along u (Act.Given u V) n (expressionActs u e n) ∧ V (expression u e n).next (expression u e n).value

namespace Lasting

variable (hV : Lasting u V)
include hV

theorem zero (n : Numbering) : V n (.literal 0) := by
  have hfold := hV.fold n 0
  rwa [UInt64.zero_and] at hfold

theorem top {stack : List Value} (hst : ∀ v ∈ stack, V n v) : V n (top stack) := by
  rcases top_mem stack with h | h
  · exact hst _ h
  · rw [h]
    exact hV.zero n

theorem outcome {span : Span} {stack : List Value} {op : Operator} {x : Lower Value} (hx : Outcome u span stack op x)
    (hst : ∀ v ∈ stack, V n v) : V (x n).next (x n).value := by
  cases hx with
  | complement h => exact hV.complement (h ▸ hV.top hst)
  | cast value h => exact hV.cast n value h
  | fold value => exact hV.fold n value
  | fault | division => exact hV.zero n
  | computed width he => exact hV.temp _ _ _

/-- An operator leaves a stack of such values. -/
theorem apply (span : Span) (op : Operator) {stack : List Value} (hst : ∀ v ∈ stack, V n v) :
    ∀ v ∈ (Lower.apply u span op stack n).value, V (Lower.apply u span op stack n).next v := by
  have happlied := applied_apply (u := u) span op stack
  generalize Lower.apply u span op stack = y at happlied ⊢
  cases happlied with
  | result hx hrest =>
    exact List.forall_mem_cons.2 ⟨hV.outcome hx hst, fun v hv => hV.mono (hx.temps_le n) (hst v (hrest hv))⟩
  | assign hid hrest => exact List.forall_mem_cons.2 ⟨hid ▸ hV.top hst, fun v hv => hst v (hrest hv)⟩

theorem runSteps (span : Span) {steps : List Step} : ∀ {stack : List Value} {n : Numbering}, (∀ v ∈ stack, V n v) →
    (∀ v, .push v ∈ steps → V n v) → Along u (Act.Given u V) n (runActs u span stack steps n) ∧
      V (Lower.runSteps u span stack steps n).next (Lower.runSteps u span stack steps n).value := by
  induction steps with
  | nil =>
    intro stack n hst _
    exact ⟨along_singleton.2 ⟨hst, trivial⟩, hV.top hst⟩
  | cons s steps ih =>
    intro stack n hst hsteps
    have hrest : ∀ v, .push v ∈ steps → V n v := fun v hv => hsteps v (List.mem_cons_of_mem _ hv)
    cases s with
    | push v => exact ih (List.forall_mem_cons.2 ⟨hsteps v List.mem_cons_self, hst⟩) hrest
    | apply op =>
      have hle : n.temps ≤ (Lower.apply u span op stack n).next.temps :=
        temps_le_perform (.apply span op stack) n
      obtain ⟨hacts, hvalue⟩ := ih (hV.apply span op hst) fun v hv => hV.mono hle (hrest v hv)
      exact ⟨⟨⟨hst, trivial⟩, hacts⟩, hvalue⟩

theorem arguments {after : Value → Lower Unit} {acts : Value → List Act} (hafter : AfterActs u after acts)
    {args : List Expression} (hargs : ∀ a ∈ args, Sound u V a) (n : Numbering) :
    Along u (Act.Given u V) n (argumentsActs u acts args n) ∧
      ∀ v ∈ (Lower.arguments u after args n).value, V (Lower.arguments u after args n).next v := by
  induction args generalizing n with
  | nil =>
    rw [argumentsActs, Lower.arguments]
    exact ⟨trivial, List.forall_mem_nil _⟩
  | cons a args ih =>
    obtain ⟨ha, hargs⟩ := List.forall_mem_cons.1 hargs
    obtain ⟨hacts, hvalue⟩ := ha n
    have hprint : Along u (Act.Given u V) (expression u a n).next (acts (expression u a n).value) := by
      rcases hafter.acts_eq (expression u a n).value with h | h
      · rw [h]
        trivial
      · rw [h]
        exact along_singleton.2 ⟨List.forall_mem_singleton.2 hvalue, trivial⟩
    have hnext := (hafter.coincide (expression u a n).value (expression u a n).next).next
    obtain ⟨hrest, hvalues⟩ := ih hargs (after (expression u a n).value (expression u a n).next).next
    -- The value of this argument is used after all the others are lowered.
    have hle : (expression u a n).next.temps ≤
        (Lower.arguments u after args (after (expression u a n).value (expression u a n).next).next).next.temps := by
      rw [next_arguments hafter, hnext]
      exact (temps_le_performAll _ _).trans (temps_le_performAll _ _)
    rw [argumentsActs, Lower.arguments]
    refine ⟨(along_append ..).2 ⟨hacts, ?_⟩, List.forall_mem_cons.2 ⟨hV.mono hle hvalue, hvalues⟩⟩
    rw [← (coincide_expression a n).next]
    exact (along_append ..).2 ⟨hprint, hnext ▸ hrest⟩

theorem step {i : Item} (hoffers : i.Offers V) (hargs : ∀ name args span, i = .call name args span →
    (name = printName ∨ ∃ m, callee u name args.length = .ok m) → ∀ a ∈ args, Sound u V a) (n : Numbering) :
    Along u (Act.Given u V) n (stepActs u i n) ∧
      ∀ v, (Lower.step u i n).value = some (.push v) → V (Lower.step u i n).next v := by
  cases i with
  | call name args span =>
    have hargs := hargs name args span rfl
    rw [stepActs, Lower.step]
    split_ifs with hprint
    · obtain ⟨hacts, -⟩ := hV.arguments afterActs_print (hargs (.inl hprint)) n
      refine ⟨hacts, ?_⟩
      rintro v ⟨⟩
      exact hV.zero _
    · cases hc : callee u name args.length with
      | error cause =>
        refine ⟨along_singleton.2 ⟨List.forall_mem_nil _, name, args.length, hc⟩, ?_⟩
        rintro v ⟨⟩
        exact hV.zero _
      | ok m =>
        obtain ⟨hacts, hvalues⟩ := hV.arguments afterActs_none (hargs (.inr ⟨m, hc⟩)) n
        refine ⟨(along_append ..).2 ⟨hacts, along_singleton.2 ⟨?_, name, ?_⟩⟩, ?_⟩
        · rw [← next_arguments afterActs_none]
          exact hvalues
        · rw [length_arguments]
          exact hc
        · rintro v ⟨⟩
          exact hV.temp _ _ _
  | var | temp | number =>
    rw [stepActs, Lower.step]
    refine ⟨trivial, ?_⟩
    rintro v ⟨⟩
    exact hoffers n
  | operator | opening | closing =>
    rw [stepActs, Lower.step]
    exact ⟨trivial, fun v hv => nomatch hv⟩

theorem steps {items : List Item} (hoffers : ∀ i ∈ items, i.Offers V)
    (hargs : ∀ name args span, .call name args span ∈ items →
      (name = printName ∨ ∃ m, callee u name args.length = .ok m) → ∀ a ∈ args, Sound u V a) (n : Numbering) :
    Along u (Act.Given u V) n (stepsActs u items n) ∧
      ∀ v, .push v ∈ (Lower.steps u items n).value → V (Lower.steps u items n).next v := by
  induction items generalizing n with
  | nil =>
    rw [stepsActs, Lower.steps]
    exact ⟨trivial, fun v hv => absurd hv List.not_mem_nil⟩
  | cons i items ih =>
    obtain ⟨hi, hitems⟩ := List.forall_mem_cons.1 hoffers
    have hfirst := hV.step hi (fun name args span heq => hargs name args span (heq ▸ List.mem_cons_self)) n
    have hrest := ih hitems (fun name args span hi => hargs name args span (List.mem_cons_of_mem _ hi))
      (Lower.step u i n).next
    have hle : (Lower.step u i n).next.temps ≤ (Lower.steps u items (Lower.step u i n).next).next.temps := by
      rw [next_steps]
      exact temps_le_performAll _ _
    rw [stepsActs, Lower.steps]
    refine ⟨(along_append ..).2 ⟨hfirst.1, next_step i n ▸ hrest.1⟩, fun v hv => ?_⟩
    rcases List.mem_append.1 hv with hv | hv
    · exact hV.mono hle (hfirst.2 v (Option.mem_toList.1 hv))
    · exact hrest.2 v hv

/-- If all that an expression puts on the stack has the property, then so has all that its acts are given. -/
theorem expression {e : Expression} (hoffers : e.Offers u V) : Sound u V e := by
  induction e using Expression.inductionOn with
  | h e ih =>
    cases e with
    | mk items span =>
      intro n
      obtain ⟨hacts, hpush⟩ := hV.steps (hoffers _ .self) (fun name args span hc hok a ha =>
        ih name args span hc a ha fun x hx => hoffers x (.argument hc hok ha hx)) n
      obtain ⟨hrun, hvalue⟩ := hV.runSteps span (List.forall_mem_nil _) hpush
      rw [expressionActs, Lower.expression]
      exact ⟨(along_append ..).2 ⟨hacts, next_steps items n ▸ hrun⟩, hvalue⟩

theorem statement {st : Statement} (hoffers : ∀ e, st.expression? = some e → e.Offers u V) (n : Numbering) :
    Along u (Act.Given u V) n (statementActs u st n) := by
  have hleave (n : Numbering) : Along u (Act.Given u V) n [.leave] :=
    along_singleton.2 ⟨List.forall_mem_nil _, trivial⟩
  cases st with
  | eval e => exact (hV.expression (hoffers e rfl) n).1
  | ret e =>
    cases e with
    | none => exact hleave n
    | some e => exact (along_append ..).2 ⟨(hV.expression (hoffers e rfl) n).1, hleave _⟩

theorem statements {sts : List Statement}
    (hoffers : ∀ st ∈ sts, ∀ e, st.expression? = some e → e.Offers u V) (n : Numbering) :
    Along u (Act.Given u V) n (statementsActs u sts n) := by
  induction sts generalizing n with
  | nil => trivial
  | cons st sts ih =>
    obtain ⟨hst, hsts⟩ := List.forall_mem_cons.1 hoffers
    refine (along_append ..).2 ⟨hV.statement hst n, ?_⟩
    rw [← (coincide_statement st n).next]
    exact ih hsts _

end Lasting

end Values

end Lower

section Methods

variable {u : SourceUnit} {scope : List VarId}

theorem Expression.LoweredIn.plain {x e : Expression} (hx : x.LoweredIn u e) :
    (∀ i ∈ e.items, i.Plain scope ∨ i.isAssign) → ∀ i ∈ x.items, i.Plain scope ∨ i.isAssign := by
  induction hx with
  | self => exact id
  | argument hc _ ha _ ih =>
    intro hplain
    cases (hplain _ hc).resolve_right Bool.false_ne_true with
    | call hargs => exact ih fun i hi => .inl (hargs _ ha i hi)

/-- The statements of a method offer variables of the method and the numbers that are written in them. -/
theorem Method.WellFormed.offers {V : Numbering → Value → Prop} {m : Method} (hm : m.WellFormed u.word u.vars)
    {b : Body} (hb : m.body = some b) (hvar : ∀ id ∈ m.scope, ∀ n, V n (.var id)) {st : Statement}
    (hst : st ∈ b.statements) {e : Expression} (he : st.expression? = some e)
    (hnumber : ∀ x : Expression, x.LoweredIn u e → ∀ k : ℕ, .number k ∈ x.items → ∀ n, V n (.literal k.toUInt64)) :
    e.Offers u V := by
  intro x hx i hi
  rcases hx.plain (fun i hi => (hm.statements b hb st hst e he).item hi) i hi with h | h
  · cases h with
    | var hid => exact hvar _ hid
    | number => exact hnumber x hx _ hi
    | operator | call | opening | closing => trivial
  · cases i with
    | operator => trivial
    | var | temp | number | call | opening | closing => cases h

end Methods

end Bitpack
