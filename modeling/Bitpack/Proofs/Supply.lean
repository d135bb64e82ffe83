import Mathlib
import Bitpack.Lowering.Unit
import Bitpack.Proofs.Reading

/-! Lowering never runs out of values. Whatever is wrong with a text, each expression that was read from it
is a valid postfix sequence over the variables of its own method; so an operator finds its operands on
the stack, an assignment finds a variable on top of it, and one value is left at the end. -/

namespace Bitpack

/-- The expression itself and the arguments of its calls, at any depth. -/
inductive Expression.Inside : Expression → Expression → Prop
  | self {e : Expression} : Inside e e
  | argument {x a e : Expression} {name : String} {args : List Expression} {span : Span}
      (hc : .call name args span ∈ e.items) (ha : a ∈ args) (hx : Inside x a) : Inside x e

/-- A postfix sequence that can be evaluated over the variables of a scope. -/
structure Expression.Valid (scope : List VarId) (x : Expression) : Prop where
  depth : stackDepth 0 x.items = some 1
  noParen : ∀ i ∈ x.items, i.isParen = false
  noTemp : ∀ id width, .temp id width ∉ x.items
  assigns : ∃ value targets, x.items = value ++ assignAll targets ∧ ∀ i ∈ value, i.isAssign = false
  inScope : ∀ id, .var id ∈ x.items → id ∈ scope

theorem Item.Plain.isAssign_eq {scope : List VarId} {i : Item} (h : i.Plain scope) : i.isAssign = false := by
  cases h with
  | @operator op hop =>
    cases op with
    | assign => exact absurd rfl hop
    | arith | not | cast => rfl
  | var | number | call | opening | closing => rfl

theorem Expression.Evaluable.valid {scope : List VarId} {e x : Expression} (hx : x.Inside e) :
    e.Evaluable → e.Scoped scope → x.Valid scope := by
  induction hx with
  | self =>
    intro he hscoped
    have hitem : ∀ i ∈ x.items, i.Plain scope ∨ i.isAssign := fun i hi => hscoped.item hi
    obtain ⟨value, targets, hitems, hvalue, -⟩ := hscoped
    cases he with
    | mk depth noParen _ =>
      refine ⟨depth, noParen, ?_, ⟨value, targets, hitems, fun i hi => (hvalue i hi).isAssign_eq⟩, ?_⟩
      · intro id width hi
        rcases hitem _ hi with h | h <;> cases h
      · intro id hi
        rcases hitem _ hi with h | h
        · cases h with
          | var hid => exact hid
        · cases h
  | argument hc ha _ ih =>
    intro he hscoped
    cases he with
    | mk _ _ args =>
      refine ih (args _ _ _ hc _ ha) ?_
      rcases hscoped.item hc with h | h
      · cases h with
        | call hplain => exact ⟨_, [], (List.append_nil _).symm, hplain _ ha, List.forall_mem_nil _⟩
      · cases h

namespace Lower

variable {u : SourceUnit} {span : Span}

/-- Every operator that the steps apply finds its operands on the stack, every assignment finds a
variable on top of it, and one value is left at the end. -/
def Supplied (u : SourceUnit) (span : Span) : List Value → List Step → Numbering → Prop
  | stack, [], _ => stack.length = 1
  | stack, .push v :: steps, n => Supplied u span (v :: stack) steps n
  | stack, .apply op :: steps, n =>
    (Item.operator op).arity ≤ stack.length ∧ (op = .assign → ∃ id rest, stack = .var id :: rest) ∧
      Supplied u span (apply u span op stack n).value steps (apply u span op stack n).next

/-- The step of an item that is no parenthesis. -/
def StepOf : Item → Step → Prop
  | .operator op, s => s = .apply op
  | .var id, s => s = .push (.var id)
  | _, s => ∃ v, s = .push v

theorem step_stepOf {i : Item} (hi : i.isParen = false) (n : Numbering) :
    ∃ s, (step u i n).value = some s ∧ StepOf i s := by
  cases i with
  | opening => cases hi
  | closing => cases hi
  | var id => exact ⟨_, rfl, rfl⟩
  | temp id width => exact ⟨_, rfl, _, rfl⟩
  | number value => exact ⟨_, rfl, _, rfl⟩
  | operator op => exact ⟨_, rfl, rfl⟩
  | call name args span =>
    rw [step]
    split_ifs
    · exact ⟨_, rfl, _, rfl⟩
    · cases callee u name args.length with
      | error cause => exact ⟨_, rfl, _, rfl⟩
      | ok m => exact ⟨_, rfl, _, rfl⟩

theorem steps_stepOf {items : List Item} (hitems : ∀ i ∈ items, i.isParen = false) (n : Numbering) :
    List.Forall₂ StepOf items (steps u items n).value := by
  induction items generalizing n with
  | nil => exact .nil
  | cons i items ih =>
    obtain ⟨hi, hrest⟩ := List.forall_mem_cons.1 hitems
    obtain ⟨s, hs, hstep⟩ := step_stepOf hi n
    have hvalue : (steps u (i :: items) n).value = s :: (steps u items (step u i n).next).value := by
      rw [steps]
      exact congrArg (fun o => Option.toList o ++ (steps u items (step u i n).next).value) hs
    rw [hvalue]
    exact .cons hstep (ih hrest _)

theorem length_apply (op : Operator) {stack : List Value} (h : (Item.operator op).arity ≤ stack.length)
    (n : Numbering) : (apply u span op stack n).value.length = stack.length - (Item.operator op).arity + 1 := by
  have htail : stack.tail.tail.length = stack.length - 2 := by simp; omega
  cases op with
  | not => exact congrArg (· + 1) List.length_tail
  | arith a => exact congrArg (· + 1) htail
  | assign =>
    simp only [apply]
    cases stack.headD (.literal 0) <;> exact congrArg (· + 1) htail
  | cast =>
    simp only [apply]
    cases stack.tail.headD (.literal 0) <;> exact congrArg (· + 1) htail

/-- Items without assignments find what they need as long as their depths say so. -/
theorem supplied_append {is : List Item} {ss rest : List Step} {stack : List Value} {k : ℕ}
    (hss : List.Forall₂ StepOf is ss) (hassign : ∀ i ∈ is, i.isAssign = false)
    (hdepth : stackDepth stack.length is = some k)
    (hrest : ∀ stack' n', stack'.length = k → Supplied u span stack' rest n') (n : Numbering) :
    Supplied u span stack (ss ++ rest) n := by
  induction hss generalizing stack n with
  | nil => exact hrest stack n (by simpa [stackDepth] using hdepth)
  | @cons i s is ss hs _ ih =>
    obtain ⟨hi, hothers⟩ := List.forall_mem_cons.1 hassign
    have hpush : ∀ v, s = .push v → i.arity = 0 → Supplied u span stack (s :: ss ++ rest) n := by
      rintro v rfl harity
      rw [stackDepth, harity, if_pos (Nat.zero_le _)] at hdepth
      exact @ih (v :: stack) hothers hdepth n
    cases i with
    | operator op =>
      obtain rfl : s = .apply op := hs
      rw [stackDepth] at hdepth
      split_ifs at hdepth with harity
      refine ⟨harity, ?_, ih hothers ?_ _⟩
      · rintro rfl
        cases hi
      · rw [length_apply op harity]
        exact hdepth
    | var id => exact hpush _ hs rfl
    | temp _ _ => exact hpush _ hs.choose_spec rfl
    | number _ => exact hpush _ hs.choose_spec rfl
    | call _ _ _ => exact hpush _ hs.choose_spec rfl
    | opening => exact hpush _ hs.choose_spec rfl
    | closing => exact hpush _ hs.choose_spec rfl

theorem supplied_assignAll {targets : List VarId} {ss : List Step}
    (hss : List.Forall₂ StepOf (assignAll targets) ss) {stack : List Value} (hstack : stack.length = 1)
    (n : Numbering) : Supplied u span stack ss n := by
  induction targets generalizing stack ss n with
  | nil =>
    cases hss
    exact hstack
  | cons id targets ih =>
    cases hss with
    | cons hvar hss =>
      cases hss with
      | cons hop hss =>
        obtain rfl := hvar
        obtain rfl := hop
        have hlen : (Item.operator .assign).arity ≤ (Value.var id :: stack).length := by
          simp [Item.arity, Operator.isPrefix, hstack]
        refine ⟨hlen, fun _ => ⟨id, stack, rfl⟩, ih hss ?_ _⟩
        rw [length_apply _ hlen]
        simp [Item.arity, Operator.isPrefix, hstack]

end Lower

theorem eq_one_of_stackDepth_assignAll {k : ℕ} {targets : List VarId}
    (h : stackDepth k (assignAll targets) = some 1) : k = 1 := by
  induction targets with
  | nil => simpa [assignAll, stackDepth] using h
  | cons id targets ih =>
    change (if 2 ≤ k + 1 then stackDepth (k + 1 - 2 + 1) (assignAll targets) else none) = some 1 at h
    split_ifs at h with hk
    exact ih (by rwa [show k + 1 - 2 + 1 = k by omega] at h)

theorem Expression.Valid.supplied {scope : List VarId} {x : Expression} (h : x.Valid scope) (u : SourceUnit)
    (n : Numbering) :
    Lower.Supplied u x.span [] (Lower.steps u x.items n).value (Lower.steps u x.items n).next := by
  obtain ⟨value, targets, hitems, hvalue⟩ := h.assigns
  have hsteps := Lower.steps_stepOf (u := u) h.noParen n
  have hdepth := h.depth
  rw [hitems, stackDepth_append, Option.bind_eq_some_iff] at hdepth
  obtain ⟨k, hk, hone⟩ := hdepth
  obtain rfl := eq_one_of_stackDepth_assignAll hone
  generalize (Lower.steps u x.items n).value = ss at hsteps ⊢
  rw [hitems] at hsteps
  have hvalues := List.forall₂_take value.length hsteps
  have htargets := List.forall₂_drop value.length hsteps
  rw [List.take_left] at hvalues
  rw [List.drop_left] at htargets
  rw [← List.take_append_drop value.length ss]
  have hempty : stackDepth ([] : List Value).length value = some 1 := hk
  exact Lower.supplied_append hvalues hvalue hempty
    (fun _ n' hstack => Lower.supplied_assignAll htargets hstack n') _

/-! An assignment that finds a variable is not at fault, and no other part of lowering reports one. -/

namespace Lower

variable {α β : Type} {u : SourceUnit} {span : Span} {n : Numbering}

/-- No assignment is found to have another target than a variable. -/
def FindsTargets (x : Lower α) (n : Numbering) : Prop :=
  ∀ d ∈ (x n).faults, d.cause ≠ .invalidAssignmentTarget

theorem findsTargets_of_nil {x : Lower α} (h : (x n).faults = []) : x.FindsTargets n := by
  rw [FindsTargets, h]
  exact List.forall_mem_nil _

theorem FindsTargets.bind {x : Lower α} {f : α → Lower β} (hx : x.FindsTargets n)
    (hf : (f (x n).value).FindsTargets (x n).next) : (x >>= f).FindsTargets n :=
  List.forall_mem_append.2 ⟨hx, hf⟩

theorem findsTargets_note {d : Diagnostic} (h : d.cause ≠ .invalidAssignmentTarget) : (note d).FindsTargets n :=
  List.forall_mem_cons.2 ⟨h, List.forall_mem_nil _⟩

theorem findsTargets_zeroFor {d : Diagnostic} (h : d.cause ≠ .invalidAssignmentTarget) :
    (zeroFor d).FindsTargets n :=
  (findsTargets_note h).bind (findsTargets_of_nil rfl)

theorem findsTargets_complement (v : Value) : (complement u v).FindsTargets n := by
  cases v <;> exact findsTargets_of_nil rfl

theorem findsTargets_cast (width : UInt64) (v : Value) : (cast u span width v).FindsTargets n := by
  unfold cast
  simp only
  split_ifs
  · exact findsTargets_zeroFor (by simp)
  · cases v <;> exact findsTargets_of_nil rfl

theorem findsTargets_arith (op : Arith) (left right : Value) : (arith u span op left right).FindsTargets n := by
  unfold arith
  split
  · split
    · exact findsTargets_of_nil rfl
    · exact findsTargets_zeroFor (by simp)
  · exact findsTargets_of_nil rfl

theorem findsTargets_apply {op : Operator} {stack : List Value}
    (h : op = .assign → ∃ id rest, stack = .var id :: rest) : (apply u span op stack).FindsTargets n := by
  cases op with
  | not => exact (findsTargets_complement _).bind (findsTargets_of_nil rfl)
  | arith a => exact (findsTargets_arith a _ _).bind (findsTargets_of_nil rfl)
  | assign =>
    obtain ⟨id, rest, rfl⟩ := h rfl
    exact findsTargets_of_nil rfl
  | cast =>
    unfold apply
    simp only
    split
    · exact (findsTargets_cast _ _).bind (findsTargets_of_nil rfl)
    · exact (findsTargets_zeroFor (by simp)).bind (findsTargets_of_nil rfl)

theorem Supplied.findsTargets {steps : List Step} : ∀ {stack : List Value} {n : Numbering},
    Supplied u span stack steps n → (runSteps u span stack steps).FindsTargets n := by
  induction steps with
  | nil =>
    intro stack n _
    exact findsTargets_of_nil rfl
  | cons step steps ih =>
    intro stack n h
    cases step with
    | push v => exact @ih (v :: stack) n h
    | apply op =>
      obtain ⟨-, htarget, hrest⟩ := h
      exact (findsTargets_apply htarget).bind (ih hrest)

theorem findsTargets_arguments {after : Value → Lower Unit} (hafter : ∀ v n, (after v n).faults = [])
    {args : List Expression} (hargs : ∀ a ∈ args, ∀ n, (expression u a).FindsTargets n) (n : Numbering) :
    (arguments u after args).FindsTargets n := by
  induction args generalizing n with
  | nil =>
    rw [arguments]
    exact findsTargets_of_nil rfl
  | cons a args ih =>
    obtain ⟨ha, hargs⟩ := List.forall_mem_cons.1 hargs
    rw [arguments]
    refine (ha n).bind ((findsTargets_of_nil (hafter _ _)).bind ((ih hargs _).bind (findsTargets_of_nil rfl)))

theorem callee_cause {name : String} {args : ℕ} {cause : Cause} (h : callee u name args = .error cause) :
    cause ≠ .invalidAssignmentTarget := by
  unfold callee at h
  split at h
  · cases h
    simp
  · split_ifs at h <;> cases h <;> simp

theorem findsTargets_step {i : Item} (hi : ∀ name args span, i = .call name args span →
    ∀ a ∈ args, ∀ n, (expression u a).FindsTargets n) (n : Numbering) : (step u i).FindsTargets n := by
  cases i with
  | call name args span =>
    have hargs := hi name args span rfl
    rw [step]
    split_ifs
    · exact (findsTargets_arguments (fun _ _ => rfl) hargs n).bind (findsTargets_of_nil rfl)
    · split
      · rename_i cause hcause
        exact (findsTargets_note (callee_cause hcause)).bind (findsTargets_of_nil rfl)
      · exact (findsTargets_arguments (fun _ _ => rfl) hargs n).bind (findsTargets_of_nil rfl)
  | _ =>
    rw [step]
    exact findsTargets_of_nil rfl

theorem findsTargets_steps {items : List Item} (hitems : ∀ name args span, .call name args span ∈ items →
    ∀ a ∈ args, ∀ n, (expression u a).FindsTargets n) (n : Numbering) : (steps u items).FindsTargets n := by
  induction items generalizing n with
  | nil =>
    rw [steps]
    exact findsTargets_of_nil rfl
  | cons i items ih =>
    rw [steps]
    refine (findsTargets_step ?_ n).bind ((ih ?_ _).bind (findsTargets_of_nil rfl))
    · rintro name args span rfl
      exact hitems name args span List.mem_cons_self
    · exact fun name args span hi => hitems name args span (List.mem_cons_of_mem _ hi)

theorem findsTargets_expression {scope : List VarId} {e : Expression} (he : e.Evaluable) :
    (∀ x : Expression, x.Inside e → x.Valid scope) → ∀ n, (expression u e).FindsTargets n := by
  induction he with
  | @mk items span _ _ _ ih =>
    intro hvalid n
    rw [expression]
    refine (findsTargets_steps ?_ n).bind ((hvalid _ .self).supplied u n).findsTargets
    exact fun name args span hc a ha => ih name args span hc a ha fun x hx => hvalid x (.argument hc ha hx)

theorem findsTargets_statements {scope : List VarId} {sts : List Statement}
    (hsts : ∀ st ∈ sts, ∀ e, st.expression? = some e → e.Evaluable ∧ ∀ x : Expression, x.Inside e → x.Valid scope)
    (n : Numbering) : (statements u sts).FindsTargets n := by
  induction sts generalizing n with
  | nil => exact findsTargets_of_nil rfl
  | cons st sts ih =>
    obtain ⟨hst, hsts⟩ := List.forall_mem_cons.1 hsts
    have hexpression : ∀ e, st.expression? = some e → ∀ n, (expression u e).FindsTargets n :=
      fun e he => findsTargets_expression (hst e he).1 (hst e he).2
    refine FindsTargets.bind ?_ (ih hsts _)
    cases st with
    | eval e => exact (hexpression e rfl n).bind (findsTargets_of_nil rfl)
    | ret e =>
      cases e with
      | none => exact findsTargets_of_nil rfl
      | some e => exact (hexpression e rfl n).bind (findsTargets_of_nil rfl)

end Lower

section Units

variable {u : SourceUnit}

/-- The variables of a method, and their names, can be told apart. -/
structure Method.Consistent (u : SourceUnit) (m : Method) : Prop where
  valid : ∀ id ∈ m.scope, id < u.vars.size ∧ 0 < (u.var id).width
  nodup : m.scope.Nodup
  result : (u.var m.result).storage = .result ∧ (u.var m.result).name = m.name
  params : ∀ id ∈ m.params, (u.var id).storage = .params
  param_names : (m.params.map fun id => (u.var id).name).Nodup
  locals : ∀ b, m.body = some b → ∀ l ∈ b.locals, (u.var l.2).storage = .locals ∧ (u.var l.2).name = l.1
  local_names : ∀ b, m.body = some b → (b.locals.map (·.1)).Nodup ∧
    ∀ l ∈ b.locals, l.1 ≠ m.name ∧ ∀ id ∈ m.params, (u.var id).name ≠ l.1

/-- Lowering takes each item of an expression as a step, and every step finds what it needs. -/
structure Expression.Lowers (u : SourceUnit) (x : Expression) (n : Numbering) : Prop where
  steps : List.Forall₂ Lower.StepOf x.items (Lower.steps u x.items n).value
  supplied : Lower.Supplied u x.span [] (Lower.steps u x.items n).value (Lower.steps u x.items n).next

theorem Method.WellFormed.width_pos {m : Method} (h : m.WellFormed u.word u.vars) {id : VarId} (hid : id ∈ m.scope) :
    0 < (u.var id).width := by
  unfold Method.scope at hid
  rcases List.mem_append.1 hid with hid | hid
  · rcases List.mem_cons.1 hid with rfl | hid
    · exact h.result_pos
    · exact h.params.width_pos id hid
  · cases hb : m.body with
    | none => rw [hb] at hid; cases hid
    | some b => rw [hb] at hid; exact (h.locals b hb).width_pos id hid

theorem Method.WellFormed.consistent {m : Method} (h : m.WellFormed u.word u.vars) : m.Consistent u where
  valid := fun _ hid => ⟨h.scope_valid hid, h.width_pos hid⟩
  nodup := h.nodup
  result := ⟨h.result_storage, h.result_name⟩
  params := h.params.storage_eq
  param_names := h.param_names
  locals := fun b hb l hl =>
    ⟨(h.locals b hb).storage_eq l.2 (List.mem_map.2 ⟨l, hl, rfl⟩), (h.local_name b hb l hl).1⟩
  local_names := fun b hb => ⟨h.local_names b hb, fun l hl => (h.local_name b hb l hl).2⟩

theorem Method.WellFormed.expression_valid {m : Method} (h : m.WellFormed u.word u.vars) {b : Body}
    (hb : m.body = some b) {st : Statement} (hst : st ∈ b.statements) {e x : Expression}
    (he : st.expression? = some e) (hx : x.Inside e) : x.Valid m.scope :=
  (h.evaluable b hb st hst e he).valid hx (h.statements b hb st hst e he)

theorem SourceUnit.WellFormed.findsTargets (hu : u.WellFormed) :
    ∀ d ∈ u.lower.2, d.cause ≠ .invalidAssignmentTarget := by
  intro d hd
  obtain ⟨f, hf, hd⟩ := List.mem_flatMap.1 hd
  obtain ⟨m, hm, hmf⟩ := List.mem_filterMap.1 hf
  obtain ⟨b, hb, rfl⟩ := Option.map_eq_some_iff.1 hmf
  have hm := hu.methods m (Array.mem_toList_iff.1 (List.mem_of_mem_filter hm))
  have hsts : ∀ st ∈ b.statements, ∀ e, st.expression? = some e →
      e.Evaluable ∧ ∀ x : Expression, x.Inside e → x.Valid m.scope :=
    fun st hst e he => ⟨hm.evaluable b hb st hst e he, fun x hx => hm.expression_valid hb hst he hx⟩
  have hbody : (Lower.body u b).FindsTargets {} :=
    .bind (Lower.findsTargets_of_nil rfl) (.bind (Lower.findsTargets_of_nil rfl)
      (.bind (Lower.findsTargets_of_nil rfl) (.bind (Lower.findsTargets_statements hsts _)
        (Lower.findsTargets_of_nil rfl))))
  exact hbody d hd

/-- Whatever is wrong with a text, in its unit each method has variables of its own with names that
differ, and each of its expressions, at any depth of calls, is a postfix sequence over these that lowering
can evaluate: no operand is missing, nothing is left over, and no target of an assignment is anything
but a variable. -/
theorem read_methods_consistent (w : Word) (src : String) {u : SourceUnit} (hu : (SourceUnit.ofText w src).1 = u) :
    (∀ m ∈ u.methods, m.Consistent u ∧ ∀ b, m.body = some b → ∀ st ∈ b.statements, ∀ e, st.expression? = some e →
      ∀ x : Expression, x.Inside e → x.Valid m.scope ∧ ∀ n, x.Lowers u n) ∧
    (u.methods.toList.Pairwise fun m m' => m.scope.Disjoint m'.scope) ∧
    ∀ d ∈ u.lower.2, d.cause ≠ .invalidAssignmentTarget := by
  subst hu
  have hwf := (SourceUnit.ofText_wellFormed w src).1
  refine ⟨fun m hm => ⟨(hwf.methods m hm).consistent, ?_⟩, hwf.disjoint, hwf.findsTargets⟩
  intro b hb st hst e he x hx
  have hvalid := (hwf.methods m hm).expression_valid hb hst he hx
  exact ⟨hvalid, fun n => ⟨Lower.steps_stepOf hvalid.noParen n, hvalid.supplied _ n⟩⟩

/-- An argument of a call, in a unit with an undeclared name and a method that is defined twice. -/
theorem read_methods_consistent_of_faulty :
    ∃ (u : SourceUnit × List Diagnostic) (m : Method) (e x : Expression),
      SourceUnit.ofText .w32 "object 8 A;8 f(8 p){8 x=y;f=x=f(~p*(2+p));}8 f(){;}" = u ∧ u.2.length = 2 ∧
      m ∈ u.1.methods ∧ e.items.length = 5 ∧ x.items.length = 6 ∧ x.Inside e ∧
      m.Consistent u.1 ∧ x.Valid m.scope ∧ ∀ n, x.Lowers u.1 n := by
  let u := SourceUnit.ofText .w32 "object 8 A;8 f(8 p){8 x=y;f=x=f(~p*(2+p));}8 f(){;}"
  have hcall : (u.1.methods[0]?.bind fun m => m.body.bind fun b => b.statements[0]?.bind fun st =>
      st.expression?.bind fun e => e.items[0]?.bind fun
        | .call _ args _ => args[0]?.map fun x =>
          decide (u.2.length = 2 ∧ e.items.length = 5 ∧ x.items.length = 6)
        | .var _ | .temp .. | .number _ | .operator _ | .opening | .closing => none) = some true := by
    decide +kernel
  obtain ⟨m, hm, hcall⟩ := Option.bind_eq_some_iff.1 hcall
  obtain ⟨b, hb, hcall⟩ := Option.bind_eq_some_iff.1 hcall
  obtain ⟨st, hst, hcall⟩ := Option.bind_eq_some_iff.1 hcall
  obtain ⟨e, he, hcall⟩ := Option.bind_eq_some_iff.1 hcall
  obtain ⟨i, hi, hcall⟩ := Option.bind_eq_some_iff.1 hcall
  cases i with
  | call name args span =>
    obtain ⟨x, harg, hlengths⟩ := Option.map_eq_some_iff.1 hcall
    obtain ⟨hfaults, hitems, hargument⟩ := of_decide_eq_true hlengths
    have hm' : m ∈ u.1.methods := Array.mem_of_getElem? hm
    have hx : x.Inside e := .argument (List.mem_of_getElem? hi) (List.mem_of_getElem? harg) .self
    obtain ⟨hmethods, -, -⟩ := read_methods_consistent .w32 _ rfl
    obtain ⟨hconsistent, hexpressions⟩ := hmethods m hm'
    obtain ⟨hvalid, hlowers⟩ := hexpressions b hb st (List.mem_of_getElem? hst) e he x hx
    exact ⟨u, m, e, x, rfl, hfaults, hm', hitems, hargument, hx, hconsistent, hvalid, hlowers⟩
  | var | temp | number | operator | opening | closing => cases hcall

end Units
end Bitpack
