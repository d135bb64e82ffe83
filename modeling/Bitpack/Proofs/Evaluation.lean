import Mathlib
import Bitpack.Proofs.Calls
import Bitpack.Proofs.Reading

/-! Expressions without assignments. Lowering takes the calls of an expression first and its operators
afterwards, while the source evaluates items one by one. Calls read no variable that an operator could
have changed, so both give the same value and the same actions in the same order. -/

namespace Bitpack

open C (Callees run)
open Meaning (Operand Action Store Machine)

namespace Lower

variable {u : SourceUnit} {callees : Callees u.word} {n : Numbering} {s : C.State u.word} {span : Span}

/-- Runs steps over a stack; all of the stack is the value. -/
def applySteps (u : SourceUnit) (span : Span) : List Value → List Step → Lower (List Value)
  | stack, [] => return stack
  | stack, .push v :: steps => applySteps u span (v :: stack) steps
  | stack, .apply op :: steps => do
    let stack ← apply u span op stack
    applySteps u span stack steps

theorem runs_runSteps {steps : List Step} : ∀ {stack : List Value} {n : Numbering} {s : C.State u.word}
    {post : Value → Numbering → C.State u.word → Prop},
    Runs callees (applySteps u span stack steps) n s (fun stack' => post (stack'.headD (.literal 0))) →
      Runs callees (runSteps u span stack steps) n s post := by
  induction steps with
  | nil => intro stack n s post h; exact h
  | cons step steps ih =>
    intro stack n s post h
    cases step with
    | push v => exact ih h
    | apply op => exact runs_bind.2 ((runs_bind.1 h).mono fun _ _ _ => ih)

theorem runs_applySteps_append {steps steps' : List Step} : ∀ {stack : List Value} {n : Numbering}
    {s : C.State u.word} {post : List Value → Numbering → C.State u.word → Prop},
    Runs callees (applySteps u span stack steps) n s
        (fun stack' n' s' => Runs callees (applySteps u span stack' steps') n' s' post) →
      Runs callees (applySteps u span stack (steps ++ steps')) n s post := by
  induction steps with
  | nil => intro stack n s post h; exact runs_pure.1 h
  | cons step steps ih =>
    intro stack n s post h
    cases step with
    | push v => exact ih h
    | apply op => exact runs_bind.2 ((runs_bind.1 h).mono fun _ _ _ => ih)

end Lower

/-- What calls return, in terms of the source. -/
def C.Callees.answer (u : SourceUnit) (callees : Callees u.word) (past : List Action) (m : Method)
    (args : List ℕ) : ℕ :=
  (callees (past.map (Action.event u)) (Lower.functionName u m) (argumentWords u m args)).value.toNat

/-- A machine that runs a unit whose calls do as the functions that C calls. -/
structure Linked (M : Machine) (callees : Callees M.unit.word) : Prop where
  wellFormed : M.unit.WellFormed
  answer_eq : M.answer = callees.answer M.unit
  bounded : callees.Bounded M.unit

variable {M : Machine} {callees : Callees M.unit.word} {scope : List VarId}

/-- A state of the function in which the variables of a scope hold what they hold in the source. -/
structure Follows (M : Machine) (scope : List VarId) (n : Numbering) (s : C.State M.unit.word) (t : Store) :
    Prop where
  ready : Ready n s
  running : t.returned = none
  fits : ∀ id ∈ scope, (M.unit.var id).Fits s
  value_eq : ∀ id ∈ scope, s.value (M.unit.var id) = t.vars id
  value_lt : ∀ id ∈ scope, t.vars id < 2 ^ (M.unit.var id).width
  events : s.events = t.actions.map (Action.event M.unit)

namespace Follows

variable {n n' : Numbering} {s s' : C.State M.unit.word} {t : Store}

theorem mono (h : Follows M scope n s t) (hn : Ready n' s') (hs : Extends s s')
    {t' : Store} (hvars : t'.vars = t.vars) (hrunning : t'.returned = t.returned)
    (hevents : s'.events = t'.actions.map (Action.event M.unit)) : Follows M scope n' s' t' := by
  refine ⟨hn, hrunning.trans h.running, fun id hid => hs.fits (h.fits id hid), ?_, ?_, hevents⟩
  · intro id hid
    rw [hs.value_eq, hvars]
    exact h.value_eq id hid
  · rw [hvars]
    exact h.value_lt

theorem holds_var (h : Follows M scope n s t) {id : VarId} (hid : id ∈ scope) :
    Holds M.unit s (.var id) (.var id (t.vars id)) := by
  rw [← h.value_eq id hid]
  exact .var (h.fits id hid) (by rw [h.value_eq id hid]; exact h.value_lt id hid)

end Follows

section Computes

variable {s s' : C.State M.unit.word} {os os' os'' : List Operand} {code code' : List Step}

/-- Steps that turn one stack of operands into another, in any later state. -/
def Computes (callees : Callees M.unit.word) (s : C.State M.unit.word) (code : List Step)
    (os os' : List Operand) : Prop :=
  ∀ ⦃span n s' stack⦄, Ready n s' → Extends s s' → List.Forall₂ (Holds M.unit s') stack os →
    Lower.Quiet callees (Lower.applySteps M.unit span stack code) n s' fun stack' s'' =>
      List.Forall₂ (Holds M.unit s'') stack' os'

theorem Computes.mono (h : Computes callees s code os os') (hs : Extends s s') :
    Computes callees s' code os os' :=
  fun _ _ _ _ hn hs' hst => h hn (hs.trans hs') hst

theorem Computes.append (h : Computes callees s code os os') (h' : Computes callees s code' os' os'') :
    Computes callees s (code ++ code') os os'' := by
  intro span n s₁ stack hn hs hst
  refine Lower.runs_applySteps_append ((h hn hs hst).mono ?_)
  rintro stack₂ n₂ s₂ ⟨hn₂, hs₂, he₂, hst₂⟩
  refine (h' hn₂ (hs.trans hs₂) hst₂).mono ?_
  rintro stack₃ n₃ s₃ ⟨hn₃, hs₃, he₃, hst₃⟩
  exact ⟨hn₃, hs₂.trans hs₃, he₃.trans he₂, hst₃⟩

theorem computes_nil : Computes callees s [] os os :=
  fun _ _ _ _ hn _ hst => Lower.quiet_pure hn hst

theorem computes_push {v : Value} {o : Operand} (h : Holds M.unit s v o) :
    Computes callees s [.push v] os (o :: os) :=
  fun _ _ _ _ hn hs hst => Lower.quiet_pure hn (.cons (h.mono hs) hst)

theorem computes_apply {op : Operator} {t t' : Store} (hop : op ≠ .assign)
    (h : M.apply op os t = some (os', t')) : Computes callees s [.apply op] os os' := by
  intro span n s' stack hn _ hst
  refine (Lower.quiet_apply hn span hop hst h).bind ?_
  intro stack' n' s'' hn' _ hst'
  exact Lower.quiet_pure hn' hst'

end Computes

section Items

/-- The code for the calls of items runs, and the steps that are left turn the stack into what the source
makes of it. -/
def ItemsRun (callees : Callees M.unit.word) (scope : List VarId) (is : List Item) : Prop :=
  ∀ ⦃os os' t t' n s⦄, M.items is os t = some (os', t') → Follows M scope n s t →
    Lower.Runs callees (Lower.steps M.unit is) n s fun code n' s' =>
      Follows M scope n' s' t' ∧ Extends s s' ∧ Computes callees s' code os os'

def ItemRun (callees : Callees M.unit.word) (scope : List VarId) (i : Item) : Prop :=
  ∀ ⦃os os' t t' n s⦄, M.item i os t = some (os', t') → Follows M scope n s t →
    Lower.Runs callees (Lower.step M.unit i) n s fun code n' s' =>
      Follows M scope n' s' t' ∧ Extends s s' ∧ Computes callees s' code.toList os os'

def ExpressionRun (callees : Callees M.unit.word) (scope : List VarId) (e : Expression) : Prop :=
  ∀ ⦃o t t' n s⦄, M.expression e t = some (o, t') → Follows M scope n s t →
    Lower.Runs callees (Lower.expression M.unit e) n s fun v n' s' =>
      Follows M scope n' s' t' ∧ Extends s s' ∧ Holds M.unit s' v o

/-- What is done at once with an argument is done alike in the source and by the code. -/
def AfterRun (callees : Callees M.unit.word) (scope : List VarId) (after : Value → Lower Unit)
    (after' : Operand → Store → Store) : Prop :=
  ∀ ⦃v o n s t⦄, Holds M.unit s v o → Follows M scope n s t →
    Lower.Runs callees (after v) n s fun _ n' s' => Follows M scope n' s' (after' o t) ∧ Extends s s'

def ArgumentsRun (callees : Callees M.unit.word) (scope : List VarId) (es : List Expression) : Prop :=
  ∀ ⦃after after'⦄, AfterRun callees scope after after' →
    ∀ ⦃os t t' n s⦄, M.arguments after' es t = some (os, t') → Follows M scope n s t →
      Lower.Runs callees (Lower.arguments M.unit after es) n s fun vs n' s' =>
        Follows M scope n' s' t' ∧ Extends s s' ∧ List.Forall₂ (Holds M.unit s') vs os

theorem itemsRun_nil : ItemsRun callees scope [] := by
  intro os os' t t' n s h hf
  cases h
  exact Lower.runs_pure.2 ⟨hf, .refl s, computes_nil⟩

theorem itemsRun_cons {i : Item} {rest : List Item} (hi : ItemRun callees scope i)
    (hrest : ItemsRun callees scope rest) : ItemsRun callees scope (i :: rest) := by
  intro os os' t t' n s h hf
  rw [Machine.items] at h
  obtain ⟨⟨os₁, t₁⟩, h₁, h₂⟩ := Option.bind_eq_some_iff.1 h
  rw [Lower.steps]
  refine Lower.runs_bind.2 ((hi h₁ hf).mono ?_)
  rintro code n₁ s₁ ⟨hf₁, hs₁, hc₁⟩
  refine Lower.runs_bind.2 ((hrest h₂ hf₁).mono ?_)
  rintro code' n₂ s₂ ⟨hf₂, hs₂, hc₂⟩
  -- the calls of `rest` come before the step that `i` has left, which is therefore taken in a later state
  exact Lower.runs_pure.2 ⟨hf₂, hs₁.trans hs₂, (hc₁.mono hs₂).append hc₂⟩

theorem itemRun_pure {i : Item} {step : Option Step} (hi : Lower.step M.unit i = pure step)
    (h : ∀ ⦃os os' t t' n s⦄, M.item i os t = some (os', t') → Follows M scope n s t →
      t' = t ∧ Computes callees s step.toList os os') : ItemRun callees scope i := by
  intro os os' t t' n s h' hf
  obtain ⟨rfl, hc⟩ := h h' hf
  rw [hi]
  exact Lower.runs_pure.2 ⟨hf, .refl s, hc⟩

theorem itemRun_var {id : VarId} (hid : id ∈ scope) : ItemRun callees scope (.var id) := by
  refine itemRun_pure (by rw [Lower.step]) ?_
  intro os os' t t' n s h hf
  rw [Machine.item] at h
  cases h
  exact ⟨rfl, computes_push (hf.holds_var hid)⟩

theorem itemRun_number {k : ℕ} (hk : k < 2 ^ 63) : ItemRun callees scope (.number k) := by
  refine itemRun_pure (by rw [Lower.step]) ?_
  intro os os' t t' n s h _
  rw [Machine.item] at h
  cases h
  have hval : (Int.toNat k).toUInt64.toNat = Int.toNat k := by
    have hlt : k < 2 ^ 64 := hk.trans (by decide)
    rw [Int.toNat_natCast]
    exact Nat.mod_eq_of_lt hlt
  refine ⟨rfl, computes_push ?_⟩
  have := Holds.literal M.unit s (Int.toNat k).toUInt64
  rwa [hval] at this

theorem itemRun_operator {op : Operator} (hop : op ≠ .assign) : ItemRun callees scope (.operator op) := by
  refine itemRun_pure (by rw [Lower.step]) ?_
  intro os os' t t' n s h _
  rw [Machine.item] at h
  exact ⟨Machine.apply_store hop h, computes_apply hop h⟩

theorem itemRun_opening : ItemRun callees scope .opening := by
  refine itemRun_pure (by rw [Lower.step]) ?_
  intro os os' t t' n s h _
  rw [Machine.item] at h
  cases h
  exact ⟨rfl, computes_nil⟩

theorem itemRun_closing : ItemRun callees scope .closing := by
  refine itemRun_pure (by rw [Lower.step]) ?_
  intro os os' t t' n s h _
  rw [Machine.item] at h
  cases h
  exact ⟨rfl, computes_nil⟩

theorem argumentsRun_nil : ArgumentsRun callees scope [] := by
  intro after after' _ os t t' n s h hf
  rw [Machine.arguments] at h
  cases h
  rw [Lower.arguments]
  exact Lower.runs_pure.2 ⟨hf, .refl s, .nil⟩

theorem argumentsRun_cons {e : Expression} {rest : List Expression} (he : ExpressionRun callees scope e)
    (hrest : ArgumentsRun callees scope rest) : ArgumentsRun callees scope (e :: rest) := by
  intro after after' hafter os t t' n s h hf
  rw [Machine.arguments] at h
  obtain ⟨⟨o, t₁⟩, h₁, h'⟩ := Option.bind_eq_some_iff.1 h
  obtain ⟨⟨os₂, t₂⟩, h₂, heq⟩ := Option.map_eq_some_iff.1 h'
  cases heq
  rw [Lower.arguments]
  refine Lower.runs_bind.2 ((he h₁ hf).mono ?_)
  rintro v n₁ s₁ ⟨hf₁, hs₁, hv⟩
  refine Lower.runs_bind.2 ((hafter hv hf₁).mono ?_)
  rintro - n₂ s₂ ⟨hf₂, hs₂⟩
  refine Lower.runs_bind.2 ((hrest hafter h₂ hf₂).mono ?_)
  rintro vs n₃ s₃ ⟨hf₃, hs₃, hvs⟩
  exact Lower.runs_pure.2 ⟨hf₃, (hs₁.trans hs₂).trans hs₃, .cons (hv.mono (hs₂.trans hs₃)) hvs⟩

theorem expressionRun_mk {is : List Item} {span : Span} (h : ItemsRun callees scope is) :
    ExpressionRun callees scope (.mk is span) := by
  intro o t t' n s he hf
  rw [Machine.expression] at he
  obtain ⟨⟨os, t₁⟩, h₁, heq⟩ := Option.map_eq_some_iff.1 he
  cases heq
  rw [Lower.expression]
  refine Lower.runs_bind.2 ((h h₁ hf).mono ?_)
  rintro code n₁ s₁ ⟨hf₁, hs₁, hc⟩
  refine Lower.runs_runSteps ((hc hf₁.ready (.refl s₁) .nil).mono ?_)
  rintro stack n₂ s₂ ⟨hn₂, hs₂, he₂, hst⟩
  exact ⟨hf₁.mono hn₂ hs₂ rfl rfl (he₂.trans hf₁.events), hs₁.trans hs₂, Lower.holds_headD hst⟩

theorem afterRun_none : AfterRun callees scope (fun _ => pure ()) (fun _ t => t) := by
  intro v o n s t _ hf
  exact Lower.runs_pure.2 ⟨hf, .refl s⟩

theorem afterRun_print : AfterRun callees scope (fun v => Lower.emit (.print (v.read M.unit)))
    (fun o t => t.act (.print o.value)) := by
  intro v o n s t hv hf
  have hn : Ready n (s.see (.print o.value)) := ⟨hf.ready.temps, hf.ready.arrays, hf.ready.returned⟩
  have hs : Extends s (s.see (.print o.value)) := ⟨fun _ _ h => h, rfl, rfl, rfl⟩
  have he : (s.see (.print o.value)).events =
      (t.act (.print o.value)).actions.map (Action.event M.unit) := by
    simp [C.State.see, Store.act, hf.events, Action.event]
  refine ⟨s.see (.print o.value), ?_, hf.mono hn hs rfl rfl he, hs⟩
  refine (C.run_singleton callees _ hf.ready.returned).trans ?_
  rw [C.Stmt.step, hv.eval_read]
  rfl

theorem itemRun_call (hL : Linked M callees) {name : String} {args : List Expression} {span : Span}
    (hargs : ArgumentsRun callees scope args) : ItemRun callees scope (.call name args span) := by
  intro os os' t t' n s h hf
  rw [Machine.item] at h
  rw [Lower.step]
  split_ifs at h ⊢ with hprint
  · obtain ⟨⟨os₁, t₁⟩, h₁, heq⟩ := Option.map_eq_some_iff.1 h
    cases heq
    refine Lower.runs_bind.2 ((hargs afterRun_print h₁ hf).mono ?_)
    rintro vs n₁ s₁ ⟨hf₁, hs₁, -⟩
    exact Lower.runs_pure.2 ⟨hf₁, hs₁, computes_push (.literal M.unit s₁ 0)⟩
  · cases hc : Lower.callee M.unit name args.length with
    | error cause =>
      simp only [hc] at h ⊢
      cases h
      exact ⟨s, rfl, hf, .refl s, computes_push (.literal M.unit s 0)⟩
    | ok m =>
      simp only [hc] at h ⊢
      obtain ⟨hm, hlen⟩ := callee_ok hc
      obtain ⟨⟨os₁, t₁⟩, h₁, heq⟩ := Option.map_eq_some_iff.1 h
      cases heq
      refine Lower.runs_bind.2 ((hargs afterRun_none h₁ hf).mono ?_)
      rintro vs n₁ s₁ ⟨hf₁, hs₁, hvs⟩
      refine Lower.runs_bind.2 ((Lower.runs_invoke hL.wellFormed hm hL.bounded hf₁.ready hvs ?_).mono ?_)
      · rwa [hvs.length_eq, Machine.length_arguments h₁]
      · rintro v n₂ s₂ ⟨hn₂, hs₂, he₂, hv⟩
        refine Lower.runs_pure.2 ⟨?_, hs₁.trans hs₂, computes_push ?_⟩
        · refine hf₁.mono hn₂ hs₂ rfl rfl ?_
          rw [he₂, hf₁.events, Store.act, List.map_append]
          rfl
        · rw [hf₁.events] at hv
          rwa [hL.answer_eq]

mutual

theorem itemsRun (hL : Linked M callees) : (is : List Item) → (∀ i ∈ is, i.Plain scope) →
    ItemsRun callees scope is
  | [], _ => itemsRun_nil
  | i :: rest, h => itemsRun_cons (itemRun hL i (h i (by simp)))
      (itemsRun hL rest fun j hj => h j (by simp [hj]))

theorem itemRun (hL : Linked M callees) : (i : Item) → i.Plain scope → ItemRun callees scope i
  | .var _, .var h => itemRun_var h
  | .number _, .number h => itemRun_number h
  | .operator _, .operator h => itemRun_operator h
  | .opening, _ => itemRun_opening
  | .closing, _ => itemRun_closing
  | .call _ args _, .call h => itemRun_call hL (argumentsRun hL args h)

theorem argumentsRun (hL : Linked M callees) : (es : List Expression) →
    (∀ e ∈ es, ∀ i ∈ e.items, i.Plain scope) → ArgumentsRun callees scope es
  | [], _ => argumentsRun_nil
  | e :: rest, h => argumentsRun_cons (expressionRun hL e (h e (by simp)))
      (argumentsRun hL rest fun x hx => h x (by simp [hx]))

theorem expressionRun (hL : Linked M callees) : (e : Expression) → (∀ i ∈ e.items, i.Plain scope) →
    ExpressionRun callees scope e
  | .mk is _, h => expressionRun_mk (itemsRun hL is h)

end

end Items

section Parts

/-- What is evaluated in the course of an expression: the fronts of its items, such as the value of an
assignment, and the same of the arguments of its calls, at any depth. -/
inductive Expression.Part : Expression → Expression → Prop
  | front {e : Expression} {items : List Item} {span : Span} (h : items <+: e.items) : Part (.mk items span) e
  | argument {x a e : Expression} {name : String} {args : List Expression} {span : Span}
      (hc : .call name args span ∈ e.items) (ha : a ∈ args) (hx : Part x a) : Part x e

theorem Expression.Part.plain {x e : Expression} (h : x.Part e) :
    (∀ i ∈ e.items, i.Plain scope ∨ i.isAssign) → x.items.all (!·.isAssign) → ∀ i ∈ x.items, i.Plain scope := by
  induction h with
  | front h =>
    intro he hfree i hi
    have hnot := List.all_eq_true.1 hfree i hi
    exact (he i (h.subset hi)).resolve_right (by simpa using hnot)
  | argument hc ha _ ih =>
    intro he hfree
    cases (he _ hc).resolve_right (by simp [Item.isAssign]) with
    | call hargs => exact ih (fun i hi => Or.inl (hargs _ ha i hi)) hfree

end Parts

/-- Variables as the source has them, whatever words hold them. -/
def C.State.store {u : SourceUnit} (s : C.State u.word) (past : List Action) : Store where
  vars := fun id => s.value (u.var id)
  actions := past

/-- The machine that stores all of a value that a variable has room for. -/
def Meaning.Machine.plain (u : SourceUnit) (answer : List Action → Method → List ℕ → ℕ) : Machine where
  unit := u
  answer := answer
  stored := fun id o => o.value % 2 ^ (u.var id).width

theorem follows_store {u : SourceUnit} {m : Method} {n : Numbering} {s : C.State u.word}
    {answer : List Action → Method → List ℕ → ℕ} {stored : VarId → Operand → ℕ} (hm : m.WellFormed u.word u.vars)
    (hn : Ready n s) (hroom : m.Room s) (hresult : s.value (u.var m.result) < 2 ^ (u.var m.result).width)
    {past : List Action} (hpast : s.events = past.map (Action.event u)) :
    Follows ⟨u, answer, stored⟩ m.scope n s (s.store past) := by
  refine ⟨hn, rfl, fun id hid => hm.fits hroom hid, fun id _ => rfl, ?_, hpast⟩
  intro id hid
  by_cases hst : (u.var id).storage = .result
  · obtain rfl := hm.storage_eq_result hid hst
    exact hresult
  · exact Variable.value_lt s hst

/-- The code of an expression without assignments runs, and reading its value gives the value that the
expression has in the source. Calls and printed numbers are those of the source, in its order, and the
variables stay as they are. -/
theorem expression_code_computes_value (w : Word) (src : String) {u : SourceUnit}
    (hu : (SourceUnit.ofText w src).1 = u) {m : Method} (hm : m ∈ u.methods) {b : Body} (hb : m.body = some b)
    {st : Statement} (hst : st ∈ b.statements) {e x : Expression} (he : st.expression? = some e) (hx : x.Part e)
    (hfree : x.items.all (!·.isAssign)) (callees : Callees u.word) (hcallees : callees.Bounded u)
    {n : Numbering} {s : C.State u.word} (hn : Ready n s) (hroom : m.Room s)
    (hresult : s.value (u.var m.result) < 2 ^ (u.var m.result).width)
    {past : List Action} (hpast : s.events = past.map (Action.event u)) {o : Operand} {t : Store}
    (ho : (Machine.plain u (callees.answer u)).expression x (s.store past) = some (o, t)) :
    ∃ s', run callees (Lower.expression u x n).code s = some s' ∧
      ((Lower.expression u x n).value.read u).eval s' = some o.value ∧
      (Lower.expression u x n).value.width u = o.width u ∧ o.value < 2 ^ o.width u ∧
      s'.events = t.actions.map (Action.event u) ∧ s'.banks .params = s.banks .params ∧
      s'.banks .locals = s.banks .locals ∧ s'.result = s.result ∧ s'.returned = none := by
  subst hu
  have hwf := (SourceUnit.ofText_wellFormed w src).1
  have hplain : ∀ i ∈ x.items, i.Plain m.scope :=
    hx.plain (fun i hi => ((hwf.methods m hm).statements b hb st hst e he).item hi) hfree
  have hL : Linked (Machine.plain _ (callees.answer _)) callees := ⟨hwf, rfl, hcallees⟩
  obtain ⟨s', hrun, hf, hs, hv⟩ := expressionRun hL x hplain ho
    (follows_store (hwf.methods m hm) hn hroom hresult hpast)
  exact ⟨s', hrun, hv.eval_read, hv.width_eq, hv.value_lt, hf.events, hs.params, hs.locals, hs.result,
    hf.ready.returned⟩

/-- The value of `x=~x+f(p+300)/3` where calls return 200: the call is made before any operator is applied,
and its argument does not fit the parameter of 7 bits. -/
theorem expression_code_computes_value_of_call :
    ∃ (u : SourceUnit) (m : Method) (b : Body) (st : Statement) (e : Expression) (callees : Callees u.word)
      (s : C.State u.word) (o : Operand) (t : Store),
      (SourceUnit.ofText .w32 "object 8 A;8 f(7 p){5 x;x=~x+f(p+300)/3;}").1 = u ∧ m ∈ u.methods ∧
      m.body = some b ∧ st ∈ b.statements ∧ st.expression? = some e ∧ callees.Bounded u ∧ Ready {} s ∧ m.Room s ∧
      s.value (u.var m.result) < 2 ^ (u.var m.result).width ∧
      (Machine.plain u (callees.answer u)).expression (.mk (e.items.take 6) e.span) (s.store []) = some (o, t) ∧
      o.value = 189 ∧ ∃ s', run callees (Lower.expression u (.mk (e.items.take 6) e.span) {}).code s = some s' ∧
        ((Lower.expression u (.mk (e.items.take 6) e.span) {}).value.read u).eval s' = some 189 ∧
        s'.events = t.actions.map (Action.event u) := by
  let u := (SourceUnit.ofText .w32 "object 8 A;8 f(7 p){5 x;x=~x+f(p+300)/3;}").1
  let callees : Callees u.word := fun _ _ words => ⟨200, words⟩
  let zeros (m : Method) (b : Body) : C.State u.word :=
    { (C.State.entry (List.replicate m.paramGroups 0)).setBank .locals (List.replicate b.groupCount 0) with
      result := some 0 }
  have hcallees : u.methods.toList.all fun m => callees.answer u [] m [] < 2 ^ (u.var m.result).width := by
    decide +kernel
  have hvalue : (u.methods[0]?.bind fun m => m.body.bind fun b => b.statements[0]?.bind fun st =>
      st.expression?.bind fun e => (if (e.items.take 6).all (!·.isAssign) ∧
          (zeros m b).value (u.var m.result) < 2 ^ (u.var m.result).width then
        (Machine.plain u (callees.answer u)).expression (.mk (e.items.take 6) e.span) ((zeros m b).store [])
      else none).map (·.1.value)) = some 189 := by
    decide +kernel
  obtain ⟨m, hm, hvalue⟩ := Option.bind_eq_some_iff.1 hvalue
  obtain ⟨b, hb, hvalue⟩ := Option.bind_eq_some_iff.1 hvalue
  obtain ⟨st, hst, hvalue⟩ := Option.bind_eq_some_iff.1 hvalue
  obtain ⟨e, he, hvalue⟩ := Option.bind_eq_some_iff.1 hvalue
  obtain ⟨⟨o, t⟩, ho, hvalue⟩ := Option.map_eq_some_iff.1 hvalue
  split_ifs at ho with hgiven
  obtain ⟨hfree, hresult⟩ := hgiven
  have hm' : m ∈ u.methods := Array.mem_of_getElem? hm
  have hst' : st ∈ b.statements := List.mem_of_getElem? hst
  have hbounded : callees.Bounded u := fun past words m' hm' =>
    of_decide_eq_true (List.all_eq_true.1 hcallees m' (Array.mem_toList_iff.2 hm'))
  have hready : Ready {} (zeros m b) := ⟨fun _ _ => rfl, fun _ _ => rfl, rfl⟩
  have hroom : m.Room (zeros m b) := by
    refine ⟨by simp [zeros, C.State.size, C.State.setBank, C.State.entry], ?_, rfl⟩
    intro b' hb'
    obtain rfl : b = b' := Option.some.inj (hb.symm.trans hb')
    simp [zeros, C.State.size, C.State.setBank]
  obtain ⟨s', hrun, hread, -, -, hevents, -⟩ := expression_code_computes_value .w32 _ rfl hm' hb hst' he
    (.front (List.take_prefix 6 e.items)) hfree callees hbounded hready hroom hresult List.map_nil.symm ho
  rw [show o.value = 189 from hvalue] at hread
  exact ⟨u, m, b, st, e, callees, zeros m b, o, t, rfl, hm', hb, hst', he, hbounded, hready, hroom, hresult, ho,
    hvalue, s', hrun, hread, hevents⟩

end Bitpack
