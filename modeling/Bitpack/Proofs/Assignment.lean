import Mathlib
import Bitpack.Proofs.Evaluation

/-! Assignments. A slot that shares its word is cleared before the value for it is read. That makes a
difference only to a value that is the same variable: it is zero by then. Apart from this the code for
an expression stores what the source does. -/

namespace Bitpack

open C (Callees run)
open Meaning (Operand Action Store Machine)

/-- A variable is assigned to itself among postfix items, at once or after it was assigned to. -/
def AssignedToItself (id : VarId) (is : List Item) : Prop :=
  [.var id, .var id, .operator .assign] <:+: is ∨
    [.var id, .operator .assign, .var id, .operator .assign] <:+: is

namespace Meaning

def Operand.isVar (id : VarId) : Operand → Bool
  | .var id' _ => id' == id
  | _ => false

/-- What is left of an operand in a variable that is cleared before the operand is read. -/
def afterClearing (u : SourceUnit) (id : VarId) (o : Operand) : ℕ :=
  if o.isVar id ∧ (u.var id).ClearedFirst u.word then 0 else o.value % 2 ^ (u.var id).width

/-- The machine in which a variable that shares its word loses its value when it is assigned to itself. -/
def Machine.clearing (u : SourceUnit) (answer : List Action → Method → List ℕ → ℕ) : Machine where
  unit := u
  answer := answer
  stored := afterClearing u

namespace Machine

variable {M : Machine}

theorem items_append (is is' : List Item) : ∀ (os : List Operand) (t : Store),
    M.items (is ++ is') os t = (M.items is os t).bind fun r => M.items is' r.1 r.2 := by
  induction is with
  | nil =>
    intro os t
    rw [List.nil_append, items, Option.bind_some]
  | cons i is ih =>
    intro os t
    rw [List.cons_append, items, items, Option.bind_assoc]
    simp only [ih]

/-- A value assigned to targets, one after the other. -/
def assignTo (M : Machine) : List VarId → Operand → Store → Operand × Store
  | [], o, t => (o, t)
  | id :: ids, o, t => M.assignTo ids (.var id (M.stored id o)) (t.set id (M.stored id o))

theorem assignTo_actions (ids : List VarId) : ∀ (o : Operand) (t : Store),
    (M.assignTo ids o t).2.actions = t.actions := by
  induction ids with
  | nil => intro o t; rfl
  | cons id ids ih => intro o t; exact ih _ _

theorem assignTo_returned (ids : List VarId) : ∀ (o : Operand) (t : Store),
    (M.assignTo ids o t).2.returned = t.returned := by
  induction ids with
  | nil => intro o t; rfl
  | cons id ids ih => intro o t; exact ih _ _

theorem items_assignAll (ids : List VarId) : ∀ (os : List Operand) (t : Store),
    (M.items (assignAll ids) os t).map (fun r => (r.1.headD (.literal 0), r.2)) =
      some (M.assignTo ids (os.headD (.literal 0)) t) := by
  induction ids with
  | nil => intro os t; rfl
  | cons id ids ih =>
    intro os t
    have hstep : M.items (assignAll (id :: ids)) os t = M.items (assignAll ids)
        (.var id (M.stored id (os.headD (.literal 0))) :: os.tail)
        (t.set id (M.stored id (os.headD (.literal 0)))) := rfl
    rw [hstep, ih]
    rfl

/-- An expression that ends with assignments: its value is computed first. -/
theorem expression_assignAll {e : Expression} {value : List Item} {targets : List VarId}
    (h : e.items = value ++ assignAll targets) (t : Store) :
    M.expression e t = (M.items value [] t).map fun r =>
      M.assignTo targets (r.1.headD (.literal 0)) r.2 := by
  obtain ⟨is, span⟩ := e
  obtain rfl : is = value ++ assignAll targets := h
  rw [expression, items_append]
  cases hv : M.items value [] t with
  | none => rfl
  | some r => exact items_assignAll targets r.1 r.2

theorem apply_top {op : Operator} (hop : op ≠ .assign) {os os' : List Operand} {t t' : Store}
    (h : M.apply op os t = some (os', t')) (id : VarId) (x : ℕ) : os'.headD (.literal 0) ≠ .var id x := by
  cases op with
  | assign => exact absurd rfl hop
  | not =>
    cases h
    simp only [List.headD_cons, Operand.complement]
    split <;> simp
  | cast =>
    simp only [apply] at h
    split at h
    · cases h
      simp only [List.headD_cons, Operand.cast]
      split_ifs
      · simp [Operand.literal]
      · split <;> simp
    · cases h
      simp [Operand.literal]
  | arith a =>
    obtain ⟨o, ho, heq⟩ := Option.map_eq_some_iff.1 h
    cases heq
    obtain ⟨z, -, rfl⟩ := Option.map_eq_some_iff.1 ho
    simp only [List.headD_cons]
    split <;> simp [Operand.literal]

theorem item_call_top {name : String} {args : List Expression} {span : Span} {os os' : List Operand}
    {t t' : Store} (h : M.item (.call name args span) os t = some (os', t')) (id : VarId) (x : ℕ) :
    os'.headD (.literal 0) ≠ .var id x := by
  rw [item] at h
  split_ifs at h
  · obtain ⟨r, -, heq⟩ := Option.map_eq_some_iff.1 h
    cases heq
    simp [Operand.literal]
  · split at h
    · cases h
      simp [Operand.literal]
    · obtain ⟨r, -, heq⟩ := Option.map_eq_some_iff.1 h
      cases heq
      simp

theorem items_top {scope : List VarId} (is : List Item) : (∀ i ∈ is, i.Plain scope) →
    ∀ {os : List Operand} {t t' : Store} {id : VarId} {x : ℕ}, M.items is [] t = some (os, t') →
      os.headD (.literal 0) = .var id x → ∃ front, is.filter (!·.isParen) = front ++ [.var id] := by
  -- from the end: the last item decides what is on top, and parentheses leave it to the one before
  induction is using List.reverseRecOn with
  | nil =>
    intro _ os t t' id x h htop
    rw [items] at h
    cases h
    cases htop
  | append_singleton is i ih =>
    intro hplain os t t' id x h htop
    rw [items_append] at h
    obtain ⟨⟨os₁, t₁⟩, h₁, h₂⟩ := Option.bind_eq_some_iff.1 h
    obtain ⟨⟨os₂, t₂⟩, hi, heq⟩ := Option.bind_eq_some_iff.1 h₂
    cases heq
    have ih' := fun htop' : os₁.headD (.literal 0) = .var id x =>
      ih (fun j hj => hplain j (by simp [hj])) h₁ htop'
    cases hplain i (by simp) with
    | var =>
      cases hi
      cases htop
      exact ⟨is.filter (!·.isParen), by simp [Item.isParen]⟩
    | number =>
      cases hi
      cases htop
    | operator hop => exact absurd htop (apply_top hop hi id x)
    | call => exact absurd htop (item_call_top hi id x)
    | opening =>
      cases hi
      obtain ⟨front, hfront⟩ := ih' htop
      exact ⟨front, by simpa [Item.isParen] using hfront⟩
    | closing =>
      cases hi
      obtain ⟨front, hfront⟩ := ih' htop
      exact ⟨front, by simpa [Item.isParen] using hfront⟩

section Congruence

variable {u : SourceUnit} {answer : List Action → Method → List ℕ → ℕ} {stored stored' : VarId → Operand → ℕ}
  {scope : List VarId}

mutual

theorem items_congr : (is : List Item) → (∀ i ∈ is, i.Plain scope) → ∀ os t,
    items ⟨u, answer, stored⟩ is os t = items ⟨u, answer, stored'⟩ is os t
  | [], _, _, _ => by rw [items, items]
  | i :: rest, h, os, t => by
    rw [items, items, item_congr i (h i (by simp))]
    simp only [items_congr rest fun j hj => h j (by simp [hj])]

theorem item_congr : (i : Item) → i.Plain scope → ∀ os t,
    item ⟨u, answer, stored⟩ i os t = item ⟨u, answer, stored'⟩ i os t
  | .var _, _, _, _ => by rw [item, item]
  | .number _, _, _, _ => by rw [item, item]
  | .opening, _, _, _ => by rw [item, item]
  | .closing, _, _, _ => by rw [item, item]
  | .operator op, .operator hop, os, t => by
    rw [item, item]
    cases op with
    | assign => exact absurd rfl hop
    | _ => rfl
  | .call name args _, .call h, os, t => by
    rw [item, item]
    simp only [arguments_congr _ args h]

theorem arguments_congr (after : Operand → Store → Store) : (es : List Expression) →
    (∀ e ∈ es, ∀ i ∈ e.items, i.Plain scope) → ∀ t,
    arguments ⟨u, answer, stored⟩ after es t = arguments ⟨u, answer, stored'⟩ after es t
  | [], _, _ => by rw [arguments, arguments]
  | e :: rest, h, t => by
    rw [arguments, arguments, expression_congr e (h e (by simp))]
    simp only [arguments_congr after rest fun x hx => h x (by simp [hx])]

theorem expression_congr : (e : Expression) → (∀ i ∈ e.items, i.Plain scope) → ∀ t,
    expression ⟨u, answer, stored⟩ e t = expression ⟨u, answer, stored'⟩ e t
  | .mk is _, h, t => by
    rw [expression, expression, items_congr is h]

end

end Congruence

section Compare

variable {u : SourceUnit} {answer : List Action → Method → List ℕ → ℕ}

/-- Both machines store the same along a chain in which no variable follows itself. What comes before the
chain ends with the variable that the value is, if it is one. -/
theorem assignTo_clearing (targets : List VarId) : ∀ (before : List Item) {o : Operand} {t : Store},
    (∀ id x, o = .var id x →
      (∃ front, before = front ++ [.var id]) ∨ ∃ front, before = front ++ [.var id, .operator .assign]) →
    (∀ id, (u.var id).ClearedFirst u.word → ¬ AssignedToItself id (before ++ assignAll targets)) →
    (clearing u answer).assignTo targets o t = (plain u answer).assignTo targets o t := by
  induction targets with
  | nil => intro before o t _ _; rfl
  | cons id targets ih =>
    intro before o t ho hself
    have hitems : before ++ assignAll (id :: targets) =
        (before ++ [.var id, .operator .assign]) ++ assignAll targets := by
      rw [List.append_assoc]
      rfl
    have hstored : (clearing u answer).stored id o = (plain u answer).stored id o := by
      refine if_neg ?_
      rintro ⟨hvar, hc⟩
      cases o with
      | var id' x =>
        obtain rfl : id' = id := by simpa [Operand.isVar] using hvar
        apply hself id' hc
        rw [hitems]
        rcases ho id' x rfl with ⟨front, rfl⟩ | ⟨front, rfl⟩
        · exact Or.inl ⟨front, assignAll targets, by simp⟩
        · exact Or.inr ⟨front, assignAll targets, by simp⟩
      | _ => simp [Operand.isVar] at hvar
    rw [assignTo, assignTo, hstored]
    refine ih (before ++ [.var id, .operator .assign]) ?_ (hitems ▸ hself)
    rintro id' x ⟨⟩
    exact Or.inr ⟨before, rfl⟩

theorem clearing_expression {scope : List VarId} {e : Expression} {value : List Item} {targets : List VarId}
    (hitems : e.items = value ++ assignAll targets) (hvalue : ∀ i ∈ value, i.Plain scope) (t : Store) :
    (clearing u answer).expression e t = ((plain u answer).items value [] t).map fun r =>
      (clearing u answer).assignTo targets (r.1.headD (.literal 0)) r.2 := by
  rw [expression_assignAll hitems]
  exact congrArg _ (items_congr value hvalue [] t)

theorem filter_assignAll (targets : List VarId) :
    (assignAll targets).filter (!·.isParen) = assignAll targets := by
  apply List.filter_eq_self.2
  intro i hi
  obtain ⟨id, -, hi⟩ := List.mem_flatMap.1 hi
  rcases List.mem_cons.1 hi with rfl | hi
  · rfl
  · obtain rfl := List.mem_singleton.1 hi
    rfl

/-- An expression means the same to both machines unless a variable that shares its word is assigned to
itself. -/
theorem expression_clearing {scope : List VarId} {e : Expression} (he : e.Scoped scope)
    (hself : ∀ id, (u.var id).ClearedFirst u.word → ¬ AssignedToItself id (e.items.filter (!·.isParen)))
    (t : Store) : (clearing u answer).expression e t = (plain u answer).expression e t := by
  obtain ⟨value, targets, hitems, hvalue, -⟩ := he
  rw [clearing_expression hitems hvalue, expression_assignAll hitems]
  cases hv : (plain u answer).items value [] t with
  | none => rfl
  | some r =>
    simp only [Option.map_some]
    congr 1
    refine assignTo_clearing targets (value.filter (!·.isParen)) ?_ ?_
    · intro id x htop
      exact Or.inl (items_top value hvalue hv htop)
    · rwa [hitems, List.filter_append, filter_assignAll] at hself

/-- No statement assigns a variable to itself that shares its word. -/
def NoSelfAssignment (u : SourceUnit) (sts : List Statement) : Prop :=
  ∀ st ∈ sts, ∀ e, st.expression? = some e → ∀ id, (u.var id).ClearedFirst u.word →
    ¬ AssignedToItself id (e.items.filter (!·.isParen))

theorem statements_clearing {scope : List VarId} {result : VarId} {sts : List Statement} :
    (∀ st ∈ sts, st.Scoped scope) → NoSelfAssignment u sts → ∀ t,
      (clearing u answer).statements result sts t = (plain u answer).statements result sts t := by
  induction sts with
  | nil => intro _ _ t; rfl
  | cons st sts ih =>
    intro hsts hself t
    have hvalue : ∀ e, st.expression? = some e →
        (clearing u answer).expression e t = (plain u answer).expression e t :=
      fun e he => expression_clearing (hsts st (by simp) e he) (hself st (by simp) e he) t
    have hst : (clearing u answer).statement result st t = (plain u answer).statement result st t := by
      unfold statement
      cases st with
      | eval e => simp only [hvalue e rfl]
      | ret e? =>
        cases e? with
        | none => rfl
        | some e => simp only [hvalue e rfl]
    rw [statements, statements, hst]
    congr 1
    funext t'
    exact ih (fun st' hst' => hsts st' (by simp [hst'])) (fun st' hst' => hself st' (by simp [hst'])) t'

theorem expression_effects {scope : List VarId} {e : Expression} (he : e.Scoped scope) (t : Store) :
    ((clearing u answer).expression e t).map (fun r => (r.2.actions, r.2.returned)) =
      ((plain u answer).expression e t).map (fun r => (r.2.actions, r.2.returned)) := by
  obtain ⟨value, targets, hitems, hvalue, -⟩ := he
  rw [clearing_expression hitems hvalue, expression_assignAll hitems, Option.map_map, Option.map_map]
  simp only [Function.comp_def, assignTo_actions, assignTo_returned]

theorem statement_effects {scope : List VarId} {st : Statement} (hst : st.Scoped scope) {result : VarId}
    {t t₁ : Store} (h : (plain u answer).statement result st t = some t₁) :
    ∃ t₂, (clearing u answer).statement result st t = some t₂ ∧ t₂.actions = t₁.actions ∧
      (t₂.vars result = t₁.vars result → t₂.returned = t₁.returned) := by
  have hvalue : ∀ e, st.expression? = some e → ∀ r₁, (plain u answer).expression e t = some r₁ →
      ∃ r₂, (clearing u answer).expression e t = some r₂ ∧ r₂.2.actions = r₁.2.actions ∧
        r₂.2.returned = r₁.2.returned := by
    intro e he r₁ hr₁
    have heffects : ((clearing u answer).expression e t).map _ = _ := expression_effects (hst e he) t
    rw [hr₁, Option.map_some] at heffects
    obtain ⟨r₂, hr₂, heq⟩ := Option.map_eq_some_iff.1 heffects
    exact ⟨r₂, hr₂, congrArg Prod.fst heq, congrArg Prod.snd heq⟩
  unfold statement at h ⊢
  split_ifs at h ⊢ with hret
  · cases h
    exact ⟨t, rfl, rfl, fun _ => rfl⟩
  · cases st with
    | eval e =>
      obtain ⟨r₁, hr₁, rfl⟩ := Option.map_eq_some_iff.1 h
      obtain ⟨r₂, hr₂, hactions, hreturned⟩ := hvalue e rfl r₁ hr₁
      exact ⟨r₂.2, by simp only [hr₂]; rfl, hactions, fun _ => hreturned⟩
    | ret e? =>
      cases e? with
      | none =>
        cases h
        exact ⟨t.leave result, rfl, rfl, fun _ => rfl⟩
      | some e =>
        obtain ⟨r₁, hr₁, rfl⟩ := Option.map_eq_some_iff.1 h
        obtain ⟨r₂, hr₂, hactions, -⟩ := hvalue e rfl r₁ hr₁
        refine ⟨r₂.2.leave result, by simp only [hr₂]; rfl, hactions, fun hvars => ?_⟩
        simpa [Store.leave] using hvars

end Compare
end Machine
end Meaning

open Meaning (afterClearing)

section Code

variable {M : Machine} {callees : Callees M.unit.word} {m : Method} {n : Numbering} {s : C.State M.unit.word}
  {t : Store}

theorem Holds.eval_read_cleared {u : SourceUnit} {s : C.State u.word} (hm : m.WellFormed u.word u.vars)
    (hroom : ∀ id ∈ m.scope, (u.var id).Fits s) {id : VarId} (hid : id ∈ m.scope) {v : Value} {o : Operand}
    (h : Holds u s v o) (hscope : ∀ id' x, o = .var id' x → id' ∈ m.scope) :
    (v.read u).eval (if (u.var id).ClearedFirst u.word then s.assign (u.var id) 0 else s) =
      some (if o.isVar id ∧ (u.var id).ClearedFirst u.word then 0 else o.value) := by
  by_cases hc : (u.var id).ClearedFirst u.word
  · simp only [hc, if_true, and_true]
    cases h with
    | const => rfl
    | temp htemp =>
      simp [Value.read, C.Expr.eval, C.State.assign_temps, htemp, Operand.isVar, Operand.value]
    | @var id' hfit hlt =>
      rw [Value.read, hfit.assign.eval_read]
      by_cases heq : id' = id
      · subst heq
        rw [hfit.value_assign_self]
        simp [Operand.isVar]
      · have hapart := hm.apart hid (hscope id' _ rfl) (Ne.symm heq)
        rw [(hroom id hid).value_assign_of_apart hfit hapart]
        simp [Operand.isVar, heq, Operand.value]
  · simp only [hc, if_false, and_false]
    exact h.eval_read

theorem Follows.assign (hm : m.WellFormed M.unit.word M.unit.vars) (hM : M.stored = afterClearing M.unit)
    (hf : Follows M m.scope n s t) {id : VarId} (hid : id ∈ m.scope) {v : Value} {o : Operand}
    (hv : Holds M.unit s v o) (hscope : ∀ id' x, o = .var id' x → id' ∈ m.scope) :
    ∃ s', run callees ((M.unit.var id).write M.unit.word (v.read M.unit)) s = some s' ∧
      Follows M m.scope n s' (t.set id (M.stored id o)) := by
  have hfit := hf.fits id hid
  have hstored : M.stored id o =
      (if o.isVar id ∧ (M.unit.var id).ClearedFirst M.unit.word then 0 else o.value) %
        2 ^ (M.unit.var id).width := by
    rw [hM, afterClearing]
    split_ifs <;> simp
  refine ⟨_, hfit.run_write callees hf.ready.returned (hv.eval_read_cleared hm hf.fits hid hscope), ?_⟩
  refine ⟨⟨?_, ?_, ?_⟩, hf.running, fun id' hid' => (hf.fits id' hid').assign, ?_, ?_, ?_⟩
  · rw [C.State.assign_temps]
    exact hf.ready.temps
  · intro k hk
    rw [C.State.assign_banks_args]
    exact hf.ready.arrays k hk
  · rw [C.State.assign_returned]
    exact hf.ready.returned
  · intro id' hid'
    by_cases heq : id' = id
    · subst heq
      rw [hfit.value_assign_self, ← hstored]
      simp [Store.set]
    · rw [hfit.value_assign_of_apart (hf.fits id' hid') (hm.apart hid hid' (Ne.symm heq)),
        hf.value_eq id' hid']
      simp [Store.set, heq]
  · intro id' hid'
    by_cases heq : id' = id
    · subst heq
      rw [hstored]
      simpa [Store.set] using Nat.mod_lt _ (Nat.two_pow_pos _)
    · simpa [Store.set, heq] using hf.value_lt id' hid'
  · rw [C.State.assign_events]
    exact hf.events

/-- The steps for a chain of assignments. -/
def assignSteps (targets : List VarId) : List Step :=
  targets.flatMap fun id => [.push (.var id), .apply .assign]

theorem steps_assignAll (u : SourceUnit) (targets : List VarId) (n : Numbering) :
    Lower.steps u (assignAll targets) n = ⟨assignSteps targets, [], [], n⟩ := by
  induction targets with
  | nil => rfl
  | cons id targets ih =>
    have hitems : assignAll (id :: targets) = .var id :: .operator .assign :: assignAll targets := rfl
    rw [hitems, Lower.steps, Lower.steps, Lower.step, Lower.step]
    simp only [bind, pure, ih]
    rfl

/-- A chain of assignments: each target is the value for the next. -/
theorem Follows.assignAll (hm : m.WellFormed M.unit.word M.unit.vars) (hM : M.stored = afterClearing M.unit)
    {span : Span} {targets : List VarId} (htargets : ∀ id ∈ targets, id ∈ m.scope) :
    ∀ {stack : List Value} {n : Numbering} {s : C.State M.unit.word} {t : Store} {o : Operand},
      Follows M m.scope n s t → Holds M.unit s (stack.headD (.literal 0)) o →
      (∀ id' x, o = .var id' x → id' ∈ m.scope) →
      Lower.Runs callees (Lower.applySteps M.unit span stack (assignSteps targets)) n s fun _ n' s' =>
        Follows M m.scope n' s' (M.assignTo targets o t).2 := by
  induction targets with
  | nil =>
    intro stack n s t o hf _ _
    exact Lower.runs_pure.2 hf
  | cons id targets ih =>
    intro stack n s t o hf hv hscope
    have hid := htargets id (by simp)
    obtain ⟨s', hrun, hf'⟩ : ∃ s', run callees _ s = some s' ∧ _ := hf.assign hm hM hid hv hscope
    have happly : Lower.Runs callees (Lower.apply M.unit span .assign (.var id :: stack)) n s fun stack' n' s'' =>
        stack' = .var id :: stack.tail ∧ n' = n ∧ s'' = s' := by
      refine ⟨s', ?_, rfl, rfl, rfl⟩
      exact (congrArg (run callees · s) (List.append_nil _)).trans hrun
    refine Lower.runs_bind.2 (happly.mono ?_)
    rintro _ _ _ ⟨rfl, rfl, rfl⟩
    have htop := hf'.holds_var hid
    refine ih (fun id' hid' => htargets id' (by simp [hid'])) hf' ?_ ?_
    · simpa [Store.set] using htop
    · rintro id' x ⟨⟩
      exact hid

theorem Lower.runs_steps_append {u : SourceUnit} {callees : Callees u.word} {is' : List Item} (is : List Item) :
    ∀ {n : Numbering} {s : C.State u.word} {post : List Step → Numbering → C.State u.word → Prop},
      Runs callees (steps u is) n s (fun code n' s' =>
        Runs callees (steps u is') n' s' fun code' => post (code ++ code')) →
      Runs callees (steps u (is ++ is')) n s post := by
  induction is with
  | nil =>
    intro n s post h
    rw [steps] at h
    exact runs_pure.1 h
  | cons i is ih =>
    intro n s post h
    rw [steps] at h
    rw [List.cons_append, steps]
    refine runs_bind.2 ((runs_bind.1 h).mono fun first n₁ s₁ h₁ => ?_)
    refine runs_bind.2 (ih ((runs_bind.1 h₁).mono fun code n₂ s₂ h₂ => ?_))
    refine (runs_pure.1 h₂).mono fun code' n₃ s₃ h₃ => runs_pure.2 ?_
    rwa [List.append_assoc] at h₃

theorem Expression.Scoped.follows (hL : Linked M callees) (hm : m.WellFormed M.unit.word M.unit.vars)
    (hM : M.stored = afterClearing M.unit) {e : Expression} (he : e.Scoped m.scope) {o : Operand} {t' : Store}
    (h : M.expression e t = some (o, t')) (hf : Follows M m.scope n s t) :
    Lower.Runs callees (Lower.expression M.unit e) n s fun _ n' s' => Follows M m.scope n' s' t' := by
  obtain ⟨value, targets, hitems, hvalue, htargets⟩ := he
  rw [Machine.expression_assignAll hitems] at h
  obtain ⟨⟨os, t₁⟩, h₁, heq⟩ := Option.map_eq_some_iff.1 h
  obtain rfl : (M.assignTo targets (os.headD (.literal 0)) t₁).2 = t' := congrArg Prod.snd heq
  have hscope : ∀ id x, os.headD (.literal 0) = .var id x → id ∈ m.scope := by
    intro id x htop
    obtain ⟨front, hfront⟩ := Machine.items_top value hvalue h₁ htop
    have hmem : Item.var id ∈ value.filter (!·.isParen) := by simp [hfront]
    cases hvalue _ (List.mem_filter.1 hmem).1 with
    | var hid => exact hid
  obtain ⟨is, span⟩ := e
  obtain rfl : is = value ++ assignAll targets := hitems
  rw [Lower.expression]
  refine Lower.runs_bind.2 (Lower.runs_steps_append value ((itemsRun hL value hvalue h₁ hf).mono ?_))
  rintro code n₁ s₁ ⟨hf₁, hs₁, hc⟩
  refine ⟨s₁, by rw [steps_assignAll]; rfl, ?_⟩
  rw [steps_assignAll]
  refine Lower.runs_runSteps (Lower.runs_applySteps_append ((hc hf₁.ready (.refl s₁) .nil).mono ?_))
  rintro stack n₂ s₂ ⟨hn₂, hs₂, he₂, hst⟩
  exact (hf₁.mono hn₂ hs₂ rfl rfl (he₂.trans hf₁.events)).assignAll hm hM htargets (Lower.holds_headD hst) hscope

end Code
end Bitpack
