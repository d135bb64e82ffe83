import Mathlib
import Bitpack.Proofs.Relocation

/-! Reading moved clauses. Nothing is decided by places or by the numbers of variables: a method that is read from moved
clauses, behind other variables, is the method moved, and its problems are moved with it. -/

namespace Bitpack

section Moves

def Relocation.lookup (ρ : Relocation) (lookup : String → Option VarId) (name : String) : Option VarId :=
  (lookup name).map ρ.var

def Frame.move (ρ : Relocation) (f : Frame) : Frame :=
  { f with items := f.items.map (Item.move ρ), span := f.span.map ρ.place }

def OpenCall.move (ρ : Relocation) (c : OpenCall) : OpenCall :=
  ⟨c.name, ρ.place c.span, c.args.map (Expression.move ρ), c.outer.move ρ⟩

def Reading.move (ρ : Relocation) (r : Reading) : Reading :=
  ⟨r.notes.map (Diagnostic.move ρ), (r.result.map (Expression.move ρ)).mapError (Diagnostic.move ρ)⟩

def Statement.move (ρ : Relocation) : Statement → Statement
  | .eval e => .eval (e.move ρ)
  | .ret e => .ret (e.map (Expression.move ρ))

def Local.move (ρ : Relocation) (l : Local) : Local :=
  ⟨l.name, ρ.var l.id, ρ.place l.span⟩

def Scope.move (ρ : Relocation) (s : Scope) : Scope where
  vars := ρ.front ++ s.vars
  result := ρ.var s.result
  params := s.params.map ρ.var
  locals := s.locals.map (Local.move ρ)
  statements := s.statements.map (Statement.move ρ)

def Body.move (ρ : Relocation) (b : Body) : Body :=
  { b with
    locals := b.locals.map fun l => (l.1, ρ.var l.2)
    statements := b.statements.map (Statement.move ρ) }

def Method.move (ρ : Relocation) (m : Method) : Method :=
  { m with
    params := m.params.map ρ.var
    result := ρ.var m.result
    body := m.body.map (Body.move ρ)
    span := ρ.place m.span }

def MethodReading.move (ρ : Relocation) (r : MethodReading) : MethodReading :=
  ⟨ρ.front ++ r.vars, r.faults.map (Diagnostic.move ρ), r.method.map (Method.move ρ)⟩

end Moves

section Expressions

variable (ρ : Relocation)

@[simp] theorem Item.moveAll_eq (is : List Item) : Item.moveAll ρ is = is.map (Item.move ρ) := by
  induction is with
  | nil => rfl
  | cons i is ih => rw [Item.moveAll, ih, List.map_cons]

@[simp] theorem Expression.moveAll_eq (es : List Expression) :
    Expression.moveAll ρ es = es.map (Expression.move ρ) := by
  induction es with
  | nil => rfl
  | cons e es ih => rw [Expression.moveAll, ih, List.map_cons]

theorem Item.move_isOpening (i : Item) : (i.move ρ).isOpening = i.isOpening := by
  cases i <;> simp [Item.move, Item.isOpening]

theorem Item.move_yieldsTo (op : Operator) (i : Item) : (i.move ρ).yieldsTo op = i.yieldsTo op := by
  cases i <;> simp [Item.move, Item.yieldsTo]

theorem shunt_move (stack items : List Item) :
    shunt (stack.map (Item.move ρ)) (items.map (Item.move ρ)) = (shunt stack items).map (Item.move ρ) := by
  have hopening : (fun i => !Item.isOpening i) ∘ Item.move ρ = fun i => !i.isOpening :=
    funext fun i => by simp [Item.move_isOpening]
  have hyields : ∀ op, Item.yieldsTo op ∘ Item.move ρ = Item.yieldsTo op :=
    fun op => funext fun i => i.move_yieldsTo ρ op
  fun_induction shunt stack items with
  | case1 stack => simp [shunt, List.filter_map, hopening]
  | case2 stack rest ih => simpa [shunt, Item.move] using ih
  | case3 stack rest ih =>
    simp [shunt, Item.move, List.takeWhile_map, List.dropWhile_map, hopening, ← ih]
  | case4 stack op rest h ih => simpa [shunt, Item.move, h] using ih
  | case5 stack op rest h ih =>
    simpa [shunt, Item.move, h, List.takeWhile_map, List.dropWhile_map, hyields] using ih
  | case6 stack operand rest h1 h2 h3 ih =>
    cases operand <;> simp_all [shunt, Item.move]

theorem toPostfix_move (items : List Item) :
    toPostfix (items.map (Item.move ρ)) = (toPostfix items).map (Item.move ρ) := by
  rcases items with - | ⟨i, - | ⟨j, items⟩⟩
  · exact shunt_move ρ [] []
  · rfl
  · exact shunt_move ρ [] (i :: j :: items)

namespace Frame

@[simp] theorem move_last (f : Frame) : (f.move ρ).last = f.last := rfl

@[simp] theorem move_depth (f : Frame) : (f.move ρ).depth = f.depth := rfl

theorem push_move (f : Frame) (place : Place) (item : Item) (span : Span) :
    (f.move ρ).push place (item.move ρ) (ρ.place span) = (f.push place item span).move ρ := by
  obtain ⟨last, depth, items, s⟩ := f
  cases s <;> simp [push, move]

theorem push_depth_move (f : Frame) (place : Place) (item : Item) (span : Span) (depth : ℕ) :
    { (f.move ρ).push place (item.move ρ) (ρ.place span) with depth := depth } =
      ({ f.push place item span with depth := depth } : Frame).move ρ := by
  rw [push_move]
  rfl

theorem expression_move (f : Frame) : (f.move ρ).expression = f.expression.move ρ := by
  obtain ⟨last, depth, items, s⟩ := f
  simp only [expression, Expression.move, move, Item.moveAll_eq, ← List.map_reverse, toPostfix_move]
  cases s <;> simp

end Frame

theorem OpenCall.finish_move (c : OpenCall) (close : Span) :
    (c.move ρ).finish (ρ.place close) = (c.finish close).move ρ := by
  unfold OpenCall.finish
  simp only
  rw [← Frame.push_move, Item.move, Expression.moveAll_eq, List.map_reverse, ρ.place_join]
  rfl

theorem readFinish_move (stop : Token) (f : Frame) (calls : List OpenCall) :
    readFinish (stop.move ρ) (f.move ρ) (calls.map (OpenCall.move ρ)) = (readFinish stop f calls).move ρ := by
  unfold readFinish
  rw [Frame.move_last, Frame.move_depth]
  by_cases hlast : f.last.allows .finish
  · by_cases hdepth : f.depth > 0
    · simp only [hlast, hdepth, Bool.not_true, Bool.false_eq_true, if_true, if_false]
      rfl
    · simp only [hlast, hdepth, Bool.not_true, Bool.false_eq_true, if_false]
      cases calls with
      | nil => exact congrArg (fun e => (⟨[], .ok e⟩ : Reading)) (f.expression_move ρ)
      | cons c calls => exact congrArg Reading.fail (stop.move_unexpected ρ _)
  · simp only [hlast, Bool.not_false, if_true]
    rfl

variable {ρ}

theorem eq_cons_of_move {ts rest : List Token} {k : Kind} {span : Span}
    (h : ts.map (Token.move ρ) = ⟨k, span⟩ :: rest) :
    ∃ span' rest', ts = ⟨k, span'⟩ :: rest' ∧ rest'.map (Token.move ρ) = rest := by
  obtain ⟨t, rest', rfl, ht, hrest⟩ := List.map_eq_cons_iff.1 h
  obtain ⟨kind, span'⟩ := t
  cases ht
  exact ⟨span', rest', rfl, hrest⟩

variable (ρ)

theorem head?_move (ts : List Token) :
    ((ts.map (Token.move ρ)).map (·.kind)).head? = (ts.map (·.kind)).head? := by
  rw [List.map_map]
  rfl

/-- The tokens are read in the same way once they are moved. -/
def Relocation.Moves (lookup : String → Option VarId) (stop : Token) (f : Frame) (calls : List OpenCall)
    (ts : List Token) : Prop :=
  readInfix (ρ.lookup lookup) (stop.move ρ) (f.move ρ) (calls.map (OpenCall.move ρ)) (ts.map (Token.move ρ)) =
    (readInfix lookup stop f calls ts).move ρ

section Moves

variable {ρ} {lookup : String → Option VarId} {stop t : Token} {f : Frame} {calls : List OpenCall} {ts : List Token}

variable (ih : ∀ f calls us, us.length ≤ ts.length → ρ.Moves lookup stop f calls us)
include ih

-- The first token keeps its kind, so the equation for that kind applies to both readings.

theorem Relocation.moves_comma (hk : t.kind = .mark .comma) : ρ.Moves lookup stop f calls (t :: ts) := by
  have hk' : (t.move ρ).kind = _ := hk
  have hunexpected := congrArg Reading.fail (t.move_unexpected ρ "expression")
  unfold Moves
  rw [List.map_cons]
  rcases calls with _ | ⟨c, calls⟩
  · rw [List.map_nil, readInfix_comma_nil hk', readInfix_comma_nil hk]
    exact hunexpected
  · rw [List.map_cons, readInfix_comma hk', readInfix_comma hk, apply_ite (Reading.move ρ), apply_ite (Reading.move ρ)]
    refine ite_congr rfl (fun _ => hunexpected) fun _ => ite_congr rfl (fun _ => rfl) fun _ => ?_
    rw [← ih {} _ ts le_rfl, Frame.expression_move]
    rfl

theorem Relocation.moves_closing (hk : t.kind = .mark .rparen) : ρ.Moves lookup stop f calls (t :: ts) := by
  have hk' : (t.move ρ).kind = _ := hk
  unfold Moves
  rw [List.map_cons]
  by_cases hdepth : f.depth > 0
  · have hdepth' : (f.move ρ).depth > 0 := hdepth
    rw [readInfix_closing hk' hdepth', readInfix_closing hk hdepth, apply_ite (Reading.move ρ)]
    refine ite_congr rfl (fun _ => rfl) fun _ => ?_
    rw [← ih _ calls ts le_rfl, ← Frame.push_depth_move]
    rfl
  · have hdepth' : ¬ (f.move ρ).depth > 0 := hdepth
    rcases calls with _ | ⟨c, calls⟩
    · rw [List.map_nil, readInfix_unopened hk' hdepth', readInfix_unopened hk hdepth, apply_ite (Reading.move ρ)]
      rfl
    · rw [List.map_cons, readInfix_callEnd hk' hdepth', readInfix_callEnd hk hdepth, apply_ite (Reading.move ρ)]
      refine ite_congr rfl (fun _ => rfl) fun _ => ?_
      rw [← ih _ calls ts le_rfl, ← OpenCall.finish_move, Frame.expression_move]
      rfl

theorem Relocation.moves_number {text : String} (hk : t.kind = .number text) :
    ρ.Moves lookup stop f calls (t :: ts) := by
  have hk' : (t.move ρ).kind = _ := hk
  unfold Moves
  rw [List.map_cons, readInfix_number hk', readInfix_number hk, apply_ite (Reading.move ρ)]
  refine ite_congr rfl (fun _ => rfl) fun _ => ?_
  cases Text.ofDecimal? (UInt64.size / 2) text.toList with
  | none => rfl
  | some n =>
    dsimp only
    rw [← ih _ calls ts le_rfl, ← Frame.push_move]
    rfl

theorem Relocation.moves_name {text : String} (hk : t.kind = .name text) : ρ.Moves lookup stop f calls (t :: ts) := by
  have hk' : (t.move ρ).kind = _ := hk
  unfold Moves
  rw [List.map_cons]
  rcases call_cases ts with ⟨l, r, rest, rfl, hl, hr⟩ | ⟨l, rest, rfl, hl, hclose⟩ | hopen
  · have hl' : (l.move ρ).kind = _ := hl
    have hr' : (r.move ρ).kind = _ := hr
    rw [List.map_cons, List.map_cons, readInfix_emptyCall hk' hl' hr', readInfix_emptyCall hk hl hr,
      apply_ite (Reading.move ρ)]
    refine ite_congr rfl (fun _ => rfl) fun _ => ?_
    rw [← ih _ calls rest (by simp; omega), ← OpenCall.finish_move]
    rfl
  · have hl' : (l.move ρ).kind = _ := hl
    rw [List.map_cons, readInfix_call hk' hl' ((head?_move ρ rest).symm ▸ hclose), readInfix_call hk hl hclose,
      apply_ite (Reading.move ρ)]
    refine ite_congr rfl (fun _ => rfl) fun _ => ?_
    rw [← ih {} _ rest (by simp)]
    rfl
  · rw [readInfix_var hk' ((head?_move ρ ts).symm ▸ hopen), readInfix_var hk hopen, apply_ite (Reading.move ρ),
      Relocation.lookup]
    refine ite_congr rfl (fun _ => rfl) fun _ => ?_
    cases lookup text with
    | none =>
      have hrest := ih (f.push .operand (.number 0) t.span) calls ts le_rfl
      rw [Moves, ← Frame.push_move] at hrest
      exact congrArg (Reading.note _) hrest
    | some id =>
      have hrest := ih (f.push .operand (.var id) t.span) calls ts le_rfl
      rw [Moves, ← Frame.push_move] at hrest
      exact hrest

end Moves

theorem readInfix_move (lookup : String → Option VarId) (stop : Token) (f : Frame) (calls : List OpenCall)
    (ts : List Token) : ρ.Moves lookup stop f calls ts := by
  induction hn : ts.length using Nat.strong_induction_on generalizing f calls ts with
  | _ n ih =>
  subst hn
  rcases ts with _ | ⟨t, ts⟩
  · exact (readFinish_move ρ stop f calls).trans (congrArg (Reading.move ρ) readInfix_nil.symm)
  have ih f calls us (hle : us.length ≤ ts.length) := ih us.length (Nat.lt_succ_of_le hle) f calls us rfl
  generalize hk : t.kind = k
  have hk' : (t.move ρ).kind = k := hk
  cases k.role with
  | comma => exact Relocation.moves_comma ih hk
  | closing => exact Relocation.moves_closing ih hk
  | number text => exact Relocation.moves_number ih hk
  | name text => exact Relocation.moves_name ih hk
  | opening =>
    rw [Relocation.Moves, List.map_cons, readInfix_opening hk', readInfix_opening hk, apply_ite (Reading.move ρ)]
    refine ite_congr rfl (fun _ => rfl) fun _ => ?_
    rw [← ih _ calls ts le_rfl, ← Frame.push_depth_move]
    rfl
  | complement =>
    rw [Relocation.Moves, List.map_cons, readInfix_complement hk', readInfix_complement hk,
      apply_ite (Reading.move ρ)]
    refine ite_congr rfl (fun _ => rfl) fun _ => ?_
    rw [← ih _ calls ts le_rfl, ← Frame.push_move]
    rfl
  | binary op hop =>
    rw [Relocation.Moves, List.map_cons, readInfix_binary (hk' ▸ hop), readInfix_binary (hk ▸ hop),
      apply_ite (Reading.move ρ)]
    refine ite_congr rfl (fun _ => rfl) fun _ => ?_
    rw [← ih _ calls ts le_rfl, ← Frame.push_move]
    rfl
  | assign =>
    rw [Relocation.Moves, List.map_cons, readInfix_assign hk', readInfix_assign hk]
    rfl
  | foreign hforeign =>
    rw [Relocation.Moves, List.map_cons, readInfix_foreign (hk' ▸ hforeign), readInfix_foreign (hk ▸ hforeign)]
    exact congrArg Reading.fail (t.move_unexpected ρ "expression")

theorem readTargets_move (lookup : String → Option VarId) (targets : List VarId) (ts : List Token) :
    readTargets (ρ.lookup lookup) (targets.map ρ.var) (ts.map (Token.move ρ)) =
      ((readTargets lookup targets ts).1.map (Diagnostic.move ρ), (readTargets lookup targets ts).2.1.map ρ.var,
        (readTargets lookup targets ts).2.2.map (Token.move ρ)) := by
  fun_induction readTargets lookup targets ts with
  | case1 targets text span span' rest id hid ih =>
    simp only [List.map_cons, Token.move, readTargets, Relocation.lookup, hid, Option.map_some]
    exact ih
  | case2 targets text span span' rest hid notes result hrest ih =>
    simp only [List.map_cons, Token.move, readTargets, Relocation.lookup, hid, Option.map_none]
    rw [ih, hrest]
    rfl
  | case3 targets ts hne =>
    rw [readTargets]
    · rfl
    · intro text span span' rest h
      obtain ⟨_, _, rfl, hrest⟩ := eq_cons_of_move h
      obtain ⟨_, _, rfl, -⟩ := eq_cons_of_move hrest
      exact hne _ _ _ _ rfl

theorem readExpression_move (lookup : String → Option VarId) (targets : List VarId) (start : Span) (c : Clause) :
    readExpression (ρ.lookup lookup) (targets.map ρ.var) (ρ.place start) (c.move ρ) =
      (readExpression lookup targets start c).move ρ := by
  unfold readExpression
  simp only [Clause.move_tokens, readTargets_move, Clause.move_stop]
  rw [show readInfix (ρ.lookup lookup) (c.stop.move ρ) {} [] _ = _ from
    readInfix_move ρ lookup c.stop {} [] (readTargets lookup targets c.tokens).2.2]
  cases h : (readInfix lookup c.stop {} [] (readTargets lookup targets c.tokens).2.2).result with
  | error d => simp [Reading.move, h, Except.map, Except.mapError]
  | ok e =>
    obtain ⟨items, span⟩ := e
    have hassign : ∀ ids, (assignAll ids).map (Item.move ρ) = assignAll (ids.map ρ.var) := by
      intro ids
      simp [assignAll, List.map_flatMap, List.flatMap_map, Item.move]
    simp [Reading.move, h, Except.map, Except.mapError, Expression.move, Expression.items, Expression.span, hassign]

end Expressions

section Statements

variable (ρ : Relocation)

/-- Behind others, a variable is what it was. -/
theorem Relocation.getD_var (vars : Array Variable) (id : VarId) :
    (ρ.front ++ vars).getD (ρ.var id) default = vars.getD id default := by
  rw [Array.getD_eq_getD_getElem?, Array.getD_eq_getD_getElem?, Relocation.var, Array.getElem?_append_right (by omega),
    Nat.add_sub_cancel]

theorem Relocation.size_append (vars : Array Variable) : (ρ.front ++ vars).size = ρ.var vars.size := by
  rw [Array.size_append, Relocation.var, Nat.add_comm]

@[simp] theorem Declarator.move_name (d : Declarator) : (d.move ρ).name = d.name := rfl

@[simp] theorem Declarator.move_span (d : Declarator) : (d.move ρ).span = ρ.place d.span := rfl

theorem Declarator.checkedWidth_move (d : Declarator) :
    (d.move ρ).checkedWidth = (d.checkedWidth.1, d.checkedWidth.2.map (Diagnostic.move ρ)) := by
  unfold Declarator.checkedWidth
  change (if d.width = 0 then _ else _) = _
  split_ifs <;> rfl

theorem Declarator.toVariable_move (d : Declarator) (storage : Storage) :
    (d.move ρ).toVariable storage = d.toVariable storage := by
  unfold Declarator.toVariable
  rw [d.checkedWidth_move]
  rfl

/-- What a statement leaves, moved. -/
def movedStep (r : Scope × List Diagnostic) : Scope × List Diagnostic :=
  (r.1.move ρ, r.2.map (Diagnostic.move ρ))

namespace Scope

theorem lookup_move (s : Scope) : (s.move ρ).lookup = ρ.lookup s.lookup := by
  funext name
  have hname : ((fun l => l.name == name) ∘ Local.move ρ) = fun l => l.name == name := rfl
  have hvar : ((fun id => ((ρ.front ++ s.vars).getD id default).name == name) ∘ ρ.var) =
      fun id => (s.vars.getD id default).name == name :=
    funext fun id => by simp only [Function.comp_apply, Relocation.getD_var]
  have hids : s.params.map ρ.var ++ [ρ.var s.result] = (s.params ++ [s.result]).map ρ.var := by simp
  simp only [Relocation.lookup, lookup, move, Array.find?_map, hname, hids, List.find?_map, hvar]
  cases s.locals.find? fun l => l.name == name <;> rfl

theorem declare_move (s : Scope) (d : Declarator) : (s.move ρ).declare (d.move ρ) = (s.declare d).move ρ := by
  simp only [declare, move, Array.map_push, d.toVariable_move, Array.append_push, ρ.size_append]
  rfl

theorem push_move (s : Scope) (st : Statement) : (s.move ρ).push (st.move ρ) = (s.push st).move ρ := by
  simp only [push, move, Array.map_push]

theorem keep_move (s : Scope) (stop : Token) (r : Reading) {f : Expression → Statement}
    (hf : ∀ e, f (e.move ρ) = (f e).move ρ) :
    (s.move ρ).keep (stop.move ρ) (r.move ρ) f = movedStep ρ (s.keep stop r f) := by
  obtain ⟨notes, result⟩ := r
  cases result with
  | error d => simp [keep, Reading.move, Except.map, Except.mapError, movedStep]
  | ok e =>
    simp only [keep, Reading.move, Except.map, Except.mapError, Token.move_kind, List.isEmpty_map, hf, push_move,
      Token.move_unexpected]
    split_ifs <;> simp [movedStep]

/-- A clause that is read as an expression and kept. -/
theorem keep_readExpression_move (s : Scope) (targets : List VarId) (start : Span) (c : Clause)
    {f : Expression → Statement} (hf : ∀ e, f (e.move ρ) = (f e).move ρ) :
    (s.move ρ).keep (c.stop.move ρ)
        (readExpression (s.move ρ).lookup (targets.map ρ.var) (ρ.place start) (c.move ρ)) f =
      movedStep ρ (s.keep c.stop (readExpression s.lookup targets start c) f) := by
  rw [lookup_move, readExpression_move]
  exact s.keep_move ρ c.stop _ hf

theorem declaration_move (s : Scope) (c : Clause) :
    (s.move ρ).declaration (c.move ρ) = movedStep ρ (s.declaration c) := by
  unfold declaration
  rw [Read.declarator_agrees c]
  cases Read.declarator c with
  | error d => rfl
  | ok p =>
    obtain ⟨decl, tokens, stop⟩ := p
    simp only [Read.movedResult, lookup_move, Relocation.lookup, Option.isSome_map, Declarator.move_name]
    split_ifs
    · rfl
    · rw [declare_move, Declarator.checkedWidth_move]
      split
      · rename_i span rest htokens
        obtain ⟨span', rest', rfl, rfl⟩ := eq_cons_of_move htokens
        have hkeep := (s.declare decl).keep_readExpression_move ρ [s.vars.size] decl.span ⟨rest', stop⟩
          (f := .eval) fun _ => rfl
        rw [List.map_singleton, ← ρ.size_append] at hkeep
        have hnotes := congrArg (decl.checkedWidth.2.map (Diagnostic.move ρ) ++ ·.2) hkeep
        refine Prod.ext ?_ ?_
        · exact (congrArg Prod.fst hkeep :)
        · exact hnotes.trans List.map_append.symm
      · rename_i hne
        rw [Read.stop_agrees]
        cases Read.stop [.mark .semicolon] "';'" ⟨tokens, stop⟩ with
        | ok p =>
          simp only [Read.movedResult]
          split
          · exact absurd rfl (hne _ _)
          · rfl
        | error d =>
          simp only [Read.movedResult]
          split
          · exact absurd rfl (hne _ _)
          · simp [movedStep]

theorem statement_move (s : Scope) (c : Clause) : (s.move ρ).statement (c.move ρ) = movedStep ρ (s.statement c) := by
  obtain ⟨tokens, stop⟩ := c
  cases tokens with
  | nil => rfl
  | cons t ts =>
    obtain ⟨kind, span⟩ := t
    have hother := s.keep_readExpression_move ρ [] span ⟨⟨kind, span⟩ :: ts, stop⟩ (f := .eval) fun _ => rfl
    cases kind with
    | keyword k =>
      cases k with
      | returns =>
        simp only [statement, Clause.move, List.map_cons, Token.move, List.isEmpty_map]
        split_ifs
        · exact congrArg (·, []) (s.push_move ρ (.ret none))
        · exact s.keep_readExpression_move ρ [s.result] span ⟨ts, stop⟩ fun _ => rfl
      | object | imports | and | or => exact hother
    | number text => exact s.declaration_move ρ _
    | mark | name | stray | finish => exact hother

theorem readAll_move (s : Scope) (cs : List Clause) :
    (s.move ρ).readAll (cs.map (Clause.move ρ)) = movedStep ρ (s.readAll cs) := by
  induction cs generalizing s with
  | nil => rfl
  | cons c cs ih => simp [readAll, statement_move, movedStep, ih]

end Scope
end Statements

section Packing

variable (ρ : Relocation)

/-- Variables that are declared somewhere, moved. -/
def movedPlaces (chosen : List (VarId × Span)) : List (VarId × Span) :=
  chosen.map fun v => (ρ.var v.1, ρ.place v.2)

theorem Relocation.modify_var (vars : Array Variable) (id : VarId) (f : Variable → Variable) :
    (ρ.front ++ vars).modify (ρ.var id) f = ρ.front ++ vars.modify id f := by
  refine Array.ext (by simp) fun i hi hi' => ?_
  simp only [Array.getElem_modify, Array.getElem_append, Relocation.var]
  split_ifs <;> first | rfl | omega

theorem packVariables_move (word : Word) (chosen : List (VarId × Span)) (vars : Array Variable) :
    packVariables word (movedPlaces ρ chosen) (ρ.front ++ vars) =
      ((packVariables word chosen vars).map fun p => (p.1, ρ.front ++ p.2)).mapError (Diagnostic.move ρ) := by
  have hwidths : (movedPlaces ρ chosen).map (fun v => ((ρ.front ++ vars).getD v.1 default).width) =
      chosen.map fun v => (vars.getD v.1 default).width := by
    simp only [movedPlaces, List.map_map, Function.comp_def, Relocation.getD_var]
  unfold packVariables
  simp only [hwidths]
  cases hpack : pack word.bits.toUInt32 (chosen.map fun v => (vars.getD v.1 default).width) with
  | error e =>
    obtain ⟨index, e⟩ := e
    have hindex : index < chosen.length := by simpa using pack_error_lt hpack
    have hplace : (movedPlaces ρ chosen).getD index (0, Span.origin) =
        (ρ.var (chosen.getD index (0, Span.origin)).1, ρ.place (chosen.getD index (0, Span.origin)).2) := by
      simp [movedPlaces, List.getD_eq_getElem?_getD, hindex]
    simp only [hplace, Relocation.getD_var]
    rfl
  | ok layout =>
    have hfold : ∀ (ps : List ((VarId × Span) × Slot)) (vars : Array Variable),
        ps.foldl (fun vs p => vs.modify (ρ.var p.1.1) fun v => { v with slot := p.2 }) (ρ.front ++ vars) =
          ρ.front ++ ps.foldl (fun vs p => vs.modify p.1.1 fun v => { v with slot := p.2 }) vars := by
      intro ps
      induction ps with
      | nil => exact fun _ => rfl
      | cons p ps ih =>
        intro vars
        rw [List.foldl_cons, List.foldl_cons, ρ.modify_var, ih]
    simp only [movedPlaces, List.zip_map_left, List.foldl_map, Prod.map_fst, Prod.map_snd, id_eq, hfold]
    rfl

end Packing

section Methods

variable (ρ : Relocation)

theorem declareParams_move (vars : Array Variable) (declared : List (VarId × Span)) (ds : List Declarator) :
    declareParams (ρ.front ++ vars) (movedPlaces ρ declared) (ds.map (Declarator.move ρ)) =
      (ρ.front ++ (declareParams vars declared ds).1, movedPlaces ρ (declareParams vars declared ds).2.1,
        (declareParams vars declared ds).2.2.map (Diagnostic.move ρ)) := by
  induction ds generalizing vars declared with
  | nil => simp [declareParams, movedPlaces]
  | cons d ds ih =>
    have htaken : ((movedPlaces ρ declared).any fun v => ((ρ.front ++ vars).getD v.1 default).name == d.name) =
        declared.any fun v => (vars.getD v.1 default).name == d.name := by
      simp only [movedPlaces, List.any_map, Function.comp_def, Relocation.getD_var]
    have hnext : movedPlaces ρ ((vars.size, d.span) :: declared) =
        ((ρ.front ++ vars).size, ρ.place d.span) :: movedPlaces ρ declared := by
      rw [ρ.size_append]
      rfl
    simp only [List.map_cons, declareParams, Declarator.move_name, htaken, Declarator.toVariable_move]
    split_ifs
    · rw [ih]
      rfl
    · rw [Declarator.move_span, ← hnext, ← Array.append_push, ih, d.checkedWidth_move]
      simp

theorem readBody_move (word : Word) (scope : Scope) (block : Block) :
    readBody word (scope.move ρ) (block.move ρ) = (ρ.front ++ (readBody word scope block).1,
      (readBody word scope block).2.1.map (Diagnostic.move ρ), (readBody word scope block).2.2.map (Body.move ρ)) := by
  obtain ⟨clauses, close⟩ := block
  have hlocals : ((scope.readAll clauses).1.move ρ).locals.toList.map (fun l => (l.id, l.span)) =
      movedPlaces ρ ((scope.readAll clauses).1.locals.toList.map fun l => (l.id, l.span)) := by
    simp [Scope.move, movedPlaces, Local.move]
  have hvars : ((scope.readAll clauses).1.move ρ).vars = ρ.front ++ (scope.readAll clauses).1.vars := rfl
  unfold readBody
  simp only [Block.move, Scope.readAll_move, movedStep, Token.move_kind]
  split_ifs
  · simp [Token.move_unexpected, hvars]
  · rename_i hclose
    rw [hlocals, hvars, packVariables_move]
    cases packVariables word ((scope.readAll clauses).1.locals.toList.map fun l => (l.id, l.span))
        (scope.readAll clauses).1.vars with
    | error d => simp [Except.map, Except.mapError]
    | ok p => simp [Except.map, Except.mapError, Scope.move, Body.move, Function.comp_def, Local.move]

/-- A method that is read from moved clauses behind other variables is the method moved. -/
theorem readMethod_move (word : Word) (vars : Array Variable) (heading : Heading) (block : Option Block) :
    readMethod word (ρ.front ++ vars) (heading.move ρ) (block.map (Block.move ρ)) =
      (readMethod word vars heading block).move ρ := by
  have hids : ∀ chosen, (movedPlaces ρ chosen).map (·.1) = (chosen.map (·.1)).map ρ.var := by
    intro chosen
    rw [movedPlaces, List.map_map, List.map_map]
    rfl
  have hparams : ∀ vars, declareParams (ρ.front ++ vars) [] (heading.params.map (Declarator.move ρ)) = _ :=
    fun vars => declareParams_move ρ vars [] heading.params
  unfold readMethod
  simp only [Heading.move, Declarator.toVariable_move, Declarator.checkedWidth_move, Declarator.move_name,
    Declarator.move_span, ← Array.append_push, hparams, hids, packVariables_move, ρ.size_append]
  split_ifs
  · simp [MethodReading.move, Diagnostic.move]
  · generalize declareParams (vars.push (heading.result.toVariable .result)) [] heading.params = ps
    cases packVariables word ps.2.1 ps.1 with
    | error d => simp [Except.map, Except.mapError, MethodReading.move]
    | ok p =>
      obtain ⟨layout, vars'⟩ := p
      simp only [Except.map, Except.mapError]
      cases block with
      | none => simp [MethodReading.move, Method.move]
      | some block =>
        let scope : Scope := { vars := vars', result := vars.size, params := ps.2.1.map (·.1) }
        have hscope : scope.move ρ =
            { vars := ρ.front ++ vars', result := ρ.var vars.size, params := (ps.2.1.map (·.1)).map ρ.var } := by
          simp [scope, Scope.move]
        have hbody := readBody_move ρ word scope block
        rw [hscope] at hbody
        simp only [Option.map_some]
        rw [hbody]
        simp [MethodReading.move, Method.move, Function.comp_def, scope]

end Methods
end Bitpack
