import Mathlib
import Bitpack.Proofs.WellFormed

/-! Every unit that is read from a text is well formed, whatever is wrong with the text. -/

namespace Bitpack

section Expressions

variable {scope : List VarId}

theorem readInfix_plain {lookup : String → Option VarId}
    (hlookup : ∀ name id, lookup name = some id → id ∈ scope) (stop : Token) (ts : List Token) {e : Expression}
    (h : (readInfix lookup stop {} [] ts).result = .ok e) : ∀ i ∈ e.items, i.Plain scope := by
  refine readInfix_ok (E := fun e => ∀ i ∈ e.items, i.Plain scope) ?_ stop {} [] ts .start
    (List.forall_mem_nil _) h
  intro items p span hitems _ i hi
  obtain ⟨q, hat⟩ := hitems.item (mem_of_mem_toPostfix hi)
  cases hat with
  | var hid => exact .var (hlookup _ _ hid)
  | number hn => exact .number hn
  | call hargs => exact .call hargs
  | complement => exact .operator (by decide)
  | binary _ hop => exact .operator hop
  | opening => exact .opening
  | closing => exact .closing

theorem readTargets_eq_append {lookup : String → Option VarId}
    (hlookup : ∀ name id, lookup name = some id → id ∈ scope) (targets : List VarId) (ts : List Token) :
    ∃ new, (readTargets lookup targets ts).2.1 = new ++ targets ∧ ∀ id ∈ new, id ∈ scope := by
  fun_induction readTargets lookup targets ts with
  | case1 targets text span _ rest id hid ih =>
    obtain ⟨new, heq, hnew⟩ := ih
    refine ⟨new ++ [id], by rw [heq, List.append_assoc, List.singleton_append], ?_⟩
    exact List.forall_mem_append.2 ⟨hnew, List.forall_mem_singleton.2 (hlookup _ _ hid)⟩
  | case2 targets text span _ rest hid notes result heq ih =>
    rw [heq] at ih
    exact ih
  | case3 targets => exact ⟨[], rfl, List.forall_mem_nil _⟩

theorem readExpression_scoped {lookup : String → Option VarId}
    (hlookup : ∀ name id, lookup name = some id → id ∈ scope) {targets : List VarId} {start : Span}
    {c : Clause} (htargets : ∀ id ∈ targets, id ∈ scope) {e : Expression}
    (h : (readExpression lookup targets start c).result = .ok e) : e.Scoped scope := by
  obtain ⟨value, hr, rfl⟩ := readExpression_eq_ok h
  obtain ⟨new, heq, hnew⟩ := readTargets_eq_append hlookup targets c.tokens
  refine ⟨value.items, _, rfl, readInfix_plain hlookup c.stop _ hr, ?_⟩
  rw [heq]
  exact List.forall_mem_append.2 ⟨hnew, htargets⟩

end Expressions

section Bodies

theorem Declarator.toVariable_width_pos (d : Declarator) (storage : Storage) :
    0 < (d.toVariable storage).width := by
  unfold toVariable checkedWidth
  split_ifs with h
  · exact one_pos
  · exact Nat.pos_of_ne_zero h

/-- The variables that a scope knows. -/
def Scope.ids (s : Scope) : List VarId :=
  s.result :: s.params ++ s.locals.toList.map (·.id)

theorem Scope.ids_declare (s : Scope) (d : Declarator) : (s.declare d).ids = s.ids ++ [s.vars.size] := by
  simp [ids, declare]

/-- What a statement may assign to besides the targets that it names: a declaration its local, `return` the result. -/
def Statement.Implies (s : Scope) (targets : List VarId) : Statement → Prop
  | .eval _ => ∀ id ∈ targets, id ∈ s.locals.toList.map (·.id)
  | .ret _ => targets = [s.result]

theorem Statement.Implies.mem_ids {s : Scope} {targets : List VarId} {st : Statement} (h : st.Implies s targets) :
    ∀ id ∈ targets, id ∈ s.ids := by
  cases st with
  | eval e => exact fun id hid => List.mem_append_right _ (h id hid)
  | ret e =>
    rw [show targets = [s.result] from h, List.forall_mem_singleton]
    exact List.mem_append_left _ List.mem_cons_self

/-- A statement whose expression was read with the names of a scope. -/
def Statement.ReadIn (s : Scope) (st : Statement) : Prop :=
  ∀ e, st.expression? = some e → ∃ targets start c, st.Implies s targets ∧
    (readExpression s.lookup targets start c).result = .ok e

/-- The scope after one statement: it may add a statement. -/
def Scope.Keeps (s s' : Scope) : Prop :=
  s' = s ∨ ∃ st : Statement, st.ReadIn s ∧ s' = s.push st

/-- A scope that was reached from `start` by reading statements. -/
structure Scope.Sound (start s : Scope) : Prop where
  result : s.result = start.result
  params : s.params = start.params
  grows : Grows start.vars s.vars
  locals : ∀ l ∈ s.locals, start.vars.size ≤ l.id ∧ l.id < s.vars.size ∧
    (s.vars.getD l.id default).storage = .locals ∧ 0 < (s.vars.getD l.id default).width
  nodup : (s.locals.toList.map (·.id)).Nodup
  statements : ∀ st ∈ s.statements, st.Scoped s.ids
  evaluable : ∀ st ∈ s.statements, ∀ e, st.expression? = some e → e.Evaluable
  local_names : (s.locals.toList.map (·.name)).Nodup
  local_name : ∀ l ∈ s.locals, (s.vars.getD l.id default).name = l.name ∧
    ∀ id ∈ start.result :: start.params, (start.vars.getD id default).name ≠ l.name

namespace Scope

variable {start s : Scope}

theorem lookup_mem {name : String} {id : VarId} (h : s.lookup name = some id) : id ∈ s.ids := by
  unfold lookup at h
  unfold ids
  split at h
  · rename_i l hl
    cases h
    have hmem : l ∈ s.locals.toList := Array.mem_toList_iff.2 (Array.mem_of_find?_eq_some hl)
    exact List.mem_append_right _ (List.mem_map.2 ⟨l, hmem, rfl⟩)
  · have hmem := List.mem_of_find?_eq_some h
    rcases List.mem_append.1 hmem with hmem | hmem
    · exact List.mem_append_left _ (List.mem_cons_of_mem _ hmem)
    · rw [List.mem_singleton.1 hmem]
      exact List.mem_append_left _ List.mem_cons_self

theorem lookup_eq_none {name : String} : s.lookup name = none ↔ (∀ l ∈ s.locals, l.name ≠ name) ∧
    ∀ id ∈ s.result :: s.params, (s.vars.getD id default).name ≠ name := by
  unfold lookup
  cases hl : s.locals.find? (fun l => l.name == name) with
  | some l =>
    have hname := Array.find?_some hl
    have hmem := Array.mem_of_find?_eq_some hl
    simp only [reduceCtorEq, false_iff, not_and_or]
    exact .inl fun h => h l hmem (beq_iff_eq.1 hname)
  | none =>
    have hfree : ∀ l ∈ s.locals, l.name ≠ name := by simpa using hl
    have hsame : ∀ id, id ∈ s.params ++ [s.result] ↔ id ∈ s.result :: s.params := by simp [or_comm]
    simp only [List.find?_eq_none, hsame, beq_iff_eq]
    exact ⟨fun h => ⟨hfree, h⟩, fun h => h.2⟩

theorem keep_keeps (stop : Token) {r : Reading} {statement : Expression → Statement}
    (hr : ∀ e, r.result = .ok e → (statement e).ReadIn s) : s.Keeps (s.keep stop r statement).1 := by
  unfold keep
  split
  · exact .inl rfl
  · rename_i e he
    split_ifs
    · exact .inr ⟨statement e, hr e he, rfl⟩
    · exact .inl rfl
    · exact .inl rfl

/-- A declaration takes a free name, and the name is declared whatever becomes of the initial value. -/
theorem declaration_cases (s : Scope) (c : Clause) : (s.declaration c).1 = s ∨
    ∃ d : Declarator, s.lookup d.name = none ∧ (s.declare d).Keeps (s.declaration c).1 := by
  unfold declaration
  split
  · exact .inl rfl
  · rename_i d c' _
    split_ifs with hname
    · exact .inl rfl
    · refine .inr ⟨d, by simpa using hname, ?_⟩
      simp only
      split
      · refine keep_keeps _ fun e he e' he' => ?_
        cases he'
        refine ⟨_, _, _, ?_, he⟩
        intro id hid
        rw [List.mem_singleton.1 hid]
        simp [declare]
      · split <;> exact .inl rfl

/-- All that a statement can do to a scope: declare a variable with a free name, and add a statement. -/
theorem statement_cases (s : Scope) (c : Clause) : s.Keeps (s.statement c).1 ∨
    ∃ d : Declarator, s.lookup d.name = none ∧ (s.declare d).Keeps (s.statement c).1 := by
  unfold statement
  split
  · exact .inl (.inl rfl)
  · refine .inl ?_
    split_ifs
    · exact .inr ⟨.ret none, fun e he => (nomatch he), rfl⟩
    · refine keep_keeps _ fun e he e' he' => ?_
      cases he'
      exact ⟨_, _, _, rfl, he⟩
  · rcases s.declaration_cases c with h | h
    · exact .inl (.inl h)
    · exact .inr h
  · refine .inl (keep_keeps _ fun e he e' he' => ?_)
    cases he'
    exact ⟨_, _, _, List.forall_mem_nil _, he⟩

theorem Sound.declare (h : Sound start s) (hvalid : ∀ id ∈ start.result :: start.params, id < start.vars.size)
    {d : Declarator} (hname : s.lookup d.name = none) : Sound start (s.declare d) := by
  have hgrow := grows_push s.vars (d.toVariable .locals)
  have hnew : (s.declare d).vars.getD s.vars.size default = d.toVariable .locals := getD_push_size _ _
  have hold : ∀ l ∈ s.locals, (s.declare d).vars.getD l.id default = s.vars.getD l.id default :=
    fun l hl => hgrow.getD_eq l.id (h.locals l hl).2.1
  obtain ⟨hlocal, hother⟩ := lookup_eq_none.1 hname
  refine ⟨h.result, h.params, h.grows.trans hgrow, ?_, ?_, ?_, h.evaluable, ?_, ?_⟩
  · intro l hl
    rcases Array.mem_push.1 hl with hl | rfl
    · obtain ⟨h1, h2, h3⟩ := h.locals l hl
      rw [hold l hl]
      exact ⟨h1, lt_of_lt_of_le h2 hgrow.size_le, h3⟩
    · rw [hnew]
      exact ⟨h.grows.size_le, by simp [Scope.declare], rfl, d.toVariable_width_pos .locals⟩
  · have hfresh : s.vars.size ∉ s.locals.toList.map (·.id) := by
      intro hmem
      obtain ⟨l, hl, heq⟩ := List.mem_map.1 hmem
      have hlt := (h.locals l (Array.mem_toList_iff.1 hl)).2.1
      exact absurd heq hlt.ne
    simpa [Scope.declare, List.nodup_append, h.nodup] using hfresh
  · intro st hst
    refine (h.statements st hst).mono ?_
    intro id hid
    rw [ids_declare]
    exact List.mem_append_left _ hid
  · simpa [Scope.declare, List.nodup_append, h.local_names] using hlocal
  · intro l hl
    rcases Array.mem_push.1 hl with hl | rfl
    · rw [hold l hl]
      exact h.local_name l hl
    · rw [hnew]
      refine ⟨rfl, fun id hid => ?_⟩
      rw [← h.grows.getD_eq id (hvalid id hid)]
      exact hother id (by rw [h.result, h.params]; exact hid)

theorem Sound.keeps (h : Sound start s) {s' : Scope} (hs : s.Keeps s') : Sound start s' := by
  rcases hs with rfl | ⟨st, hst, rfl⟩
  · exact h
  · refine ⟨h.result, h.params, h.grows, h.locals, h.nodup, ?_, ?_, h.local_names, h.local_name⟩
    · intro st' hst'
      rcases Array.mem_push.1 hst' with hst' | rfl
      · exact h.statements st' hst'
      · intro e he
        obtain ⟨targets, span, c, htargets, hread⟩ := hst e he
        exact readExpression_scoped (fun _ _ => lookup_mem) htargets.mem_ids hread
    · intro st' hst'
      rcases Array.mem_push.1 hst' with hst' | rfl
      · exact h.evaluable st' hst'
      · intro e he
        obtain ⟨targets, span, c, -, hread⟩ := hst e he
        exact readExpression_evaluable hread

theorem Sound.statement (h : Sound start s) (hvalid : ∀ id ∈ start.result :: start.params, id < start.vars.size)
    (c : Clause) : Sound start (s.statement c).1 := by
  rcases s.statement_cases c with hkeeps | ⟨d, hname, hkeeps⟩
  · exact h.keeps hkeeps
  · exact (h.declare hvalid hname).keeps hkeeps

theorem Sound.readAll (hvalid : ∀ id ∈ start.result :: start.params, id < start.vars.size) (cs : List Clause) :
    ∀ {s : Scope}, Sound start s → Sound start (s.readAll cs).1 := by
  induction cs with
  | nil => intro s h; exact h
  | cons c cs ih => intro s h; exact ih (h.statement hvalid c)

end Scope

end Bodies

section Methods

/-- Variables with the slots that were found for some of them. -/
def placeAll (vars : Array Variable) (ps : List ((VarId × Span) × Slot)) : Array Variable :=
  ps.foldl (fun vs p => vs.modify p.1.1 fun v => { v with slot := p.2 }) vars

theorem size_placeAll (ps : List ((VarId × Span) × Slot)) (vars : Array Variable) :
    (placeAll vars ps).size = vars.size := by
  induction ps generalizing vars with
  | nil => rfl
  | cons p ps ih => exact (ih _).trans Array.size_modify

theorem getD_placeAll_of_not_mem (ps : List ((VarId × Span) × Slot)) {id : VarId} (vars : Array Variable)
    (h : id ∉ ps.map (·.1.1)) : (placeAll vars ps).getD id default = vars.getD id default := by
  induction ps generalizing vars with
  | nil => rfl
  | cons p ps ih =>
    rw [List.map_cons, List.mem_cons, not_or] at h
    refine (ih _ h.2).trans ?_
    rw [Array.getD_eq_getD_getElem?, Array.getElem?_modify, if_neg (fun heq => h.1 heq.symm),
      ← Array.getD_eq_getD_getElem?]

theorem getD_placeAll_of_mem (ps : List ((VarId × Span) × Slot)) (vars : Array Variable)
    (hnodup : (ps.map (·.1.1)).Nodup) (hvalid : ∀ p ∈ ps, p.1.1 < vars.size) :
    ∀ p ∈ ps, (placeAll vars ps).getD p.1.1 default = { vars.getD p.1.1 default with slot := p.2 } := by
  induction ps generalizing vars with
  | nil => intro p hp; cases hp
  | cons q ps ih =>
    rw [List.map_cons, List.nodup_cons] at hnodup
    have hq := hvalid q List.mem_cons_self
    intro p hp
    rcases List.mem_cons.1 hp with rfl | hp
    · refine (getD_placeAll_of_not_mem ps _ hnodup.1).trans ?_
      simp [Array.getD_eq_getD_getElem?, Array.getElem_modify, hq]
    · have hne : p.1.1 ≠ q.1.1 := fun heq => hnodup.1 (List.mem_map.2 ⟨p, hp, heq⟩)
      refine (ih _ hnodup.2 ?_ p hp).trans ?_
      · intro p' hp'
        rw [Array.size_modify]
        exact hvalid p' (List.mem_cons_of_mem _ hp')
      · rw [Array.getD_eq_getD_getElem?, Array.getElem?_modify, if_neg hne.symm,
          ← Array.getD_eq_getD_getElem?]

theorem packVariables_placed {w : Word} {chosen : List (VarId × Span)} {vars vars' : Array Variable} {l : Layout}
    {storage : Storage} (h : packVariables w chosen vars = .ok (l, vars')) (hnodup : (chosen.map (·.1)).Nodup)
    (hvalid : ∀ v ∈ chosen, v.1 < vars.size)
    (hstorage : ∀ v ∈ chosen, (vars.getD v.1 default).storage = storage)
    (hpos : ∀ v ∈ chosen, 0 < (vars.getD v.1 default).width) :
    Placed w vars' storage (chosen.map (·.1)) l.groupCount ∧ vars'.size = vars.size ∧
      (∀ id, id ∉ chosen.map (·.1) → vars'.getD id default = vars.getD id default) ∧
      ∀ id, (vars'.getD id default).name = (vars.getD id default).name := by
  unfold packVariables at h
  simp only at h
  split at h
  · rename_i l' hl
    simp only [Except.ok.injEq, Prod.mk.injEq] at h
    obtain ⟨rfl, rfl⟩ := h
    have hp := pack_word hl
    have hlen : l'.slots.length = chosen.length := by simpa using hp.length
    have hfst : (chosen.zip l'.slots).map (·.1) = chosen := List.map_fst_zip hlen.ge
    have hids : (chosen.zip l'.slots).map (·.1.1) = chosen.map (·.1) := by
      rw [← hfst, List.map_map, hfst]
      rfl
    have hmem : ∀ p ∈ chosen.zip l'.slots, p.1 ∈ chosen := fun p hp => (List.of_mem_zip hp).1
    have hzip : l'.slots.zip (chosen.map fun v => (vars.getD v.1 default).width) =
        (chosen.zip l'.slots).map fun p => (p.2, (vars.getD p.1.1 default).width) := by
      rw [List.zip_map_right, ← List.zip_swap, List.map_map]
      rfl
    have hget := getD_placeAll_of_mem (chosen.zip l'.slots) vars (hids ▸ hnodup)
      fun p hp => hvalid _ (hmem p hp)
    have hsame : ∀ id, id ∉ chosen.map (·.1) →
        (placeAll vars (chosen.zip l'.slots)).getD id default = vars.getD id default :=
      fun id hid => getD_placeAll_of_not_mem _ _ (hids ▸ hid)
    change Placed w (placeAll vars (chosen.zip l'.slots)) _ _ _ ∧ (placeAll vars _).size = _ ∧ _ ∧
      ∀ id, ((placeAll vars (chosen.zip l'.slots)).getD id default).name = _
    refine ⟨⟨?_, ?_, ?_, ?_, ?_⟩, size_placeAll _ _, hsame, ?_⟩
    · intro id hid
      obtain ⟨v, hv, rfl⟩ := List.mem_map.1 hid
      rw [size_placeAll]
      exact hvalid v hv
    · intro id hid
      rw [← hids] at hid
      obtain ⟨p, hp, rfl⟩ := List.mem_map.1 hid
      rw [hget p hp]
      exact hstorage _ (hmem p hp)
    · intro id hid
      rw [← hids] at hid
      obtain ⟨p, hp, rfl⟩ := List.mem_map.1 hid
      rw [hget p hp]
      exact hpos _ (hmem p hp)
    · intro id hid
      rw [← hids] at hid
      obtain ⟨p, hpz, rfl⟩ := List.mem_map.1 hid
      rw [hget p hpz]
      exact hp.within _ (hzip ▸ List.mem_map.2 ⟨p, hpz, rfl⟩)
    · have hapart := hp.apart
      rw [hzip, List.pairwise_map] at hapart
      rw [← hids, List.pairwise_map]
      refine hapart.imp_of_mem ?_
      intro p q hpz hqz hpq
      rw [hget p hpz, hget q hqz]
      exact hpq
    · intro id
      by_cases hid : id ∈ chosen.map (·.1)
      · rw [← hids] at hid
        obtain ⟨p, hpz, rfl⟩ := List.mem_map.1 hid
        rw [hget p hpz]
      · rw [hsame id hid]
  · cases h

theorem Grows.of_placed {base vars vars' : Array Variable} {ids : List VarId} (h : Grows base vars)
    (hsize : vars'.size = vars.size) (hnew : ∀ id ∈ ids, base.size ≤ id)
    (heq : ∀ id, id ∉ ids → vars'.getD id default = vars.getD id default) : Grows base vars' := by
  refine ⟨h.size_le.trans hsize.ge, ?_⟩
  intro id hid
  rw [heq id fun hmem => absurd (hnew id hmem) (by omega)]
  exact h.getD_eq id hid

/-- Parameters that were declared after the variables of `base`. -/
structure Declared (base vars : Array Variable) (ps : List (VarId × Span)) : Prop where
  grows : Grows base vars
  new : ∀ v ∈ ps, base.size ≤ v.1
  valid : ∀ v ∈ ps, v.1 < vars.size
  storage_eq : ∀ v ∈ ps, (vars.getD v.1 default).storage = .params
  width_pos : ∀ v ∈ ps, 0 < (vars.getD v.1 default).width
  nodup : (ps.map (·.1)).Nodup
  names : (ps.map fun v => (vars.getD v.1 default).name).Nodup

theorem Declared.nil (vars : Array Variable) : Declared vars vars [] :=
  ⟨Grows.refl _, by simp, by simp, by simp, by simp, List.nodup_nil, List.nodup_nil⟩

theorem Declared.push {base vars : Array Variable} {ps : List (VarId × Span)} (h : Declared base vars ps)
    {d : Declarator} (hname : ∀ v ∈ ps, (vars.getD v.1 default).name ≠ d.name) :
    Declared base (vars.push (d.toVariable .params)) ((vars.size, d.span) :: ps) := by
  have hgrow := grows_push vars (d.toVariable .params)
  have hold : ∀ v ∈ ps, (vars.push (d.toVariable .params)).getD v.1 default = vars.getD v.1 default :=
    fun v hv => hgrow.getD_eq _ (h.valid v hv)
  refine ⟨h.grows.trans hgrow, ?_, ?_, ?_, ?_, ?_, ?_⟩
  · intro v hv
    rcases List.mem_cons.1 hv with rfl | hv
    · exact h.grows.size_le
    · exact h.new v hv
  · intro v hv
    rcases List.mem_cons.1 hv with rfl | hv
    · simp
    · exact lt_of_lt_of_le (h.valid v hv) hgrow.size_le
  · intro v hv
    rcases List.mem_cons.1 hv with rfl | hv
    · rw [getD_push_size]
      rfl
    · rw [hold v hv]
      exact h.storage_eq v hv
  · intro v hv
    rcases List.mem_cons.1 hv with rfl | hv
    · rw [getD_push_size]
      exact d.toVariable_width_pos .params
    · rw [hold v hv]
      exact h.width_pos v hv
  · rw [List.map_cons, List.nodup_cons]
    refine ⟨?_, h.nodup⟩
    intro hmem
    obtain ⟨v, hv, heq⟩ := List.mem_map.1 hmem
    exact absurd heq (h.valid v hv).ne
  · rw [List.map_cons, List.nodup_cons, List.map_congr_left fun v hv => by rw [hold v hv], getD_push_size]
    refine ⟨?_, h.names⟩
    intro hmem
    obtain ⟨v, hv, heq⟩ := List.mem_map.1 hmem
    exact hname v hv heq

theorem Declared.reverse {base vars : Array Variable} {ps : List (VarId × Span)} (h : Declared base vars ps) :
    Declared base vars ps.reverse := by
  refine ⟨h.grows, ?_, ?_, ?_, ?_, ?_, ?_⟩
  · exact fun v hv => h.new v (List.mem_reverse.1 hv)
  · exact fun v hv => h.valid v (List.mem_reverse.1 hv)
  · exact fun v hv => h.storage_eq v (List.mem_reverse.1 hv)
  · exact fun v hv => h.width_pos v (List.mem_reverse.1 hv)
  · rw [List.map_reverse]
    exact List.nodup_reverse.2 h.nodup
  · rw [List.map_reverse]
    exact List.nodup_reverse.2 h.names

theorem declareParams_declared {base : Array Variable} (ds : List Declarator) :
    ∀ {vars : Array Variable} {ps : List (VarId × Span)}, Declared base vars ps →
      Declared base (declareParams vars ps ds).1 (declareParams vars ps ds).2.1 := by
  induction ds with
  | nil => intro vars ps h; exact h.reverse
  | cons d ds ih =>
    intro vars ps h
    rw [declareParams]
    split_ifs with htaken
    · exact ih h
    · exact ih (h.push (by simpa using htaken))

/-- A body that was read after the variables of `start`. -/
structure Body.WellFormed (w : Word) (start : Scope) (vars : Array Variable) (b : Body) : Prop where
  placed : Placed w vars .locals b.localIds b.groupCount
  new : ∀ id ∈ b.localIds, start.vars.size ≤ id
  nodup : b.localIds.Nodup
  statements : ∀ st ∈ b.statements, st.Scoped (start.result :: start.params ++ b.localIds)
  evaluable : ∀ st ∈ b.statements, ∀ e, st.expression? = some e → e.Evaluable
  names : (b.locals.map (·.1)).Nodup
  name : ∀ l ∈ b.locals, (vars.getD l.2 default).name = l.1 ∧
    ∀ id ∈ start.result :: start.params, (start.vars.getD id default).name ≠ l.1

theorem Scope.sound_readAll {start : Scope} (hstart : start.locals = #[] ∧ start.statements = #[])
    (hvalid : ∀ id ∈ start.result :: start.params, id < start.vars.size) (clauses : List Clause) :
    Scope.Sound start (start.readAll clauses).1 := by
  refine Scope.Sound.readAll hvalid _ ⟨rfl, rfl, .refl _, ?_, ?_, ?_, ?_, ?_, ?_⟩
  · rw [hstart.1]; simp
  · rw [hstart.1]; exact List.nodup_nil
  · rw [hstart.2]; simp
  · rw [hstart.2]; simp
  · rw [hstart.1]; exact List.nodup_nil
  · rw [hstart.1]; simp

theorem readBody_wellFormed (w : Word) (start : Scope) (hstart : start.locals = #[] ∧ start.statements = #[])
    (hvalid : ∀ id ∈ start.result :: start.params, id < start.vars.size) (block : Block) :
    Grows start.vars (readBody w start block).1 ∧
      ∀ b, (readBody w start block).2.2 = some b → b.WellFormed w start (readBody w start block).1 := by
  have hsound := Scope.sound_readAll hstart hvalid block.clauses
  unfold readBody
  simp only
  split_ifs
  · exact ⟨hsound.grows, fun b hb => nomatch hb⟩
  split
  · exact ⟨hsound.grows, fun b hb => nomatch hb⟩
  rename_i l vars hpack
  generalize (start.readAll block.clauses).1 = s at hsound hpack ⊢
  have hids : (s.locals.toList.map fun l => (l.id, l.span)).map (·.1) = s.locals.toList.map (·.id) := by
    rw [List.map_map]
    rfl
  have hlocal : ∀ v ∈ s.locals.toList.map fun l => (l.id, l.span), v.1 < s.vars.size ∧
      (s.vars.getD v.1 default).storage = .locals ∧ 0 < (s.vars.getD v.1 default).width := by
    intro v hv
    obtain ⟨l, hl, rfl⟩ := List.mem_map.1 hv
    exact (hsound.locals l (Array.mem_toList_iff.1 hl)).2
  obtain ⟨hplaced, hsize, hsame, hnames⟩ := packVariables_placed hpack (by rw [hids]; exact hsound.nodup)
    (fun v hv => (hlocal v hv).1) (fun v hv => (hlocal v hv).2.1) (fun v hv => (hlocal v hv).2.2)
  rw [hids] at hplaced hsame
  have hnew : ∀ id ∈ s.locals.toList.map (·.id), start.vars.size ≤ id := by
    intro id hid
    obtain ⟨l, hl, rfl⟩ := List.mem_map.1 hid
    exact (hsound.locals l (Array.mem_toList_iff.1 hl)).1
  refine ⟨hsound.grows.of_placed hsize hnew hsame, ?_⟩
  intro b hb
  cases hb
  have hb : (s.locals.toList.map fun l => (l.name, l.id)).map (·.2) = s.locals.toList.map (·.id) := by
    rw [List.map_map]
    rfl
  refine ⟨?_, ?_, ?_, ?_, ?_, ?_, ?_⟩
  · rw [Body.localIds, hb]
    exact hplaced
  · rw [Body.localIds, hb]
    exact hnew
  · rw [Body.localIds, hb]
    exact hsound.nodup
  · intro st hst
    rw [Body.localIds, hb, ← hsound.result, ← hsound.params]
    exact hsound.statements st (Array.mem_toList_iff.1 hst)
  · exact fun st hst => hsound.evaluable st (Array.mem_toList_iff.1 hst)
  · rw [List.map_map]
    exact hsound.local_names
  · intro v hv
    obtain ⟨l, hl, rfl⟩ := List.mem_map.1 hv
    rw [hnames]
    exact hsound.local_name l (Array.mem_toList_iff.1 hl)

theorem Method.WellFormed.withBody {w : Word} {start : Scope} {vars : Array Variable} {m : Method} {b : Body}
    (h : m.WellFormed w start.vars) (hresult : m.result = start.result) (hparams : m.params = start.params)
    (hnone : m.body = none) (hgrow : Grows start.vars vars) (hb : b.WellFormed w start vars) :
    Method.WellFormed w vars { m with body := some b } := by
  have hm := h.grows hgrow
  have hscope : m.scope = start.result :: start.params := by
    rw [Method.scope, hnone, hresult, hparams]
    simp
  have hname : ∀ l ∈ b.locals, l.1 ≠ m.name := by
    intro l hl
    rw [← h.result_name, hresult]
    exact ((hb.name l hl).2 _ List.mem_cons_self).symm
  have hparam : ∀ id ∈ m.params, vars.getD id default = start.vars.getD id default :=
    fun id hid => hgrow.getD_eq id (h.params.valid id hid)
  refine ⟨hm.result_valid, hm.result_storage, hm.result_pos, hm.result_le, hm.params, ?_, ?_, ?_, ?_,
    hm.result_name, hm.param_names, ?_, ?_⟩
  · rintro _ ⟨⟩
    exact hb.placed
  · rintro _ ⟨⟩
    rw [Method.scope, hresult, hparams]
    exact hb.statements
  · rintro _ ⟨⟩
    exact hb.evaluable
  · change (m.result :: m.params ++ b.localIds).Nodup
    rw [hresult, hparams, ← hscope]
    refine List.nodup_append.2 ⟨h.nodup, hb.nodup, fun id hid id' hid' => ?_⟩
    exact ((h.scope_valid hid).trans_le (hb.new id' hid')).ne
  · rintro _ ⟨⟩
    exact hb.names
  · rintro _ ⟨⟩ l hl
    refine ⟨(hb.name l hl).1, hname l hl, fun id hid => ?_⟩
    rw [hparam id hid]
    exact (hb.name l hl).2 id (List.mem_cons_of_mem _ (hparams ▸ hid))

/-- A method that is kept has new variables only: first its result, then its parameters, then its locals. -/
theorem readMethod_wellFormed (w : Word) (vars : Array Variable) (heading : Heading) (block : Option Block) :
    Grows vars (readMethod w vars heading block).vars ∧
      ∀ m, (readMethod w vars heading block).method = some m →
        m.WellFormed w (readMethod w vars heading block).vars ∧ ∀ id ∈ m.scope, vars.size ≤ id := by
  have hpush := grows_push vars (heading.result.toVariable .result)
  unfold readMethod
  simp only
  split_ifs with hwide
  · exact ⟨hpush, fun m hm => nomatch hm⟩
  have hdecl := declareParams_declared heading.params (.nil (vars.push (heading.result.toVariable .result)))
  generalize declareParams _ _ _ = declared at hdecl ⊢
  obtain ⟨vars₁, params, notes⟩ := declared
  simp only at hdecl ⊢
  split
  · exact ⟨hpush.trans hdecl.grows, fun m hm => nomatch hm⟩
  rename_i l vars₂ hpack
  obtain ⟨hplaced, hsize, hsame, hnames⟩ := packVariables_placed hpack hdecl.nodup hdecl.valid hdecl.storage_eq
    hdecl.width_pos
  have hparams : ∀ id ∈ params.map (·.1), vars.size + 1 ≤ id := by
    intro id hid
    obtain ⟨v, hv, rfl⟩ := List.mem_map.1 hid
    simpa using hdecl.new v hv
  have hgrow : Grows (vars.push (heading.result.toVariable .result)) vars₂ :=
    hdecl.grows.of_placed hsize (by simpa using hparams) hsame
  -- The result variable comes first, so that nothing declared or packed later changes it.
  have hresult : vars₂.getD vars.size default = heading.result.toVariable .result := by
    rw [hgrow.getD_eq vars.size (by simp), getD_push_size]
  have hfirst : vars.size < vars₂.size := lt_of_lt_of_le (by simp) hgrow.size_le
  have hheads : (vars.size :: params.map (·.1)).Nodup := by
    refine List.nodup_cons.2 ⟨fun hmem => ?_, hdecl.nodup⟩
    exact absurd (hparams _ hmem) (by omega)
  have hplain : Method.WellFormed w vars₂ ⟨heading.result.name, heading.access, params.map (·.1), l.groupCount,
      l.totalBits, vars.size, heading.variadic, none, heading.result.span⟩ := by
    refine ⟨hfirst, ?_, ?_, ?_, hplaced, ?_, ?_, ?_, ?_, ?_, ?_, ?_, ?_⟩
    · rw [hresult]; rfl
    · rw [hresult]; exact heading.result.toVariable_width_pos .result
    · rw [hresult]; exact not_lt.1 hwide
    · exact fun b hb => nomatch hb
    · exact fun b hb => nomatch hb
    · exact fun b hb => nomatch hb
    · simpa [Method.scope] using hheads
    · rw [hresult]; rfl
    · simpa only [List.map_map, Function.comp_def, hnames] using hdecl.names
    · exact fun b hb => nomatch hb
    · exact fun b hb => nomatch hb
  have hnew : ∀ id ∈ vars.size :: params.map (·.1), vars.size ≤ id :=
    List.forall_mem_cons.2 ⟨le_rfl, fun id hid => (Nat.le_succ _).trans (hparams id hid)⟩
  cases block with
  | none =>
    refine ⟨hpush.trans hgrow, ?_⟩
    intro m hm
    cases hm
    refine ⟨hplain, fun id hid => hnew id ?_⟩
    simpa [Method.scope] using hid
  | some block =>
    obtain ⟨hgrow', hbody⟩ := readBody_wellFormed w
      { vars := vars₂, result := vars.size, params := params.map (·.1) } ⟨rfl, rfl⟩
      (List.forall_mem_cons.2 ⟨hfirst, hplaced.valid⟩) block
    refine ⟨(hpush.trans hgrow).trans hgrow', ?_⟩
    intro m hm
    obtain ⟨b, hb, rfl⟩ := Option.map_eq_some_iff.1 hm
    refine ⟨hplain.withBody rfl rfl rfl hgrow' (hbody b hb), ?_⟩
    intro id hid
    rcases List.mem_append.1 hid with hid | hid
    · exact hnew id hid
    · exact hfirst.le.trans ((hbody b hb).new id hid)

end Methods

section Units

theorem SourceUnit.wellFormed_of_empty {u : SourceUnit} (h : u.methods = #[]) : u.WellFormed := by
  refine ⟨?_, ?_, ?_⟩ <;> rw [h]
  · simp
  · exact List.nodup_nil
  · exact List.Pairwise.nil

theorem Draft.insert_wellFormed {d : Draft} {m : Method} (hd : d.unit.WellFormed)
    (hm : m.WellFormed d.unit.word d.unit.vars) (hnew : ∀ m' ∈ d.unit.methods, m'.scope.Disjoint m.scope) :
    (d.insert m).unit.WellFormed := by
  unfold Draft.insert
  split_ifs with hsome
  · exact hd
  have hnone : ∀ m' ∈ d.unit.methods, m'.name ≠ m.name := by
    simpa [SourceUnit.method?] using hsome
  refine ⟨?_, ?_, ?_⟩
  · intro m' hm'
    rcases Array.mem_push.1 hm' with hm' | rfl
    · exact hd.methods m' hm'
    · exact hm
  · rw [Array.toList_push, List.map_append, List.nodup_append]
    refine ⟨hd.names, by simp, ?_⟩
    intro a ha b hb
    obtain ⟨m', hm', rfl⟩ := List.mem_map.1 ha
    obtain rfl : b = m.name := by simpa using hb
    exact hnone m' (Array.mem_toList_iff.1 hm')
  · rw [Array.toList_push, List.pairwise_append]
    refine ⟨hd.disjoint, List.pairwise_singleton _ _, ?_⟩
    intro m' hm' m'' hm''
    obtain rfl := List.mem_singleton.1 hm''
    exact hnew m' (Array.mem_toList_iff.1 hm')

@[simp] theorem Draft.insert_word (d : Draft) (m : Method) : (d.insert m).unit.word = d.unit.word := by
  unfold Draft.insert
  split_ifs <;> rfl

theorem Draft.add_wellFormed {d : Draft} (hd : d.unit.WellFormed) (e : Entry) :
    (d.add e).unit.WellFormed ∧ (d.add e).unit.word = d.unit.word := by
  cases e with
  | imported name span => exact ⟨⟨hd.methods, hd.names, hd.disjoint⟩, rfl⟩
  | broken faults => exact ⟨hd, rfl⟩
  | method notes heading block =>
    obtain ⟨hgrow, hmethod⟩ := readMethod_wellFormed d.unit.word d.unit.vars heading block
    have hd' : ({ d.unit with vars := (readMethod d.unit.word d.unit.vars heading block).vars } :
        SourceUnit).WellFormed := ⟨fun m hm => (hd.methods m hm).grows hgrow, hd.names, hd.disjoint⟩
    rw [Draft.add]
    simp only
    split
    · rename_i m hm
      obtain ⟨hwf, hnew⟩ := hmethod m hm
      refine ⟨Draft.insert_wellFormed hd' hwf ?_, by rw [Draft.insert_word]⟩
      intro m' hm' id hid hid'
      exact absurd ((hd.methods m' hm').scope_valid hid) (not_lt.2 (hnew id hid'))
    · exact ⟨hd', rfl⟩

theorem Draft.addAll_wellFormed (es : List Entry) : ∀ {d : Draft}, d.unit.WellFormed →
    (d.addAll es).unit.WellFormed ∧ (d.addAll es).unit.word = d.unit.word := by
  induction es with
  | nil => intro d hd; exact ⟨hd, rfl⟩
  | cons e es ih =>
    intro d hd
    rw [Draft.addAll]
    split_ifs
    · exact ⟨hd, rfl⟩
    · obtain ⟨hadd, hword⟩ := Draft.add_wellFormed hd e
      rw [← hword]
      exact ih hadd

theorem Draft.header_wellFormed (w : Word) (finish : Token) (ts : List Token) :
    (Draft.header w finish ts).1.unit.WellFormed ∧ (Draft.header w finish ts).1.unit.word = w := by
  unfold Draft.header
  split
  · simp only
    split
    · exact ⟨SourceUnit.wellFormed_of_empty rfl, rfl⟩
    · exact ⟨SourceUnit.wellFormed_of_empty rfl, rfl⟩
  · exact ⟨SourceUnit.wellFormed_of_empty rfl, rfl⟩

/-- Whatever a text says, the methods of its unit have variables of their own, packed into words of the
chosen width, and their statements can be evaluated and name these variables only. -/
theorem SourceUnit.ofText_wellFormed (w : Word) (src : String) :
    (SourceUnit.ofText w src).1.WellFormed ∧ (SourceUnit.ofText w src).1.word = w := by
  unfold SourceUnit.ofText
  split_ifs
  · exact ⟨SourceUnit.wellFormed_of_empty rfl, rfl⟩
  · obtain ⟨hheader, hword⟩ := Draft.header_wellFormed w (Token.finishOf src) (Token.scan src)
    obtain ⟨hall, hword'⟩ := Draft.addAll_wellFormed
      (Entry.split (Token.finishOf src) (Draft.header w (Token.finishOf src) (Token.scan src)).2) hheader
    exact ⟨hall, hword'.trans hword⟩

end Units

section Persistence

/-- A property of methods that holds of each one when it has been read, and still holds when variables are added. -/
structure Method.Persistent (w : Word) (P : Array Variable → Method → Prop) : Prop where
  read : ∀ {vars heading block m}, (readMethod w vars heading block).method = some m →
    P (readMethod w vars heading block).vars m
  grows : ∀ {vars vars' m}, m.WellFormed w vars → P vars m → Grows vars vars' → P vars' m

variable {P : Array Variable → Method → Prop} {d : Draft}

theorem Draft.add_methods (hP : Method.Persistent d.unit.word P) (hwf : d.unit.WellFormed)
    (hd : ∀ m ∈ d.unit.methods, P d.unit.vars m) (e : Entry) :
    ∀ m ∈ (d.add e).unit.methods, P (d.add e).unit.vars m := by
  cases e with
  | imported name span => exact hd
  | broken faults => exact hd
  | method notes heading block =>
    obtain ⟨hvars, -⟩ := readMethod_wellFormed d.unit.word d.unit.vars heading block
    have hd' : ∀ m ∈ d.unit.methods, P (readMethod d.unit.word d.unit.vars heading block).vars m :=
      fun m hm => hP.grows (hwf.methods m hm) (hd m hm) hvars
    rw [Draft.add]
    simp only
    split
    · rename_i m hm
      unfold Draft.insert
      split_ifs
      · exact hd'
      · intro m' hm'
        rcases Array.mem_push.1 hm' with hm' | rfl
        · exact hd' m' hm'
        · exact hP.read hm
    · exact hd'

theorem Draft.addAll_methods (es : List Entry) : ∀ {d : Draft}, Method.Persistent d.unit.word P → d.unit.WellFormed →
    (∀ m ∈ d.unit.methods, P d.unit.vars m) → ∀ m ∈ (d.addAll es).unit.methods, P (d.addAll es).unit.vars m := by
  induction es with
  | nil => exact fun _ _ hd => hd
  | cons e es ih =>
    intro d hP hwf hd
    obtain ⟨hwf', hword⟩ := Draft.add_wellFormed hwf e
    rw [Draft.addAll]
    split_ifs
    · exact hd
    · exact ih (hword ▸ hP) hwf' (Draft.add_methods hP hwf hd e)

theorem Draft.header_methods (w : Word) (finish : Token) (ts : List Token) :
    (Draft.header w finish ts).1.unit.methods = #[] := by
  unfold Draft.header
  split
  · simp only
    split <;> rfl
  · rfl

theorem SourceUnit.ofText_methods {w : Word} (hP : Method.Persistent w P) (src : String) :
    ∀ m ∈ (SourceUnit.ofText w src).1.methods, P (SourceUnit.ofText w src).1.vars m := by
  unfold SourceUnit.ofText
  split_ifs
  · intro m hm
    simp at hm
  · obtain ⟨hwf, hword⟩ := Draft.header_wellFormed w (Token.finishOf src) (Token.scan src)
    have hnone : ∀ m ∈ (Draft.header w (Token.finishOf src) (Token.scan src)).1.unit.methods,
        P (Draft.header w (Token.finishOf src) (Token.scan src)).1.unit.vars m := by
      rw [Draft.header_methods]
      simp
    exact Draft.addAll_methods
      (Entry.split (Token.finishOf src) (Draft.header w (Token.finishOf src) (Token.scan src)).2)
      (hword.symm ▸ hP) hwf hnone

end Persistence
end Bitpack
