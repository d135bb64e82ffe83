import Mathlib
import Bitpack.Reading.Unit
import Bitpack.Proofs.Packing
import Bitpack.Proofs.Postfix

/-! What later stages may rely on in a unit: packed variables lie in their words and apart from each other,
each method has variables and names of its own, and expressions can be evaluated and read and assign only
variables of their own method. Variables are only ever added to a unit, and a method keeps what was
found true of it. -/

namespace Bitpack

/-- An item that assigns to nothing and reads variables of a scope only. -/
inductive Item.Plain (scope : List VarId) : Item → Prop
  | var {id : VarId} (h : id ∈ scope) : Plain scope (.var id)
  | number {n : ℕ} (h : n < 2 ^ 63) : Plain scope (.number n)
  | operator {op : Operator} (h : op ≠ .assign) : Plain scope (.operator op)
  | call {name : String} {args : List Expression} {span : Span}
      (h : ∀ a ∈ args, ∀ i ∈ a.items, Plain scope i) : Plain scope (.call name args span)
  | opening : Plain scope .opening
  | closing : Plain scope .closing

theorem Item.Plain.mono {scope scope' : List VarId} (hs : ∀ id ∈ scope, id ∈ scope') {i : Item}
    (h : i.Plain scope) : i.Plain scope' := by
  induction h with
  | var h => exact .var (hs _ h)
  | number h => exact .number h
  | operator h => exact .operator h
  | call _ ih => exact .call ih
  | opening => exact .opening
  | closing => exact .closing

/-- A value followed by the targets that it is assigned to. -/
def Expression.Scoped (scope : List VarId) (e : Expression) : Prop :=
  ∃ value targets, e.items = value ++ assignAll targets ∧ (∀ i ∈ value, i.Plain scope) ∧
    ∀ id ∈ targets, id ∈ scope

theorem Expression.Scoped.mono {scope scope' : List VarId} (hs : ∀ id ∈ scope, id ∈ scope') {e : Expression}
    (h : e.Scoped scope) : e.Scoped scope' := by
  obtain ⟨value, targets, hitems, hvalue, htargets⟩ := h
  exact ⟨value, targets, hitems, fun i hi => (hvalue i hi).mono hs, fun id hid => hs id (htargets id hid)⟩

def Item.isAssign : Item → Bool
  | .operator .assign => true
  | _ => false

theorem Expression.Scoped.item {scope : List VarId} {e : Expression} (h : e.Scoped scope) {i : Item}
    (hi : i ∈ e.items) : i.Plain scope ∨ i.isAssign := by
  obtain ⟨value, targets, hitems, hvalue, htargets⟩ := h
  rw [hitems, List.mem_append] at hi
  rcases hi with hi | hi
  · exact Or.inl (hvalue i hi)
  · obtain ⟨id, hid, hi⟩ := List.mem_flatMap.1 hi
    rcases List.mem_cons.1 hi with rfl | hi
    · exact Or.inl (.var (htargets id hid))
    · obtain rfl := List.mem_singleton.1 hi
      exact Or.inr rfl

namespace Statement

def expression? : Statement → Option Expression
  | .eval e => some e
  | .ret e => e

def Scoped (scope : List VarId) (st : Statement) : Prop :=
  ∀ e, st.expression? = some e → e.Scoped scope

theorem Scoped.mono {scope scope' : List VarId} (hs : ∀ id ∈ scope, id ∈ scope') {st : Statement}
    (h : st.Scoped scope) : st.Scoped scope' :=
  fun e he => (h e he).mono hs

end Statement

/-- Variables of one kind of storage, packed into `groups` words. -/
structure Placed (w : Word) (vars : Array Variable) (storage : Storage) (ids : List VarId)
    (groups : ℕ) : Prop where
  valid : ∀ id ∈ ids, id < vars.size
  storage_eq : ∀ id ∈ ids, (vars.getD id default).storage = storage
  width_pos : ∀ id ∈ ids, 0 < (vars.getD id default).width
  within : ∀ id ∈ ids, (vars.getD id default).slot.group < groups ∧
    (vars.getD id default).slot.offset + (vars.getD id default).width ≤ w.bits
  apart : ids.Pairwise fun a b => (vars.getD a default).slot.Apart (vars.getD a default).width
    (vars.getD b default).slot (vars.getD b default).width

namespace Body

def localIds (b : Body) : List VarId :=
  b.locals.map (·.2)

end Body

namespace Method

/-- The variables that a body may name. -/
def scope (m : Method) : List VarId :=
  m.result :: m.params ++ (m.body.elim [] Body.localIds)

theorem mem_scope {m : Method} {id : VarId} : id ∈ m.scope ↔
    id = m.result ∨ id ∈ m.params ∨ ∃ b, m.body = some b ∧ id ∈ b.localIds := by
  unfold scope
  cases m.body <;> simp

structure WellFormed (w : Word) (vars : Array Variable) (m : Method) : Prop where
  result_valid : m.result < vars.size
  result_storage : (vars.getD m.result default).storage = .result
  result_pos : 0 < (vars.getD m.result default).width
  result_le : (vars.getD m.result default).width ≤ w.bits
  params : Placed w vars .params m.params m.paramGroups
  locals : ∀ b, m.body = some b → Placed w vars .locals b.localIds b.groupCount
  statements : ∀ b, m.body = some b → ∀ st ∈ b.statements, st.Scoped m.scope
  evaluable : ∀ b, m.body = some b → ∀ st ∈ b.statements, ∀ e, st.expression? = some e → e.Evaluable
  nodup : m.scope.Nodup
  result_name : (vars.getD m.result default).name = m.name
  param_names : (m.params.map fun id => (vars.getD id default).name).Nodup
  local_names : ∀ b, m.body = some b → (b.locals.map (·.1)).Nodup
  local_name : ∀ b, m.body = some b → ∀ l ∈ b.locals, (vars.getD l.2 default).name = l.1 ∧ l.1 ≠ m.name ∧
    ∀ id ∈ m.params, (vars.getD id default).name ≠ l.1

end Method

structure SourceUnit.WellFormed (u : SourceUnit) : Prop where
  methods : ∀ m ∈ u.methods, m.WellFormed u.word u.vars
  names : (u.methods.toList.map (·.name)).Nodup
  disjoint : u.methods.toList.Pairwise fun m m' => m.scope.Disjoint m'.scope

/-- Variables are added, and those that were there stay as they are. -/
structure Grows (vars vars' : Array Variable) : Prop where
  size_le : vars.size ≤ vars'.size
  getD_eq : ∀ id < vars.size, vars'.getD id default = vars.getD id default

theorem Grows.refl (vars : Array Variable) : Grows vars vars := ⟨le_rfl, fun _ _ => rfl⟩

theorem Grows.trans {a b c : Array Variable} (h1 : Grows a b) (h2 : Grows b c) : Grows a c :=
  ⟨h1.size_le.trans h2.size_le,
    fun id hid => (h2.getD_eq id (lt_of_lt_of_le hid h1.size_le)).trans (h1.getD_eq id hid)⟩

theorem grows_push (vars : Array Variable) (v : Variable) : Grows vars (vars.push v) := by
  refine ⟨by simp, fun id hid => ?_⟩
  rw [Array.getD_eq_getD_getElem?, Array.getElem?_push_lt hid, ← Array.getElem?_eq_getElem hid,
    ← Array.getD_eq_getD_getElem?]

theorem getD_push_size (vars : Array Variable) (v : Variable) : (vars.push v).getD vars.size default = v := by
  simp [Array.getD_eq_getD_getElem?]

theorem Placed.grows {w : Word} {vars vars' : Array Variable} {storage : Storage} {ids : List VarId} {groups : ℕ}
    (h : Placed w vars storage ids groups) (hg : Grows vars vars') : Placed w vars' storage ids groups := by
  have heq : ∀ id ∈ ids, vars'.getD id default = vars.getD id default :=
    fun id hid => hg.getD_eq id (h.valid id hid)
  refine ⟨fun id hid => lt_of_lt_of_le (h.valid id hid) hg.size_le, ?_, ?_, ?_, ?_⟩
  · intro id hid
    rw [heq id hid]
    exact h.storage_eq id hid
  · intro id hid
    rw [heq id hid]
    exact h.width_pos id hid
  · intro id hid
    rw [heq id hid]
    exact h.within id hid
  · apply h.apart.imp_of_mem
    intro a b ha hb hab
    rwa [heq a ha, heq b hb]

theorem Method.WellFormed.grows {w : Word} {vars vars' : Array Variable} {m : Method}
    (h : m.WellFormed w vars) (hg : Grows vars vars') : m.WellFormed w vars' := by
  have heq := hg.getD_eq m.result h.result_valid
  have hparam : ∀ id ∈ m.params, vars'.getD id default = vars.getD id default :=
    fun id hid => hg.getD_eq id (h.params.valid id hid)
  refine ⟨lt_of_lt_of_le h.result_valid hg.size_le, ?_, ?_, ?_, h.params.grows hg,
    fun b hb => (h.locals b hb).grows hg, h.statements, h.evaluable, h.nodup, ?_, ?_, h.local_names, ?_⟩
  · rw [heq]; exact h.result_storage
  · rw [heq]; exact h.result_pos
  · rw [heq]; exact h.result_le
  · rw [heq]; exact h.result_name
  · rw [List.map_congr_left fun id hid => by rw [hparam id hid]]
    exact h.param_names
  · intro b hb l hl
    obtain ⟨hname, hmethod, hne⟩ := h.local_name b hb l hl
    have hlocal := hg.getD_eq l.2 ((h.locals b hb).valid l.2 (List.mem_map.2 ⟨l, hl, rfl⟩))
    refine ⟨by rw [hlocal]; exact hname, hmethod, fun id hid => ?_⟩
    rw [hparam id hid]
    exact hne id hid

theorem Method.WellFormed.scope_valid {w : Word} {vars : Array Variable} {m : Method} (h : m.WellFormed w vars)
    {id : VarId} (hid : id ∈ m.scope) : id < vars.size := by
  unfold Method.scope at hid
  rcases List.mem_append.1 hid with hid | hid
  · rcases List.mem_cons.1 hid with rfl | hid
    · exact h.result_valid
    · exact h.params.valid id hid
  · cases hb : m.body with
    | none => rw [hb] at hid; cases hid
    | some b => rw [hb] at hid; exact (h.locals b hb).valid id hid

end Bitpack
