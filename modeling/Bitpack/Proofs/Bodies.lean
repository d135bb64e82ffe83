import Mathlib
import Bitpack.Compile
import Bitpack.Proofs.Assignment

/-! Whole bodies. After each statement, up to the one that returns, the variables of a method hold in C what
they hold in the source, if the source clears variables as the code does. -/

namespace Bitpack

open C (Callees run)
open Meaning (Operand Action Store Machine afterClearing)

/-- All that can be told of a state of a function is as the source has it. -/
structure Shows (u : SourceUnit) (m : Method) (s : C.State u.word) (t : Store) : Prop where
  vars : ∀ id ∈ m.scope, ((u.var id).read u.word).eval s = some (t.vars id)
  events : s.events = t.actions.map (Action.event u)
  returned : s.returned.map BitVec.toNat = t.returned

/-- A state between two statements, or after the function has returned. -/
structure Stands (M : Machine) (m : Method) (n : Numbering) (s : C.State M.unit.word) (t : Store) : Prop where
  shows : Shows M.unit m s t
  follows : t.returned = none → Follows M m.scope n s t

section Statements

variable {M : Machine} {callees : Callees M.unit.word} {m : Method} {n : Numbering} {s : C.State M.unit.word}
  {t : Store}

theorem Follows.stands (h : Follows M m.scope n s t) : Stands M m n s t := by
  refine ⟨⟨?_, h.events, ?_⟩, fun _ => h⟩
  · intro id hid
    rw [(h.fits id hid).eval_read, h.value_eq id hid]
  · rw [h.ready.returned, h.running]
    rfl

theorem Follows.runs_return (hm : m.WellFormed M.unit.word M.unit.vars) (h : Follows M m.scope n s t) :
    Lower.Runs callees (Lower.emit .returnResult) n s fun _ n' s' => Stands M m n' s' (t.leave m.result) := by
  have hmem : m.result ∈ m.scope := Method.mem_scope.2 (Or.inl rfl)
  have hfit := h.fits m.result hmem
  have hst : (M.unit.var m.result).storage = .result := hm.result_storage
  obtain ⟨r, hr⟩ : ∃ r, s.result = some r := by
    obtain ⟨-, hfit⟩ := hfit
    rw [hst] at hfit
    exact Option.isSome_iff_exists.1 hfit.1
  have hvalue : r.toNat = t.vars m.result := by
    rw [← h.value_eq m.result hmem, C.State.value, hst]
    simp [Storage.bank?, hr]
  refine ⟨{ s with returned := some r }, ?_, ⟨?_, h.events, ?_⟩, fun hnone => absurd hnone (by simp [Store.leave])⟩
  · refine (C.run_singleton callees _ h.ready.returned).trans ?_
    rw [C.Stmt.step, hr]
    rfl
  · intro id hid
    have hs : Extends s { s with returned := some r } := ⟨fun _ _ h => h, rfl, rfl, rfl⟩
    rw [(hs.fits (h.fits id hid)).eval_read, hs.value_eq, h.value_eq id hid]
    rfl
  · rw [Store.leave, ← hvalue]
    rfl

theorem Stands.statement (hL : Linked M callees) (hm : m.WellFormed M.unit.word M.unit.vars)
    (hM : M.stored = afterClearing M.unit) {st : Statement} (hst : st.Scoped m.scope) {t' : Store}
    (h : M.statement m.result st t = some t') (hs : Stands M m n s t) :
    Lower.Runs callees (Lower.statement M.unit st) n s fun _ n' s' => Stands M m n' s' t' := by
  unfold Machine.statement at h
  split_ifs at h with hret
  · cases h
    have hret' : s.returned.isSome := by
      rw [← Option.isSome_map (f := BitVec.toNat), hs.shows.returned, hret]
    refine ⟨s, C.run_of_returned callees _ hret', hs.shows, fun hnone => ?_⟩
    rw [hnone] at hret
    cases hret
  · have hf := hs.follows (by simpa using hret)
    cases st with
    | eval e =>
      obtain ⟨⟨o, t₁⟩, h₁, rfl⟩ := Option.map_eq_some_iff.1 h
      refine Lower.runs_bind.2 (((hst e rfl).follows hL hm hM h₁ hf).mono ?_)
      exact fun _ _ _ hf' => Lower.runs_pure.2 hf'.stands
    | ret e? =>
      cases e? with
      | none =>
        cases h
        exact Lower.runs_bind.2 (Lower.runs_pure.2 (hf.runs_return hm))
      | some e =>
        obtain ⟨⟨o, t₁⟩, h₁, rfl⟩ := Option.map_eq_some_iff.1 h
        refine Lower.runs_bind.2 (((hst e rfl).follows hL hm hM h₁ hf).mono ?_)
        exact fun _ _ _ hf' => hf'.runs_return hm

theorem Stands.statements (hL : Linked M callees) (hm : m.WellFormed M.unit.word M.unit.vars)
    (hM : M.stored = afterClearing M.unit) {sts : List Statement} : (∀ st ∈ sts, st.Scoped m.scope) →
    ∀ {n : Numbering} {s : C.State M.unit.word} {t t' : Store}, M.statements m.result sts t = some t' →
      Stands M m n s t →
      Lower.Runs callees (Lower.statements M.unit sts) n s fun _ n' s' => Stands M m n' s' t' := by
  induction sts with
  | nil =>
    intro _ n s t t' h hs
    cases h
    exact Lower.runs_pure.2 hs
  | cons st sts ih =>
    intro hsts n s t t' h hs
    obtain ⟨t₁, h₁, h₂⟩ := Option.bind_eq_some_iff.1 h
    refine Lower.runs_bind.2 ((hs.statement hL hm hM (hsts st (by simp)) h₁).mono ?_)
    exact fun _ _ _ hs' => ih (fun st' hst' => hsts st' (by simp [hst'])) h₂ hs'

end Statements

section Start

variable {u : SourceUnit} {m : Method} {b : Body}

/-- Where the source starts: the parameters are what the caller provides, all else is zero. -/
def Meaning.Store.start (u : SourceUnit) (params : List (BitVec u.word.bits)) : Store where
  vars := fun id => if (u.var id).storage = .params then (C.State.entry params).value (u.var id) else 0

/-- The code of a function before that of its first statement. -/
def Lower.declarations (b : Body) : List C.Stmt :=
  [.discard "self", .discard "params"] ++
    ((if b.groupCount > 0 then [.declareWords .locals b.groupCount] else []) ++ [.declareResult])

/-- The code of a function up to the end of some of its statements. -/
def Lower.upTo (u : SourceUnit) (b : Body) (done : List Statement) : List C.Stmt :=
  Lower.declarations b ++ (Lower.statements u done {}).code

theorem Lower.statements_append (u : SourceUnit) (sts sts' : List Statement) :
    Lower.statements u (sts ++ sts') = Lower.statements u sts >>= fun _ => Lower.statements u sts' := by
  induction sts with
  | nil => rfl
  | cons st sts ih =>
    rw [List.cons_append, Lower.statements, Lower.statements, Lower.bind_assoc, ih]

theorem Lower.upTo_prefix {done : List Statement} (h : done <+: b.statements) :
    Lower.upTo u b done <+: (Lower.body u b {}).code := by
  obtain ⟨rest, hrest⟩ := h
  have hcode : (Lower.body u b {}).code = Lower.upTo u b b.statements ++
      if Lower.endsWithReturn b then [] else [.returnResult] := by
    simp only [Lower.upTo, Lower.declarations, List.append_assoc]
    rfl
  have hstatements : (Lower.statements u (done ++ rest) {}).code = (Lower.statements u done {}).code ++
      (Lower.statements u rest (Lower.statements u done {}).next).code := by
    rw [Lower.statements_append]
    rfl
  rw [hcode, ← hrest, Lower.upTo, Lower.upTo, hstatements, ← List.append_assoc, List.append_assoc]
  exact List.prefix_append _ _

/-- The state of a function when its first statement is reached. -/
def C.State.declared (b : Body) (params : List (BitVec u.word.bits)) : C.State u.word :=
  { (if b.groupCount > 0 then (C.State.entry params).setBank .locals (List.replicate b.groupCount 0)
      else C.State.entry params) with result := some 0 }

theorem run_declarations (callees : Callees u.word) (params : List (BitVec u.word.bits)) :
    run callees (Lower.declarations b) (C.State.entry params) = some (C.State.declared b params) := by
  unfold Lower.declarations C.State.declared
  split_ifs <;> rfl

theorem declared_params (params : List (BitVec u.word.bits)) :
    (C.State.declared b params).banks .params = some params := by
  unfold C.State.declared
  split_ifs <;> rfl

theorem declared_locals (params : List (BitVec u.word.bits)) :
    ((C.State.declared b params).banks .locals).getD [] = List.replicate b.groupCount 0 := by
  unfold C.State.declared
  split_ifs with h
  · rfl
  · rw [show b.groupCount = 0 by omega]
    rfl

theorem field_zero {bits : ℕ} (low width : ℕ) : field (0 : BitVec bits) low width = 0 := by
  simp [field_eq]

theorem value_declared (params : List (BitVec u.word.bits)) (v : Variable) :
    (C.State.declared b params).value v =
      if v.storage = .params then (C.State.entry params).value v else 0 := by
  unfold C.State.value
  cases hst : v.storage with
  | params => simp [Storage.bank?, C.State.slot, C.State.word?, declared_params, C.State.entry]
  | result => rfl
  | locals =>
    have hzero : ((C.State.declared b params).word? .locals v.slot.group).getD 0 = 0 := by
      rw [C.State.word?_eq, declared_locals, List.getElem?_replicate]
      split_ifs <;> rfl
    rw [if_neg (by simp)]
    simp only [Storage.bank?]
    rw [C.State.slot, hzero, field_zero]

theorem follows_start {answer : List Action → Method → List ℕ → ℕ} {stored : VarId → Operand → ℕ}
    (hm : m.WellFormed u.word u.vars) (hb : m.body = some b) {params : List (BitVec u.word.bits)}
    (hparams : m.paramGroups ≤ params.length) :
    Follows ⟨u, answer, stored⟩ m.scope {} (C.State.declared b params) (.start u params) := by
  have hroom : m.Room (C.State.declared b params) := by
    refine ⟨?_, ?_, rfl⟩
    · rwa [C.State.size, declared_params]
    · intro b' hb'
      obtain rfl : b = b' := Option.some.inj (hb.symm.trans hb')
      rw [C.State.size, declared_locals, List.length_replicate]
  refine ⟨⟨?_, ?_, ?_⟩, rfl, fun id hid => hm.fits hroom hid, fun id _ => value_declared params _, ?_, ?_⟩
  · intro i _
    unfold C.State.declared
    split_ifs <;> rfl
  · intro k _
    unfold C.State.declared
    split_ifs <;> rfl
  · unfold C.State.declared
    split_ifs <;> rfl
  · intro id _
    simp only [Meaning.Store.start]
    split_ifs with hst
    · exact Variable.value_lt _ (by simp [hst])
    · exact Nat.two_pow_pos _
  · unfold C.State.declared
    split_ifs <;> rfl

end Start

section Agreement

variable {u : SourceUnit} {callees : Callees u.word} {m : Method} {b : Body} {params : List (BitVec u.word.bits)}

/-- The code of a function up to the end of some of its statements leads to a state that shows `t`. -/
def Reaches (callees : Callees u.word) (b : Body) (params : List (BitVec u.word.bits)) (m : Method)
    (done : List Statement) (t : Store) : Prop :=
  Lower.Runs callees (Lower.statements u done) {} (C.State.declared b params) fun _ n s =>
    Stands (Machine.clearing u (callees.answer u)) m n s t

theorem Reaches.run_upTo {done : List Statement} {t : Store} (h : Reaches callees b params m done t) :
    ∃ s, run callees (Lower.upTo u b done) (C.State.entry params) = some s ∧ Shows u m s t := by
  obtain ⟨s, hs, hstands⟩ := h
  refine ⟨s, ?_, hstands.shows⟩
  rw [Lower.upTo, C.run_append_of_eq (run_declarations callees params), hs]

theorem Reaches.snoc (hL : Linked (Machine.clearing u (callees.answer u)) callees)
    (hm : m.WellFormed u.word u.vars) {done : List Statement} {st : Statement} (hst : st.Scoped m.scope)
    {t t' : Store} (h : Reaches callees b params m done t)
    (ht : (Machine.clearing u (callees.answer u)).statement m.result st t = some t') :
    Reaches callees b params m (done ++ [st]) t' := by
  rw [Reaches, Lower.statements_append]
  refine Lower.runs_bind.2 (h.mono fun _ n s hstands => Lower.runs_bind.2 ?_)
  exact (hstands.statement hL hm rfl hst ht).mono fun _ _ _ hstands' => Lower.runs_pure.2 hstands'

theorem reaches_start (hm : m.WellFormed u.word u.vars) (hb : m.body = some b)
    (hparams : m.paramGroups ≤ params.length) : Reaches callees b params m [] (.start u params) :=
  Lower.runs_pure.2 (follows_start hm hb hparams).stands

theorem reaches_clearing (hL : Linked (Machine.clearing u (callees.answer u)) callees)
    (hm : m.WellFormed u.word u.vars) (hb : m.body = some b) (hparams : m.paramGroups ≤ params.length)
    {done : List Statement} (hdone : ∀ st ∈ done, st.Scoped m.scope) {t : Store}
    (ht : (Machine.clearing u (callees.answer u)).statements m.result done (.start u params) = some t) :
    Reaches callees b params m done t :=
  Stands.statements hL hm rfl hdone ht (follows_start hm hb hparams).stands

/-- What the source makes of some statements is what the code up to their end shows. -/
def Agrees (callees : Callees u.word) (b : Body) (params : List (BitVec u.word.bits)) (m : Method)
    (done : List Statement) : Prop :=
  ∃ s t, run callees (Lower.upTo u b done) (C.State.entry params) = some s ∧
    (Machine.plain u (callees.answer u)).statements m.result done (.start u params) = some t ∧ Shows u m s t

theorem Reaches.agrees {done : List Statement} {t : Store} (h : Reaches callees b params m done t)
    (ht : (Machine.plain u (callees.answer u)).statements m.result done (.start u params) = some t) :
    Agrees callees b params m done := by
  obtain ⟨s, hs, hshows⟩ := h.run_upTo
  exact ⟨s, t, hs, ht, hshows⟩

/-- A statement leaves the same in all variables of a method if those that share a word are cleared before
they are assigned to. -/
def KeepsValues (u : SourceUnit) (answer : List Action → Method → List ℕ → ℕ) (m : Method) (st : Statement)
    (t : Store) : Prop :=
  ∀ id ∈ m.scope, ((Machine.clearing u answer).statement m.result st t).map (·.vars id) =
    ((Machine.plain u answer).statement m.result st t).map (·.vars id)

theorem Stands.congr {M : Machine} {n : Numbering} {s : C.State M.unit.word} {t t' : Store} (h : Stands M m n s t)
    (hvars : ∀ id ∈ m.scope, t.vars id = t'.vars id) (hactions : t.actions = t'.actions)
    (hreturned : t.returned = t'.returned) : Stands M m n s t' := by
  refine ⟨⟨?_, ?_, ?_⟩, ?_⟩
  · intro id hid
    rw [← hvars id hid]
    exact h.shows.vars id hid
  · rw [← hactions]
    exact h.shows.events
  · rw [← hreturned]
    exact h.shows.returned
  · intro hnone
    have hf := h.follows (hreturned.trans hnone)
    refine ⟨hf.ready, hnone, hf.fits, ?_, ?_, ?_⟩
    · intro id hid
      rw [← hvars id hid]
      exact hf.value_eq id hid
    · intro id hid
      rw [← hvars id hid]
      exact hf.value_lt id hid
    · rw [← hactions]
      exact hf.events

theorem reaches_plain (hL : Linked (Machine.clearing u (callees.answer u)) callees)
    (hm : m.WellFormed u.word u.vars) (hb : m.body = some b) (hparams : m.paramGroups ≤ params.length)
    (done : List Statement) : (∀ st ∈ done, st.Scoped m.scope) → ∀ {t : Store},
    (Machine.plain u (callees.answer u)).statements m.result done (.start u params) = some t →
    (∀ d st t', d ++ [st] <+: done →
      (Machine.plain u (callees.answer u)).statements m.result d (.start u params) = some t' →
      KeepsValues u (callees.answer u) m st t') → Reaches callees b params m done t := by
  -- the code follows the machine that clears; after each statement the two machines have to be compared anew
  induction done using List.reverseRecOn with
  | nil =>
    intro _ t ht _
    cases ht
    exact reaches_start hm hb hparams
  | append_singleton done st ih =>
    intro hdone t ht hkeeps
    rw [Machine.statements_append] at ht
    obtain ⟨t₀, ht₀, ht₁⟩ := Option.bind_eq_some_iff.1 ht
    rw [Machine.statements_singleton] at ht₁
    have hst := hdone st (by simp)
    obtain ⟨t₂, ht₂, hactions, hreturned⟩ := Machine.statement_effects hst ht₁
    have hvars : ∀ id ∈ m.scope, t₂.vars id = t.vars id := by
      intro id hid
      have := hkeeps done st t₀ (List.prefix_refl _) ht₀ id hid
      rw [ht₁, ht₂] at this
      exact Option.some.inj this
    have hbefore := ih (fun st' hst' => hdone st' (by simp [hst'])) ht₀
      fun d st' t' hd => hkeeps d st' t' (hd.trans (List.prefix_append _ _))
    refine (hbefore.snoc hL hm hst ht₂).mono fun _ n s hstands => ?_
    exact hstands.congr hvars hactions (hreturned (hvars _ (Method.mem_scope.2 (Or.inl rfl))))

theorem keepsValues_of_agrees (hL : Linked (Machine.clearing u (callees.answer u)) callees)
    (hm : m.WellFormed u.word u.vars) {done : List Statement} {st : Statement}
    (hst : st.Scoped m.scope) {t : Store}
    (ht : (Machine.plain u (callees.answer u)).statements m.result done (.start u params) = some t)
    (hreach : Reaches callees b params m done t) (h : Agrees callees b params m (done ++ [st])) :
    KeepsValues u (callees.answer u) m st t := by
  obtain ⟨s, t₁, hs, ht₁, hshows⟩ := h
  rw [Machine.statements_append, ht, Option.bind_some, Machine.statements_singleton] at ht₁
  obtain ⟨t₂, ht₂, -⟩ := Machine.statement_effects hst ht₁
  obtain ⟨s', hs', hshows'⟩ := (hreach.snoc hL hm hst ht₂).run_upTo
  obtain rfl : s = s' := Option.some.inj (hs.symm.trans hs')
  intro id hid
  rw [ht₁, ht₂, Option.map_some, Option.map_some, ← hshows.vars id hid, ← hshows'.vars id hid]

theorem agrees_iff_keepsValues (hL : Linked (Machine.clearing u (callees.answer u)) callees)
    (hm : m.WellFormed u.word u.vars) (hb : m.body = some b) (hparams : m.paramGroups ≤ params.length)
    {done : List Statement} (hdone : ∀ st ∈ done, st.Scoped m.scope) {t : Store}
    (ht : (Machine.plain u (callees.answer u)).statements m.result done (.start u params) = some t) :
    (∀ d, d <+: done → Agrees callees b params m d) ↔ ∀ d st t', d ++ [st] <+: done →
      (Machine.plain u (callees.answer u)).statements m.result d (.start u params) = some t' →
      KeepsValues u (callees.answer u) m st t' := by
  constructor
  · intro hagrees d
    -- every statement before `st` keeps its values, so the code has reached what the source has there
    induction hlen : d.length using Nat.strong_induction_on generalizing d with
    | _ k ih =>
      intro st t' hd ht'
      have hbefore : d <+: done := (List.prefix_append d [st]).trans hd
      have hreach : Reaches callees b params m d t' := by
        refine reaches_plain hL hm hb hparams d (fun st' hst' => hdone st' (hbefore.subset hst')) ht' ?_
        intro d' st' t'' hd' ht''
        have hlt : d'.length < k := by
          have := hd'.length_le
          simp at this
          omega
        exact ih d'.length hlt d' rfl st' t'' (hd'.trans hbefore) ht''
      exact keepsValues_of_agrees hL hm (hdone st (hd.subset (by simp))) ht' hreach (hagrees _ hd)
  · intro hkeeps d hd
    obtain ⟨rest, rfl⟩ := hd
    rw [Machine.statements_append] at ht
    obtain ⟨t', ht', -⟩ := Option.bind_eq_some_iff.1 ht
    have hreach : Reaches callees b params m d t' := by
      refine reaches_plain hL hm hb hparams d (fun st hst => hdone st (by simp [hst])) ht' ?_
      exact fun d' st' t'' hd' => hkeeps d' st' t'' (hd'.trans (List.prefix_append _ _))
    exact hreach.agrees ht'

theorem agrees_of_noSelfAssignment (hL : Linked (Machine.clearing u (callees.answer u)) callees)
    (hm : m.WellFormed u.word u.vars) (hb : m.body = some b) (hparams : m.paramGroups ≤ params.length)
    {done : List Statement} (hdone : ∀ st ∈ done, st.Scoped m.scope) (hself : Machine.NoSelfAssignment u done)
    {t : Store} (ht : (Machine.plain u (callees.answer u)).statements m.result done (.start u params) = some t) :
    ∀ d, d <+: done → Agrees callees b params m d := by
  rintro d ⟨rest, rfl⟩
  rw [Machine.statements_append] at ht
  obtain ⟨t', ht', -⟩ := Option.bind_eq_some_iff.1 ht
  have hd : ∀ st ∈ d, st.Scoped m.scope := fun st hst => hdone st (by simp [hst])
  have hclear := (Machine.statements_clearing hd (fun st hst => hself st (by simp [hst])) _).trans ht'
  exact (reaches_clearing hL hm hb hparams hd hclear).agrees ht'

end Agreement

theorem compile_ok {w : Word} {src : String} {c : Compiled} (h : compile w src = .ok c) :
    c.unit = (SourceUnit.ofText w src).1 ∧ c.output = c.unit.lower.1.text := by
  have hword := (SourceUnit.ofText_wellFormed w src).2
  unfold compile at h
  simp only at h
  split_ifs at h
  cases h
  refine ⟨rfl, ?_⟩
  simp only [SourceUnit.generate, hword, if_true]

theorem compile_of_toOption {w : Word} {src : String} {c : Compiled} (h : (compile w src).toOption = some c) :
    compile w src = .ok c := by
  cases hc : compile w src with
  | error faults =>
    rw [hc] at h
    cases h
  | ok c' =>
    rw [hc] at h
    cases h
    rfl

theorem mem_lower_functions {u : SourceUnit} {m : Method} (hm : m ∈ u.visibleMethods) {b : Body}
    (hb : m.body = some b) : ⟨Lower.prototype u m, (Lower.body u b {}).code⟩ ∈ u.lower.1.functions := by
  refine List.mem_map.2 ⟨(⟨Lower.prototype u m, (Lower.body u b {}).code⟩, (Lower.body u b {}).faults), ?_, rfl⟩
  exact List.mem_filterMap.2 ⟨m, hm, by rw [Lower.function?, hb]; rfl⟩

/-- The code of a method runs its statements, one after the other, with one exception: a variable that shares
its word is cleared when it is assigned to itself. So after every statement the variables hold what they hold
in the source if, and only if, no statement loses a value in that way. -/
theorem body_code_agrees_iff_values_kept {w : Word} {src : String} {c : Compiled} (hc : compile w src = .ok c)
    {m : Method} (hm : m ∈ c.unit.visibleMethods) {b : Body} (hb : m.body = some b) (callees : Callees c.unit.word)
    (hcallees : callees.Bounded c.unit) {params : List (BitVec c.unit.word.bits)}
    (hparams : m.paramGroups ≤ params.length) {done : List Statement} (hdone : done <+: b.statements) :
    c.output = c.unit.lower.1.text ∧
    (∃ f ∈ c.unit.lower.1.functions, f.prototype = Lower.prototype c.unit m ∧
      Lower.upTo c.unit b done <+: f.body) ∧
    (∀ t, (Machine.clearing c.unit (callees.answer c.unit)).statements m.result done (.start c.unit params) = some t →
      ∃ s, run callees (Lower.upTo c.unit b done) (C.State.entry params) = some s ∧ Shows c.unit m s t) ∧
    (∀ t, (Machine.plain c.unit (callees.answer c.unit)).statements m.result done (.start c.unit params) = some t →
      ((∀ d, d <+: done → Agrees callees b params m d) ↔ ∀ d st t', d ++ [st] <+: done →
        (Machine.plain c.unit (callees.answer c.unit)).statements m.result d (.start c.unit params) = some t' →
        KeepsValues c.unit (callees.answer c.unit) m st t') ∧
      (Machine.NoSelfAssignment c.unit done → ∀ d, d <+: done → Agrees callees b params m d)) := by
  obtain ⟨hunit, houtput⟩ := compile_ok hc
  have hu : c.unit.WellFormed := hunit ▸ (SourceUnit.ofText_wellFormed w src).1
  have hmem : m ∈ c.unit.methods := Array.mem_toList_iff.1 (List.mem_filter.1 hm).1
  have hwf := hu.methods m hmem
  have hL : Linked (Machine.clearing c.unit (callees.answer c.unit)) callees := ⟨hu, rfl, hcallees⟩
  have hscoped : ∀ st ∈ done, st.Scoped m.scope := fun st hst => hwf.statements b hb st (hdone.subset hst)
  refine ⟨houtput, ⟨_, mem_lower_functions hm hb, rfl, Lower.upTo_prefix hdone⟩, ?_, ?_⟩
  · exact fun t ht => (reaches_clearing hL hwf hb hparams hscoped ht).run_upTo
  · exact fun t ht => ⟨agrees_iff_keepsValues hL hwf hb hparams hscoped ht,
      fun hself => agrees_of_noSelfAssignment hL hwf hb hparams hscoped hself ht⟩

/-- A method whose calls return 200 and whose parameter is 100: its result is `3 + 200` cut down to 5 bits. -/
theorem body_code_agrees_iff_values_kept_of_call :
    ∃ (c : Compiled) (m : Method) (b : Body) (callees : Callees c.unit.word)
      (params : List (BitVec c.unit.word.bits)) (t : Store) (s : C.State c.unit.word),
      compile .w32 "object 8 A;8 f(7 p){5 x=3;x=x+f(p);f=x;}" = .ok c ∧ m ∈ c.unit.visibleMethods ∧
      m.body = some b ∧ callees.Bounded c.unit ∧ m.paramGroups ≤ params.length ∧
      (Machine.clearing c.unit (callees.answer c.unit)).statements m.result b.statements (.start c.unit params) =
        some t ∧ t.vars m.result = 11 ∧
      run callees (Lower.upTo c.unit b b.statements) (C.State.entry params) = some s ∧ Shows c.unit m s t := by
  let callees (u : SourceUnit) : Callees u.word := fun _ _ words => ⟨200, words⟩
  let params (u : SourceUnit) : List (BitVec u.word.bits) := [100 <<< 25]
  have hrun : ((compile .w32 "object 8 A;8 f(7 p){5 x=3;x=x+f(p);f=x;}").toOption.bind fun c =>
      c.unit.visibleMethods[0]?.bind fun m => m.body.bind fun b =>
        (if m.paramGroups ≤ (params c.unit).length ∧ (c.unit.methods.toList.all fun m' =>
            (callees c.unit).answer c.unit [] m' [] < 2 ^ (c.unit.var m'.result).width) then
          (Machine.clearing c.unit ((callees c.unit).answer c.unit)).statements m.result b.statements
            (.start c.unit (params c.unit))
        else none).map (·.vars m.result)) = some 11 := by
    decide +kernel
  obtain ⟨c, hc, hrun⟩ := Option.bind_eq_some_iff.1 hrun
  obtain ⟨m, hm, hrun⟩ := Option.bind_eq_some_iff.1 hrun
  obtain ⟨b, hb, hrun⟩ := Option.bind_eq_some_iff.1 hrun
  obtain ⟨t, ht, hvalue⟩ := Option.map_eq_some_iff.1 hrun
  split_ifs at ht with hgiven
  obtain ⟨hparams, hall⟩ := hgiven
  have hc' : compile .w32 "object 8 A;8 f(7 p){5 x=3;x=x+f(p);f=x;}" = .ok c := compile_of_toOption hc
  have hm' : m ∈ c.unit.visibleMethods := List.mem_of_getElem? hm
  have hcallees : (callees c.unit).Bounded c.unit := fun past words m' hm' =>
    of_decide_eq_true (List.all_eq_true.1 hall m' (Array.mem_toList_iff.2 hm'))
  obtain ⟨-, -, hclearing, -⟩ := body_code_agrees_iff_values_kept hc' hm' hb (callees c.unit) hcallees hparams
    (List.prefix_refl b.statements)
  obtain ⟨s, hs, hshows⟩ := hclearing t ht
  exact ⟨c, m, b, callees c.unit, params c.unit, t, s, hc', hm', hb, hcallees, hparams, ht, hvalue, hs, hshows⟩

/-- A variable of 8 bits that is set to 5 and then assigned to itself is zero. -/
theorem self_assignment_clears_variable :
    ∃ (c : Compiled) (m : Method) (b : Body) (callees : Callees c.unit.word) (t : Store) (s : C.State c.unit.word),
      compile .w64 "object 8 A;8 f(){8 x=5;x=x;f=x;}" = .ok c ∧ c.faults = [] ∧ m ∈ c.unit.visibleMethods ∧
      m.body = some b ∧ callees.Bounded c.unit ∧ m.paramGroups = 0 ∧
      (Machine.plain c.unit (callees.answer c.unit)).statements m.result b.statements (.start c.unit []) = some t ∧
      run callees (Lower.upTo c.unit b b.statements) (C.State.entry []) = some s ∧
      t.vars m.result = 5 ∧ ((c.unit.var m.result).read c.unit.word).eval s = some 0 := by
  let callees (u : SourceUnit) : Callees u.word := fun _ _ words => ⟨0, words⟩
  have hrun : ((compile .w64 "object 8 A;8 f(){8 x=5;x=x;f=x;}").toOption.bind fun c =>
      c.unit.visibleMethods[0]?.bind fun m => m.body.bind fun b =>
        (if c.faults.isEmpty ∧ m.paramGroups = 0 then
          (Machine.plain c.unit ((callees c.unit).answer c.unit)).statements m.result b.statements (.start c.unit [])
        else none).bind fun t =>
          (run (callees c.unit) (Lower.upTo c.unit b b.statements) (C.State.entry [])).bind fun s =>
            (((c.unit.var m.result).read c.unit.word).eval s).map fun v => (t.vars m.result, v)) = some (5, 0) := by
    decide +kernel
  obtain ⟨c, hc, hrun⟩ := Option.bind_eq_some_iff.1 hrun
  obtain ⟨m, hm, hrun⟩ := Option.bind_eq_some_iff.1 hrun
  obtain ⟨b, hb, hrun⟩ := Option.bind_eq_some_iff.1 hrun
  obtain ⟨t, ht, hrun⟩ := Option.bind_eq_some_iff.1 hrun
  obtain ⟨s, hs, hrun⟩ := Option.bind_eq_some_iff.1 hrun
  obtain ⟨v, hv, hvalues⟩ := Option.map_eq_some_iff.1 hrun
  split_ifs at ht with hgiven
  obtain ⟨hfaults, hgroups⟩ := hgiven
  obtain ⟨h5, rfl⟩ := Prod.mk.inj hvalues
  exact ⟨c, m, b, callees c.unit, t, s, compile_of_toOption hc, List.isEmpty_iff.1 hfaults, List.mem_of_getElem? hm,
    hb, fun _ _ _ _ => by simp [callees], hgroups, ht, hs, h5, hv⟩

end Bitpack
