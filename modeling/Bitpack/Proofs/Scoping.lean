import Mathlib
import Bitpack.Proofs.Fatal

/-! Names in a method. Parameters differ in name from each other, and locals differ from all other variables; but a
parameter may have the name of its method, which is that of the result. Then the name means the parameter wherever it
stands, and only returning a value reaches the result. -/

namespace Bitpack

section Names

variable {w : Word} {u : SourceUnit} {m : Method}

theorem Method.WellFormed.eq_of_local_name (h : m.WellFormed w u.vars) {body : Body} (hbody : m.body = some body)
    {a b : VarId} (ha : a ∈ body.localIds) (hb : b ∈ m.scope) (hname : (u.var a).name = (u.var b).name) : a = b := by
  obtain ⟨l, hl, rfl⟩ := List.mem_map.1 ha
  obtain ⟨hlocal, hmethod, hparams⟩ := h.local_name body hbody l hl
  rcases Method.mem_scope.1 hb with rfl | hb | ⟨body', hbody', hb⟩
  · exact absurd (hlocal.symm.trans (hname.trans h.result_name)) hmethod
  · exact absurd (hname.symm.trans hlocal) (hparams b hb)
  · obtain rfl := Option.some.inj (hbody.symm.trans hbody')
    obtain ⟨l', hl', rfl⟩ := List.mem_map.1 hb
    have hsame : l.1 = l'.1 := hlocal.symm.trans (hname.trans (h.local_name body hbody l' hl').1)
    exact congrArg Prod.snd (List.inj_on_of_nodup_map (h.local_names body hbody) hl hl' hsame)

theorem Method.WellFormed.eq_of_name (h : m.WellFormed w u.vars) {a b : VarId} (ha : a ∈ m.scope) (hb : b ∈ m.scope)
    (hname : (u.var a).name = (u.var b).name) :
    a = b ∨ (u.var a).name = m.name ∧ (a = m.result ∧ b ∈ m.params ∨ a ∈ m.params ∧ b = m.result) := by
  have hresult : (u.var m.result).name = m.name := h.result_name
  rcases Method.mem_scope.1 ha with rfl | hparam | ⟨body, hbody, hlocal⟩
  · rcases Method.mem_scope.1 hb with rfl | hb' | ⟨body, hbody, hb'⟩
    · exact .inl rfl
    · exact .inr ⟨hresult, .inl ⟨rfl, hb'⟩⟩
    · exact .inl (h.eq_of_local_name hbody hb' ha hname.symm).symm
  · rcases Method.mem_scope.1 hb with rfl | hb' | ⟨body, hbody, hb'⟩
    · exact .inr ⟨hname.trans hresult, .inr ⟨hparam, rfl⟩⟩
    · exact .inl (List.inj_on_of_nodup_map h.param_names hparam hb' hname)
    · exact .inl (h.eq_of_local_name hbody hb' ha hname.symm).symm
  · exact .inl (h.eq_of_local_name hbody hlocal hb hname)

theorem Method.WellFormed.names_nodup_iff (h : m.WellFormed w u.vars) :
    (m.scope.map fun id => (u.var id).name).Nodup ↔ ∀ id ∈ m.params, (u.var id).name ≠ m.name := by
  constructor
  · intro hnodup id hid hname
    have heq := List.inj_on_of_nodup_map hnodup (Method.mem_scope.2 (.inl rfl)) (Method.mem_scope.2 (.inr (.inl hid)))
      (h.result_name.trans hname.symm)
    have hne : m.result ≠ id := by
      have hnodup := h.nodup
      unfold Method.scope at hnodup
      rintro rfl
      exact (List.nodup_cons.1 hnodup).1 (List.mem_append_left _ hid)
    exact hne heq
  · intro hparams
    refine h.nodup.map_on fun a ha b hb hname => ?_
    rcases h.eq_of_name ha hb hname with heq | ⟨hmethod, ⟨-, hb⟩ | ⟨ha, -⟩⟩
    · exact heq
    · exact absurd (hname.symm.trans hmethod) (hparams b hb)
    · exact absurd hmethod (hparams a ha)

end Names

section Shadowing

/-- A statement that reads and assigns no variables but the `others`, except that returning a value assigns it to the
result. -/
def Statement.LeavesResult (result : VarId) (others : List VarId) : Statement → Prop
  | .eval e => e.Scoped others
  | .ret e => ∀ e' ∈ e, ∃ value targets, e'.items = value ++ assignAll (targets ++ [result]) ∧
      (∀ i ∈ value, i.Plain others) ∧ ∀ id ∈ targets, id ∈ others

theorem Statement.LeavesResult.mono {result : VarId} {others others' : List VarId}
    (hs : ∀ id ∈ others, id ∈ others') {st : Statement} (h : st.LeavesResult result others) :
    st.LeavesResult result others' := by
  cases st with
  | eval e => exact Expression.Scoped.mono hs h
  | ret e =>
    intro e' he'
    obtain ⟨value, targets, hitems, hvalue, htargets⟩ := h e' he'
    exact ⟨value, targets, hitems, fun i hi => (hvalue i hi).mono hs, fun id hid => hs id (htargets id hid)⟩

namespace Scope

variable {s start : Scope}

/-- The variables of a scope other than the result. -/
def others (s : Scope) : List VarId :=
  s.params ++ s.locals.toList.map (·.id)

/-- A parameter has the name of the result. -/
def Shadowed (s : Scope) : Prop :=
  ∃ p ∈ s.params, (s.vars.getD p default).name = (s.vars.getD s.result default).name

theorem lookup_mem_others (h : s.Shadowed) {name : String} {id : VarId} (hid : s.lookup name = some id) :
    id ∈ s.others := by
  unfold lookup at hid
  split at hid
  · rename_i l hl
    cases hid
    have hmem : l ∈ s.locals.toList := Array.mem_toList_iff.2 (Array.mem_of_find?_eq_some hl)
    exact List.mem_append_right _ (List.mem_map.2 ⟨l, hmem, rfl⟩)
  · refine List.mem_append_left _ ?_
    rw [List.find?_append] at hid
    rcases Option.or_eq_some_iff.1 hid with hid | ⟨hnone, hid⟩
    · exact List.mem_of_find?_eq_some hid
    · -- the result has the name, so the parameter that shadows it has it too
      obtain ⟨p, hp, hshadow⟩ := h
      obtain rfl := List.mem_singleton.1 (List.mem_of_find?_eq_some hid)
      have hname := List.find?_some hid
      exact absurd (hshadow ▸ hname) (List.find?_eq_none.1 hnone p hp)

theorem Sound.shadowed (h : Sound start s) (hvalid : ∀ id ∈ start.result :: start.params, id < start.vars.size)
    (hstart : start.Shadowed) : s.Shadowed := by
  obtain ⟨hresult, hparams⟩ := List.forall_mem_cons.1 hvalid
  obtain ⟨p, hp, hname⟩ := hstart
  refine ⟨p, h.params ▸ hp, ?_⟩
  rw [h.result, h.grows.getD_eq p (hparams p hp), h.grows.getD_eq _ hresult]
  exact hname

end Scope

theorem Statement.ReadIn.leavesResult {s : Scope} (hs : s.Shadowed) {st : Statement} (h : st.ReadIn s) :
    st.LeavesResult s.result s.others := by
  cases st with
  | eval e =>
    obtain ⟨targets, start, c, htargets, hread⟩ := h e rfl
    exact readExpression_scoped (fun _ _ => Scope.lookup_mem_others hs)
      (fun id hid => List.mem_append_right _ (htargets id hid)) hread
  | ret e =>
    intro e' he'
    obtain ⟨targets, start, c, rfl, hread⟩ := h e' he'
    obtain ⟨value, hvalue, rfl⟩ := readExpression_eq_ok hread
    obtain ⟨new, htargets, hnew⟩ := readTargets_eq_append (fun _ _ => Scope.lookup_mem_others hs) [s.result] c.tokens
    refine ⟨value.items, new, ?_, readInfix_plain (fun _ _ => Scope.lookup_mem_others hs) c.stop _ hvalue, hnew⟩
    rw [htargets]
    rfl

namespace Scope

/-- Whether all statements so far leave the result alone. -/
def LeavesResult (s : Scope) : Prop :=
  ∀ st ∈ s.statements, st.LeavesResult s.result s.others

variable {start s : Scope}

theorem LeavesResult.keeps (h : s.LeavesResult) (hs : s.Shadowed) {s' : Scope} (hkeeps : s.Keeps s') :
    s'.LeavesResult := by
  rcases hkeeps with rfl | ⟨st, hst, rfl⟩
  · exact h
  · intro st' hst'
    rcases Array.mem_push.1 hst' with hst' | rfl
    · exact h st' hst'
    · exact hst.leavesResult hs

theorem LeavesResult.declare (h : s.LeavesResult) (d : Declarator) : (s.declare d).LeavesResult := by
  intro st hst
  refine (h st hst).mono fun id hid => ?_
  have hothers : (s.declare d).others = s.others ++ [s.vars.size] := by simp [others, Scope.declare]
  rw [hothers]
  exact List.mem_append_left _ hid

theorem LeavesResult.readAll (hstart : start.Shadowed)
    (hvalid : ∀ id ∈ start.result :: start.params, id < start.vars.size) (cs : List Clause) :
    ∀ {s : Scope}, Sound start s → s.LeavesResult → (s.readAll cs).1.LeavesResult := by
  induction cs with
  | nil => exact fun _ h => h
  | cons c cs ih =>
    intro s hs h
    refine ih (hs.statement hvalid c) ?_
    rcases s.statement_cases c with hkeeps | ⟨d, hname, hkeeps⟩
    · exact h.keeps (hs.shadowed hvalid hstart) hkeeps
    · exact (h.declare d).keeps ((hs.declare hvalid hname).shadowed hvalid hstart) hkeeps

end Scope

theorem readBody_leavesResult {w : Word} {start : Scope} (hstart : start.locals = #[] ∧ start.statements = #[])
    (hvalid : ∀ id ∈ start.result :: start.params, id < start.vars.size) (hshadowed : start.Shadowed) {block : Block}
    {b : Body} (hb : (readBody w start block).2.2 = some b) :
    ∀ st ∈ b.statements, st.LeavesResult start.result (start.params ++ b.localIds) := by
  have hsound := Scope.sound_readAll hstart hvalid block.clauses
  have hleaves : (start.readAll block.clauses).1.LeavesResult := by
    refine Scope.LeavesResult.readAll hshadowed hvalid _ (Scope.sound_readAll hstart hvalid []) ?_
    intro st hst
    rw [hstart.2] at hst
    simp at hst
  unfold readBody at hb
  simp only at hb
  split_ifs at hb
  split at hb
  · cases hb
  · cases hb
    intro st hst
    have hst := hleaves st (Array.mem_toList_iff.1 hst)
    rw [Scope.others, hsound.result, hsound.params] at hst
    rw [Body.localIds, List.map_map]
    exact hst

/-- Under a parameter with its name, the result of the method is set by returning a value only. -/
def Method.LeavesResult (vars : Array Variable) (m : Method) : Prop :=
  (∃ id ∈ m.params, (vars.getD id default).name = m.name) →
    ∀ b, m.body = some b → ∀ st ∈ b.statements, st.LeavesResult m.result (m.params ++ b.localIds)

theorem readMethod_leavesResult {w : Word} {vars : Array Variable} {h : Heading} {block : Option Block} {m : Method}
    (hm : (readMethod w vars h block).method = some m) : m.LeavesResult (readMethod w vars h block).vars := by
  rintro ⟨id, hid, hname⟩ b hb
  obtain ⟨hwf, -⟩ := (readMethod_wellFormed w vars h block).2 m hm
  obtain ⟨-, hresult, l, packed, hpack, hparams, -, -, hbody⟩ := readMethod_some hm
  rcases hbody with ⟨hnone, -⟩ | ⟨block', body, hread, hsome, hvars⟩
  · rw [hnone] at hb
    cases hb
  · obtain rfl := Option.some.inj (hb.symm.trans hsome)
    have hvalid : ∀ id ∈ m.result :: m.params, id < packed.size := by
      rw [hresult, hparams]
      exact Heading.bodyScope_valid hpack
    have hscope : h.bodyScope vars packed = { vars := packed, result := m.result, params := m.params } := by
      rw [Heading.bodyScope, hresult, hparams]
    rw [hscope] at hread hvars
    obtain ⟨hgrow, -⟩ := readBody_wellFormed w { vars := packed, result := m.result, params := m.params }
      ⟨rfl, rfl⟩ hvalid block'
    rw [← hvars] at hgrow
    refine readBody_leavesResult ⟨rfl, rfl⟩ hvalid ⟨id, hid, ?_⟩ hread
    obtain ⟨hvalid, hvalids⟩ := List.forall_mem_cons.1 hvalid
    rw [← hgrow.getD_eq id (hvalids id hid), ← hgrow.getD_eq _ hvalid, hwf.result_name]
    exact hname

theorem Method.leavesResult_persistent (w : Word) : Method.Persistent w Method.LeavesResult where
  read := readMethod_leavesResult
  grows := by
    intro vars vars' m hwf h hgrow
    rintro ⟨id, hid, hname⟩
    rw [hgrow.getD_eq id (hwf.params.valid id hid)] at hname
    exact h ⟨id, hid, hname⟩

end Shadowing

/-- All names of a method are distinct unless a parameter is called like the method itself, and this is the only way in
which two variables can share a name. Where one does, the name means the parameter throughout the body. -/
theorem variable_names_nodup_iff {w : Word} {src : String} {u : SourceUnit} (hu : (SourceUnit.ofText w src).1 = u)
    {m : Method} (hm : m ∈ u.methods) :
    ((m.scope.map fun id => (u.var id).name).Nodup ↔ ∀ id ∈ m.params, (u.var id).name ≠ m.name) ∧
    (∀ a ∈ m.scope, ∀ b ∈ m.scope, a ≠ b → (u.var a).name = (u.var b).name →
      (u.var a).name = m.name ∧ (a = m.result ∧ b ∈ m.params ∨ a ∈ m.params ∧ b = m.result)) ∧
    ((∃ id ∈ m.params, (u.var id).name = m.name) →
      ∀ b, m.body = some b → ∀ st ∈ b.statements, st.LeavesResult m.result (m.params ++ b.localIds)) := by
  subst hu
  have hwf := (SourceUnit.ofText_wellFormed w src).1.methods m hm
  refine ⟨hwf.names_nodup_iff, ?_, SourceUnit.ofText_methods (Method.leavesResult_persistent w) src m hm⟩
  intro a ha b hb hne hname
  exact (hwf.eq_of_name ha hb hname).resolve_left hne

theorem variable_names_nodup_iff_of_both :
    ∃ u, (SourceUnit.ofText .w64 "object 8 A;8 f(8 f){8 x=f;f=x;return x=f;}8 g(8 a){8 b=a;g=b;}").1 = u ∧
      (∃ m ∈ u.methods, ¬ (m.scope.map fun id => (u.var id).name).Nodup ∧
        ∃ b, m.body = some b ∧ b.statements.length = 3 ∧ ∀ st ∈ b.statements, st.LeavesResult 0 [1, 2]) ∧
      ∃ m ∈ u.methods, m.scope.length = 3 ∧ (m.scope.map fun id => (u.var id).name).Nodup := by
  let u := (SourceUnit.ofText .w64 "object 8 A;8 f(8 f){8 x=f;f=x;return x=f;}8 g(8 a){8 b=a;g=b;}").1
  have hf : ∃ m ∈ u.methods, (∃ id ∈ m.params, (u.var id).name = m.name) ∧ m.result = 0 ∧ m.params = [1] ∧
      m.body.map (fun b => (b.statements.length, b.localIds)) = some (3, [2]) := by decide +kernel
  have hg : ∃ m ∈ u.methods, m.scope.length = 3 ∧ ∀ id ∈ m.params, (u.var id).name ≠ m.name := by decide +kernel
  obtain ⟨f, hf, ⟨p, hp, hname⟩, hresult, hparams, hbody⟩ := hf
  obtain ⟨g, hg, hlength, hnames⟩ := hg
  obtain ⟨hnodup, -, hleaves⟩ := variable_names_nodup_iff rfl hf
  obtain ⟨b, hb, hbody⟩ := Option.map_eq_some_iff.1 hbody
  obtain ⟨hcount, hlocals⟩ := Prod.mk.inj hbody
  refine ⟨u, rfl, ⟨f, hf, fun h => hnodup.1 h p hp hname, b, hb, hcount, ?_⟩, g, hg, hlength, ?_⟩
  · have hleaves := hleaves ⟨p, hp, hname⟩ b hb
    rwa [hresult, hparams, hlocals] at hleaves
  · exact (variable_names_nodup_iff rfl hg).1.2 hnames

/-- A parameter with the name of its method is accepted: the result and the parameter are both called `f`. -/
theorem parameter_named_like_method :
    ∃ u, SourceUnit.ofText .w64 "object 8 A;8 f(8 f){f=1;}" = (u, []) ∧
      ∃ m ∈ u.methods, m.result = 0 ∧ m.params = [1] ∧ (u.var 0).name = "f" ∧ (u.var 1).name = "f" ∧
        ¬ (m.scope.map fun id => (u.var id).name).Nodup :=
  ⟨_, Prod.ext rfl (by decide +kernel), by decide +kernel⟩

end Bitpack
