import Mathlib
import Bitpack.Compile
import Bitpack.Proofs.Whereabouts

/-! Fatal problems. Reading meets at most one, a variable for which there is no room, and goes no further:
it is the last problem of the unit. Lowering meets none in a unit that was read for the same word, so a text
fails to compile exactly if its reading met one. -/

namespace Bitpack

/-- None of the problems is fatal. -/
def Mild (ds : List Diagnostic) : Prop :=
  ∀ d ∈ ds, d.isFatal = false

theorem mild_nil : Mild [] :=
  List.forall_mem_nil _

theorem Mild.append {ds ds' : List Diagnostic} (h : Mild ds) (h' : Mild ds') : Mild (ds ++ ds') :=
  List.forall_mem_append.2 ⟨h, h'⟩

theorem Mild.any_eq_false {ds : List Diagnostic} (h : Mild ds) : ds.any Diagnostic.isFatal = false := by
  rw [List.any_eq_false]
  exact fun d hd => by simp [h d hd]

/-- Nothing is fatal, or else the last problem alone: a variable for which there is no room. -/
def FatalLast (ds : List Diagnostic) : Prop :=
  Mild ds ∨ ∃ front d name e, ds = front ++ [d] ∧ Mild front ∧ d.cause = .unpackable name e

/-- Whatever a text says, at most the last of its problems is fatal. -/
theorem SourceUnit.ofText_fatalLast (w : Word) (src : String) : FatalLast (SourceUnit.ofText w src).2 := by
  have htokens : Token.Located (fun _ => True) (Token.scan src ++ [Token.finishOf src]) :=
    Token.scan_located fun _ _ => trivial
  obtain ⟨-, hfaults⟩ := SourceUnit.ofText_located (fun _ _ _ _ => trivial) trivial w htokens
  rcases hfaults with h | ⟨front, d, name, e, heq, hfront, hcause, -⟩
  · exact Or.inl fun d hd => (h d hd).isFatal
  · exact Or.inr ⟨front, d, name, e, heq, fun x hx => (hfront x hx).isFatal, hcause⟩

section Lowering

namespace Lower

variable {α β : Type} {u : SourceUnit} {P : Span → Prop} {span : Span}

/-- All that is wrong is minor. -/
def Minor (P : Span → Prop) (x : Lower α) : Prop :=
  ∀ n, ∀ d ∈ (x n).faults, d.Minor P

theorem minor_of_nil {x : Lower α} (h : ∀ n, (x n).faults = []) : x.Minor P := by
  intro n
  rw [h n]
  exact List.forall_mem_nil _

theorem Minor.bind {x : Lower α} {f : α → Lower β} (hx : x.Minor P) (hf : ∀ a, (f a).Minor P) : (x >>= f).Minor P :=
  fun n => List.forall_mem_append.2 ⟨hx n, hf _ _⟩

theorem minor_note {d : Diagnostic} (h : d.Minor P) : (note d).Minor P :=
  fun _ => List.forall_mem_singleton.2 h

theorem minor_zeroFor {d : Diagnostic} (h : d.Minor P) : (zeroFor d).Minor P :=
  (minor_note h).bind fun _ => minor_of_nil fun _ => rfl

theorem minor_complement (v : Value) : (complement u v).Minor P := by
  cases v <;> exact minor_of_nil fun _ => rfl

theorem minor_cast (hspan : P span) (width : UInt64) (v : Value) : (cast u span width v).Minor P := by
  unfold cast
  simp only
  split_ifs
  · exact minor_zeroFor ⟨rfl, hspan⟩
  · cases v <;> exact minor_of_nil fun _ => rfl

theorem minor_arith (hspan : P span) (op : Arith) (left right : Value) : (arith u span op left right).Minor P := by
  unfold arith
  split
  · split
    · exact minor_of_nil fun _ => rfl
    · exact minor_zeroFor ⟨rfl, hspan⟩
  · exact minor_of_nil fun _ => rfl

theorem minor_apply (hspan : P span) (op : Operator) (stack : List Value) : (apply u span op stack).Minor P := by
  have hdone : ∀ rest : List Value, ∀ v, (pure (v :: rest) : Lower (List Value)).Minor P :=
    fun _ _ => minor_of_nil fun _ => rfl
  unfold apply
  cases op with
  | not => exact (minor_complement _).bind (hdone _)
  | arith a => exact (minor_arith hspan a _ _).bind (hdone _)
  | assign =>
    simp only
    split
    · exact minor_of_nil fun _ => rfl
    · exact (minor_zeroFor ⟨rfl, hspan⟩).bind (hdone _)
  | cast =>
    simp only
    split
    · exact (minor_cast hspan _ _).bind (hdone _)
    · exact (minor_zeroFor ⟨rfl, hspan⟩).bind (hdone _)

theorem minor_runSteps (hspan : P span) (steps : List Step) : ∀ stack, (runSteps u span stack steps).Minor P := by
  induction steps with
  | nil => exact fun _ => minor_of_nil fun _ => rfl
  | cons step steps ih =>
    intro stack
    cases step with
    | push v => exact ih (v :: stack)
    | apply op => exact (minor_apply hspan op stack).bind ih

theorem callee_isFatal {name : String} {args : ℕ} {cause : Cause} (h : callee u name args = .error cause) :
    cause.isFatal = false := by
  unfold callee at h
  split at h
  · cases h
    rfl
  · split_ifs at h <;> cases h <;> rfl

theorem minor_call (hspan : P span) {name : String} {args : List Expression} (hargs : ∀ after : Value → Lower Unit,
    (∀ v, (after v).Minor P) → (arguments u after args).Minor P) : (step u (.call name args span)).Minor P := by
  rw [step]
  split_ifs
  · exact (hargs _ fun _ => minor_of_nil fun _ => rfl).bind fun _ => minor_of_nil fun _ => rfl
  · split
    · rename_i cause hcause
      exact (minor_note ⟨callee_isFatal hcause, hspan⟩).bind fun _ => minor_of_nil fun _ => rfl
    · exact (hargs _ fun _ => minor_of_nil fun _ => rfl).bind fun _ => minor_of_nil fun _ => rfl

mutual

theorem minor_steps : (is : List Item) → (∀ i ∈ is, i.Located P) → (steps u is).Minor P
  | [], _ => by
    rw [steps]
    exact minor_of_nil fun _ => rfl
  | i :: rest, h => by
    obtain ⟨hi, hrest⟩ := List.forall_mem_cons.1 h
    rw [steps]
    exact (minor_step i hi).bind fun _ => (minor_steps rest hrest).bind fun _ => minor_of_nil fun _ => rfl

theorem minor_step : (i : Item) → i.Located P → (step u i).Minor P
  | .var _, _ | .temp _ _, _ | .number _, _ | .operator _, _ | .opening, _ | .closing, _ => by
    rw [step]
    exact minor_of_nil fun _ => rfl
  | .call _ args _, h => by
    obtain ⟨hspan, hargs⟩ := h.of_call
    exact minor_call hspan fun _ hafter => minor_arguments hafter args hargs

theorem minor_arguments {after : Value → Lower Unit} (hafter : ∀ v, (after v).Minor P) :
    (args : List Expression) → (∀ a ∈ args, a.Located P) → (arguments u after args).Minor P
  | [], _ => by
    rw [arguments]
    exact minor_of_nil fun _ => rfl
  | e :: rest, h => by
    obtain ⟨he, hrest⟩ := List.forall_mem_cons.1 h
    rw [arguments]
    exact (minor_expression e he).bind fun v => (hafter v).bind fun _ =>
      (minor_arguments hafter rest hrest).bind fun _ => minor_of_nil fun _ => rfl

theorem minor_expression : (e : Expression) → e.Located P → (expression u e).Minor P
  | .mk is _, h => by
    rw [expression]
    exact (minor_steps is h.items).bind fun code => minor_runSteps h.span code []

end

theorem minor_statements {sts : List Statement} (h : ∀ st ∈ sts, ∀ e, st.expression? = some e → e.Located P) :
    (statements u sts).Minor P := by
  induction sts with
  | nil => exact minor_of_nil fun _ => rfl
  | cons st sts ih =>
    obtain ⟨hst, hsts⟩ := List.forall_mem_cons.1 h
    refine Minor.bind ?_ fun _ => ih hsts
    cases st with
    | eval e => exact (minor_expression e (hst e rfl)).bind fun _ => minor_of_nil fun _ => rfl
    | ret e =>
      cases e with
      | none => exact minor_of_nil fun _ => rfl
      | some e => exact (minor_expression e (hst e rfl)).bind fun _ => minor_of_nil fun _ => rfl

end Lower

theorem SourceUnit.lower_minor {u : SourceUnit} {P : Span → Prop} (h : ∀ m ∈ u.methods, ∀ b, m.body = some b →
    ∀ st ∈ b.statements, ∀ e, st.expression? = some e → e.Located P) : ∀ d ∈ u.lower.2, d.Minor P := by
  intro d hd
  obtain ⟨f, hf, hd⟩ := List.mem_flatMap.1 hd
  obtain ⟨m, hm, hmf⟩ := List.mem_filterMap.1 hf
  obtain ⟨b, hb, rfl⟩ := Option.map_eq_some_iff.1 hmf
  have hmem : m ∈ u.methods := Array.mem_toList_iff.1 (List.mem_of_mem_filter hm)
  have hnil : ∀ code, (Lower.emitAll code).Minor P := fun _ => Lower.minor_of_nil fun _ => rfl
  have hbody : (Lower.body u b).Minor P :=
    (hnil _).bind fun _ => (hnil _).bind fun _ => (Lower.minor_of_nil fun _ => rfl).bind fun _ =>
      (Lower.minor_statements (h m hmem b hb)).bind fun _ => hnil _
  exact hbody {} d hd

theorem SourceUnit.lower_mild (u : SourceUnit) : Mild u.lower.2 := by
  intro d hd
  have hminor : d.Minor fun _ => True :=
    SourceUnit.lower_minor (fun _ _ _ _ _ _ e _ => e.located_of_forall fun _ => trivial) d hd
  exact hminor.isFatal

end Lowering

section Packing

/-- Variables have the slots that packing their widths gives, in `groups` words of `bits` bits in all. -/
def PackedAs (w : Word) (vars : Array Variable) (ids : List VarId) (groups bits : ℕ) : Prop :=
  ∃ l, pack w.bits.toUInt32 (ids.map fun id => (vars.getD id default).width) = .ok l ∧
    l.slots = ids.map (fun id => (vars.getD id default).slot) ∧ l.groupCount = groups ∧ l.totalBits = bits

/-- All variables of a method have found room. -/
structure Method.Packed (w : Word) (vars : Array Variable) (m : Method) : Prop where
  result : (vars.getD m.result default).width ≤ w.bits
  params : PackedAs w vars m.params m.paramGroups m.paramBits
  locals : ∀ b, m.body = some b → PackedAs w vars b.localIds b.groupCount b.totalBits

theorem PackedAs.grows {w : Word} {vars vars' : Array Variable} {ids : List VarId} {groups bits : ℕ}
    (h : PackedAs w vars ids groups bits) (hvalid : ∀ id ∈ ids, id < vars.size) (hg : Grows vars vars') :
    PackedAs w vars' ids groups bits := by
  obtain ⟨l, hpack, hslots, hgroups, hbits⟩ := h
  have heq : ∀ id ∈ ids, vars'.getD id default = vars.getD id default :=
    fun id hid => hg.getD_eq id (hvalid id hid)
  refine ⟨l, ?_, ?_, hgroups, hbits⟩
  · rwa [List.map_congr_left fun id hid => by rw [heq id hid]]
  · rwa [List.map_congr_left fun id hid => by rw [heq id hid]]

theorem Method.Packed.grows {w : Word} {vars vars' : Array Variable} {m : Method} (h : m.Packed w vars)
    (hwf : m.WellFormed w vars) (hg : Grows vars vars') : m.Packed w vars' where
  result := by
    rw [hg.getD_eq _ hwf.result_valid]
    exact h.result
  params := h.params.grows hwf.params.valid hg
  locals := fun b hb => (h.locals b hb).grows (hwf.locals b hb).valid hg

theorem packVariables_packedAs {w : Word} {chosen : List (VarId × Span)} {vars vars' : Array Variable} {l : Layout}
    (h : packVariables w chosen vars = .ok (l, vars')) (hnodup : (chosen.map (·.1)).Nodup)
    (hvalid : ∀ v ∈ chosen, v.1 < vars.size) :
    PackedAs w vars' (chosen.map (·.1)) l.groupCount l.totalBits := by
  unfold packVariables at h
  simp only at h
  split at h
  · rename_i l' hl
    simp only [Except.ok.injEq, Prod.mk.injEq] at h
    obtain ⟨rfl, rfl⟩ := h
    have hlen : l'.slots.length = chosen.length := by simpa using (pack_word hl).length
    have hfst : (chosen.zip l'.slots).map (·.1) = chosen := List.map_fst_zip hlen.ge
    have hids : (chosen.zip l'.slots).map (·.1.1) = chosen.map (·.1) := by
      rw [← hfst, List.map_map, hfst]
      rfl
    have hget := getD_placeAll_of_mem (chosen.zip l'.slots) vars (hids ▸ hnodup)
      fun p hp => hvalid _ (List.of_mem_zip hp).1
    have hwidths : (chosen.zip l'.slots).map (fun p => (vars.getD p.1.1 default).width) =
        chosen.map fun v => (vars.getD v.1 default).width := by
      rw [← hfst, List.map_map, hfst]
      rfl
    change PackedAs w (placeAll vars (chosen.zip l'.slots)) _ _ _
    refine ⟨l', ?_, (List.map_snd_zip hlen.le).symm.trans ?_, rfl, rfl⟩
    · rw [← hids, List.map_map, ← hl, ← hwidths]
      refine congrArg _ (List.map_congr_left fun p hp => ?_)
      have hwidth := congrArg Variable.width (hget p hp)
      exact hwidth
    · rw [← hids, List.map_map]
      refine List.map_congr_left fun p hp => ?_
      exact (congrArg Variable.slot (hget p hp)).symm
  · cases h

theorem readBody_packedAs {w : Word} {start : Scope} (hstart : start.locals = #[] ∧ start.statements = #[])
    (hvalid : ∀ id ∈ start.result :: start.params, id < start.vars.size) {block : Block} {b : Body}
    (hb : (readBody w start block).2.2 = some b) :
    PackedAs w (readBody w start block).1 b.localIds b.groupCount b.totalBits := by
  have hsound := Scope.sound_readAll hstart hvalid block.clauses
  unfold readBody at hb ⊢
  simp only at hb ⊢
  generalize (start.readAll block.clauses).1 = s at hsound hb ⊢
  split_ifs at hb ⊢
  split at hb
  · cases hb
  · rename_i l vars hpack
    cases hb
    have hids : (s.locals.toList.map fun l => (l.id, l.span)).map (·.1) = s.locals.toList.map (·.id) := by
      rw [List.map_map]
      rfl
    have hlocals : Body.localIds ⟨s.locals.toList.map fun l => (l.name, l.id), s.statements.toList, l.groupCount,
        l.totalBits⟩ = (s.locals.toList.map fun l => (l.id, l.span)).map (·.1) := by
      rw [Body.localIds, hids, List.map_map]
      rfl
    rw [hlocals]
    refine packVariables_packedAs hpack (by rw [hids]; exact hsound.nodup) ?_
    intro v hv
    obtain ⟨x, hx, rfl⟩ := List.mem_map.1 hv
    exact (hsound.locals x (Array.mem_toList_iff.1 hx)).2.1

/-- A method that is kept has found room for its parameters, and its body, if it has one, was read after
these. -/
theorem readMethod_some {w : Word} {vars : Array Variable} {h : Heading} {block : Option Block} {m : Method}
    (hm : (readMethod w vars h block).method = some m) : m.name = h.result.name ∧ m.result = vars.size ∧
    ∃ l vars', packVariables w (h.declared vars).2.1 (h.declared vars).1 = .ok (l, vars') ∧
      m.params = (h.declared vars).2.1.map (·.1) ∧ m.paramGroups = l.groupCount ∧ m.paramBits = l.totalBits ∧
      ((m.body = none ∧ (readMethod w vars h block).vars = vars') ∨
        ∃ b body, (readBody w (h.bodyScope vars vars') b).2.2 = some body ∧ m.body = some body ∧
          (readMethod w vars h block).vars = (readBody w (h.bodyScope vars vars') b).1) := by
  have hdeclared : declareParams (vars.push (h.result.toVariable .result)) [] h.params = h.declared vars := rfl
  unfold readMethod at hm ⊢
  simp only [hdeclared] at hm ⊢
  split_ifs at hm ⊢
  cases hpack : packVariables w (h.declared vars).2.1 (h.declared vars).1 with
  | error d =>
    rw [hpack] at hm
    cases hm
  | ok r =>
    obtain ⟨l, vars'⟩ := r
    rw [hpack] at hm
    cases block with
    | none =>
      cases hm
      exact ⟨rfl, rfl, l, vars', rfl, rfl, rfl, rfl, Or.inl ⟨rfl, rfl⟩⟩
    | some block =>
      obtain ⟨b, hb, rfl⟩ := Option.map_eq_some_iff.1 hm
      exact ⟨rfl, rfl, l, vars', rfl, rfl, rfl, rfl, Or.inr ⟨block, b, hb, rfl, rfl⟩⟩

theorem Heading.bodyScope_valid {w : Word} {vars vars' : Array Variable} {h : Heading} {l : Layout}
    (hpack : packVariables w (h.declared vars).2.1 (h.declared vars).1 = .ok (l, vars')) :
    ∀ id ∈ vars.size :: (h.declared vars).2.1.map (·.1), id < vars'.size := by
  have hdecl : Declared (vars.push (h.result.toVariable .result)) (h.declared vars).1 (h.declared vars).2.1 :=
    declareParams_declared h.params (.nil _)
  obtain ⟨hplaced, hsize, -, -⟩ :=
    packVariables_placed hpack hdecl.nodup hdecl.valid hdecl.storage_eq hdecl.width_pos
  refine List.forall_mem_cons.2 ⟨?_, hplaced.valid⟩
  have hle := hdecl.grows.size_le
  rw [Array.size_push] at hle
  omega

theorem readMethod_packed {w : Word} {vars : Array Variable} {h : Heading} {block : Option Block} {m : Method}
    (hm : (readMethod w vars h block).method = some m) : m.Packed w (readMethod w vars h block).vars := by
  obtain ⟨-, -, l, vars', hpack, hparams, hgroups, hbits, hbody⟩ := readMethod_some hm
  have hresult := ((readMethod_wellFormed w vars h block).2 m hm).1.result_le
  have hdecl : Declared (vars.push (h.result.toVariable .result)) (h.declared vars).1 (h.declared vars).2.1 :=
    declareParams_declared h.params (.nil _)
  have hpacked := packVariables_packedAs hpack hdecl.nodup hdecl.valid
  rw [← hparams, ← hgroups, ← hbits] at hpacked
  rcases hbody with ⟨hnone, hvars⟩ | ⟨b, body, hb, hsome, hvars⟩
  · rw [hvars] at hresult ⊢
    exact ⟨hresult, hpacked, fun b hb => by rw [hnone] at hb; cases hb⟩
  · have hvalid := Heading.bodyScope_valid hpack
    obtain ⟨hgrow, -⟩ := readBody_wellFormed w (h.bodyScope vars vars') ⟨rfl, rfl⟩ hvalid b
    rw [hvars] at hresult ⊢
    refine ⟨hresult, hpacked.grows ?_ hgrow, ?_⟩
    · rw [hparams]
      exact (List.forall_mem_cons.1 hvalid).2
    · intro b' hb'
      rw [hsome] at hb'
      cases hb'
      exact readBody_packedAs ⟨rfl, rfl⟩ hvalid hb

/-- The methods of a unit have found room for all their variables. -/
def SourceUnit.Packed (u : SourceUnit) : Prop :=
  ∀ m ∈ u.methods, m.Packed u.word u.vars

theorem Method.packed_persistent (w : Word) : Method.Persistent w (fun vars m => m.Packed w vars) where
  read := readMethod_packed
  grows := fun hwf hm hgrow => hm.grows hwf hgrow

theorem SourceUnit.ofText_packed (w : Word) (src : String) : (SourceUnit.ofText w src).1.Packed := by
  intro m hm
  rw [(SourceUnit.ofText_wellFormed w src).2]
  exact SourceUnit.ofText_methods (Method.packed_persistent w) src m hm

end Packing

/-- Reading a text meets at most one fatal problem, for want of room, and meets it last. The text then fails to
compile, with the problems of its reading. Otherwise it compiles, to a unit in which all variables have found
room, and the problems are those of its reading followed by those of its lowering, none of them fatal. -/
theorem compile_fails_iff_fatal (w : Word) (src : String) :
    FatalLast (SourceUnit.ofText w src).2 ∧
    (∀ ds, compile w src = .error ds ↔
      (∃ d ∈ (SourceUnit.ofText w src).2, d.isFatal = true) ∧ ds = (SourceUnit.ofText w src).2) ∧
    (Mild (SourceUnit.ofText w src).2 → ∃ c, compile w src = .ok c ∧ c.unit = (SourceUnit.ofText w src).1 ∧
      c.output = (c.unit.generate w).1 ∧ c.faults = (SourceUnit.ofText w src).2 ++ (c.unit.generate w).2 ∧
      Mild c.faults) ∧
    (SourceUnit.ofText w src).1.Packed := by
  obtain ⟨-, hword⟩ := SourceUnit.ofText_wellFormed w src
  have hpacked := SourceUnit.ofText_packed w src
  have hlast := SourceUnit.ofText_fatalLast w src
  unfold compile
  generalize SourceUnit.ofText w src = r at hword hpacked hlast ⊢
  obtain ⟨u, faults⟩ := r
  have hlower : Mild (u.generate w).2 := by
    rw [SourceUnit.generate, if_pos hword]
    exact u.lower_mild
  refine ⟨hlast, ?_, ?_, hpacked⟩
  · intro ds
    by_cases hfatal : faults.any Diagnostic.isFatal = true
    · simp only [hfatal, if_true, Except.error.injEq]
      exact ⟨fun h => ⟨List.any_eq_true.1 hfatal, h.symm⟩, fun h => h.2.symm⟩
    · have hmild : Mild faults := by simpa [Mild] using hfatal
      have hall := (hmild.append hlower).any_eq_false
      simp only [hfatal, hall, Bool.false_eq_true, if_false]
      constructor
      · intro h
        cases h
      · rintro ⟨⟨d, hd, htrue⟩, -⟩
        rw [hmild d hd] at htrue
        cases htrue
  · intro hmild
    have hall := (hmild.append hlower).any_eq_false
    simp only [hmild.any_eq_false, hall, Bool.false_eq_true, if_false]
    exact ⟨_, rfl, rfl, rfl, rfl, hmild.append hlower⟩

/-- `a` is too wide for any word; `y` is not read. -/
example : (SourceUnit.ofText .w64 "object 8 A;x;8 f(65 a);y;").2.map Diagnostic.isFatal = [false, true] := by
  decide +kernel

end Bitpack
