import Mathlib
import Bitpack.Proofs.Layout
import Bitpack.Proofs.Symbols

/-! Methods by themselves. What is read of a method does not depend on the methods before it, except that its variables
come behind theirs: a unit that is read without a problem is made of parts, each a method among variables of its own. -/

namespace Bitpack

section Behind

/-- Behind other variables, at the same places. -/
def Relocation.behind (front : Array Variable) : Relocation where
  front
  place := id
  place_origin := rfl
  place_join _ _ := rfl

variable (front : Array Variable)

theorem Clause.move_behind (c : Clause) : c.move (.behind front) = c :=
  congrArg (Clause.mk · c.stop) (List.map_id c.tokens)

theorem Block.move_behind (b : Block) : b.move (.behind front) = b := by
  have hclauses : b.clauses.map (Clause.move (.behind front)) = b.clauses :=
    (List.map_congr_left fun c _ => c.move_behind front).trans (List.map_id _)
  exact congrArg (Block.mk · b.close) hclauses

theorem Heading.move_behind (h : Heading) : h.move (.behind front) = h :=
  congrArg (Heading.mk h.access h.result · h.variadic) (List.map_id h.params)

theorem readMethod_behind (w : Word) (heading : Heading) (block : Option Block) :
    readMethod w front heading block = ⟨front ++ (readMethod w #[] heading block).vars,
      (readMethod w #[] heading block).faults,
      (readMethod w #[] heading block).method.map (Method.move (.behind front))⟩ := by
  have hread := readMethod_move (.behind front) w #[] heading block
  have hblock : block.map (Block.move (.behind front)) = block := by
    rw [funext (Block.move_behind front), Option.map_id']
  have hfront : (Relocation.behind front).front ++ #[] = front := Array.append_empty
  rw [hfront, Heading.move_behind, hblock] at hread
  rw [hread, MethodReading.move, show List.map (Diagnostic.move (.behind front)) _ = _ from List.map_id _]
  rfl

end Behind

section Parts

variable {w : Word} {u u' : SourceUnit}

/-- A method among variables of its own. -/
structure Part (w : Word) where
  vars : Array Variable
  method : Method
  wellFormed : method.WellFormed w vars

/-- The method of an item, read by itself. -/
def Entry.part? (w : Word) : Entry → Option (Part w)
  | .imported .. => none
  | .broken _ => none
  | .method _ heading block =>
    match hm : (readMethod w #[] heading block).method with
    | none => none
    | some m => some ⟨(readMethod w #[] heading block).vars, m, ((readMethod_wellFormed w #[] heading block).2 m hm).1⟩

theorem Entry.part?_none {w : Word} {notes : List Diagnostic} {heading : Heading} {block : Option Block}
    (hm : (readMethod w #[] heading block).method = none) : Entry.part? w (.method notes heading block) = none := by
  simp only [Entry.part?]
  split
  · rfl
  · rename_i hm'
    cases hm.symm.trans hm'

theorem Entry.part?_some {w : Word} {notes : List Diagnostic} {heading : Heading} {block : Option Block} {m : Method}
    (hm : (readMethod w #[] heading block).method = some m) :
    ∃ p, Entry.part? w (.method notes heading block) = some p ∧
      p.vars = (readMethod w #[] heading block).vars ∧ p.method = m := by
  simp only [Entry.part?]
  split
  · rename_i hm'
    cases hm.symm.trans hm'
  · rename_i m' hm'
    cases hm.symm.trans hm'
    exact ⟨_, rfl, rfl, rfl⟩

/-- What is wrong with an item by itself. -/
def Entry.ownFaults (w : Word) : Entry → List Diagnostic
  | .imported .. => []
  | .broken faults => faults
  | .method notes heading block => notes ++ (readMethod w #[] heading block).faults

namespace Part

/-- The variables of the part are those of the unit from `front` on. -/
structure At (p : Part w) (front : Array Variable) (u : SourceUnit) : Prop where
  size_le : p.vars.size + front.size ≤ u.vars.size
  var_eq : ∀ id < p.vars.size, u.var (id + front.size) = p.vars.getD id default

/-- `m` is the method of the part, where the unit has it. -/
def Stands (u : SourceUnit) (m : Method) (p : Part w) : Prop :=
  ∃ front, m = p.method.move (.behind front) ∧ p.At front u

theorem Stands.name_eq {m : Method} {p : Part w} (h : Stands u m p) : m.name = p.method.name := by
  obtain ⟨front, rfl, -⟩ := h
  rfl

theorem Stands.grows {m : Method} {p : Part w} (h : Stands u m p) (hg : Grows u.vars u'.vars) : Stands u' m p := by
  obtain ⟨front, hm, hsize, hvar⟩ := h
  refine ⟨front, hm, hsize.trans hg.size_le, fun id hid => ?_⟩
  exact (hg.getD_eq _ (by omega)).trans (hvar id hid)

end Part

/-- The methods of a unit, each with its part. -/
structure SourceUnit.MadeOf (w : Word) (parts : List (Part w)) (u : SourceUnit) : Prop where
  word : u.word = w
  methods : List.Forall₂ (Part.Stands u) u.methods.toList parts

namespace SourceUnit.MadeOf

variable {parts : List (Part w)}

theorem names_eq (h : u.MadeOf w parts) : u.methods.toList.map (·.name) = parts.map (·.method.name) := by
  obtain ⟨-, hall⟩ := h
  generalize u.methods.toList = ms at hall
  induction hall with
  | nil => rfl
  | cons hm _ ih => exact congrArg₂ List.cons hm.name_eq ih

theorem isSome_method? (h : u.MadeOf w parts) (name : String) :
    (u.method? name).isSome ↔ name ∈ parts.map (·.method.name) := by
  rw [← h.names_eq]
  simp [SourceUnit.method?]

theorem grows (h : u.MadeOf w parts) (hword : u'.word = u.word) (hmethods : u'.methods = u.methods)
    (hg : Grows u.vars u'.vars) : u'.MadeOf w parts := by
  refine ⟨hword.trans h.word, ?_⟩
  rw [hmethods]
  exact h.methods.imp fun _ _ hm => hm.grows hg

end SourceUnit.MadeOf

theorem grows_append (vars more : Array Variable) : Grows vars (vars ++ more) := by
  refine ⟨by simp, fun id hid => ?_⟩
  rw [Array.getD_eq_getD_getElem?, Array.getElem?_append_left hid, ← Array.getD_eq_getD_getElem?]

end Parts

section Drafts

variable {w : Word} {u : SourceUnit} {parts : List (Part w)}

namespace SourceUnit.MadeOf

theorem push (h : u.MadeOf w parts) (p : Part w) :
    SourceUnit.MadeOf w (parts ++ [p])
      { u with vars := u.vars ++ p.vars, methods := u.methods.push (p.method.move (.behind u.vars)) } := by
  have hg : Grows u.vars (u.vars ++ p.vars) := grows_append _ _
  refine ⟨h.word, ?_⟩
  rw [Array.toList_push]
  refine List.rel_append (h.methods.imp fun _ _ hm => hm.grows hg) (.cons ⟨u.vars, rfl, ?_, ?_⟩ .nil)
  · simp [Nat.add_comm]
  · exact fun id _ => Relocation.getD_var (.behind u.vars) p.vars id

/-- An item is added without a problem exactly if nothing is wrong with it by itself and its name is new; it is then one
more part. -/
theorem add (h : u.MadeOf w parts) (e : Entry) :
    ((Draft.add ⟨u, []⟩ e).faults = [] ↔
      e.ownFaults w = [] ∧ ∀ p ∈ e.part? w, p.method.name ∉ parts.map (·.method.name)) ∧
    ((Draft.add ⟨u, []⟩ e).faults = [] →
      (Draft.add ⟨u, []⟩ e).unit.MadeOf w (parts ++ (e.part? w).toList)) := by
  cases e with
  | imported name span =>
    refine ⟨by simp [Draft.add, Entry.ownFaults, Entry.part?], fun _ => ?_⟩
    rw [Entry.part?, Option.toList_none, List.append_nil]
    exact h.grows rfl rfl (.refl _)
  | broken faults =>
    refine ⟨by simp [Draft.add, Entry.ownFaults, Entry.part?], fun _ => ?_⟩
    rw [Entry.part?, Option.toList_none, List.append_nil]
    exact h
  | method notes heading block =>
    simp only [Draft.add, h.word, readMethod_behind u.vars, Entry.ownFaults, List.nil_append]
    cases hm : (readMethod w #[] heading block).method with
    | none =>
      rw [Entry.part?_none hm, Option.toList_none, List.append_nil]
      exact ⟨by simp, fun _ => h.grows h.word.symm rfl (grows_append _ _)⟩
    | some m =>
      obtain ⟨p, hpart, hvars, rfl⟩ := @Entry.part?_some w notes heading block m hm
      rw [hpart, ← hvars]
      have hsome : (SourceUnit.method? { u with word := w, vars := u.vars ++ p.vars }
          (p.method.move (.behind u.vars)).name).isSome ↔ p.method.name ∈ parts.map (·.method.name) :=
        h.isSome_method? p.method.name
      simp only [Option.map_some, Option.mem_some_iff, Option.toList_some, Draft.insert]
      by_cases htaken : p.method.name ∈ parts.map (·.method.name)
      · rw [if_pos (hsome.2 htaken)]
        refine ⟨⟨fun hf => ?_, fun hok => absurd htaken (hok.2 _ rfl)⟩, fun hf => ?_⟩ <;> simp at hf
      · rw [if_neg (mt hsome.1 htaken)]
        refine ⟨⟨fun hf => ⟨hf, ?_⟩, And.left⟩, fun _ => ?_⟩
        · rintro _ rfl
          exact htaken
        · have hpush := h.push p
          rw [h.word] at hpush
          exact hpush

/-- Items are added without a problem exactly if nothing is wrong with any of them by itself and all names differ; each
method is then a part. -/
theorem addAll (es : List Entry) : ∀ {u : SourceUnit} {parts : List (Part w)}, u.MadeOf w parts →
    (parts.map (·.method.name)).Nodup →
    ((Draft.addAll ⟨u, []⟩ es).faults = [] ↔ (∀ e ∈ es, e.ownFaults w = []) ∧
      ((parts ++ es.filterMap (Entry.part? w)).map (·.method.name)).Nodup) ∧
    ((Draft.addAll ⟨u, []⟩ es).faults = [] →
      (Draft.addAll ⟨u, []⟩ es).unit.MadeOf w (parts ++ es.filterMap (Entry.part? w))) := by
  induction es with
  | nil =>
    intro u parts h hnodup
    simp [Draft.addAll, hnodup, h]
  | cons e es ih =>
    intro u parts h hnodup
    obtain ⟨hiff, hmade⟩ := h.add e
    have hparts : parts ++ (e :: es).filterMap (Entry.part? w) =
        parts ++ (e.part? w).toList ++ es.filterMap (Entry.part? w) := by
      rw [List.filterMap_cons, List.append_assoc]
      cases e.part? w <;> rfl
    rw [Draft.addAll_cons rfl, hparts, List.forall_mem_cons]
    by_cases hf : (Draft.add ⟨u, []⟩ e).faults = []
    · obtain ⟨hown, hnew⟩ := hiff.1 hf
      have hdraft : Draft.add ⟨u, []⟩ e = ⟨(Draft.add ⟨u, []⟩ e).unit, []⟩ := congrArg (Draft.mk _) hf
      have hnodup' : ((parts ++ (e.part? w).toList).map (·.method.name)).Nodup := by
        cases hpart : e.part? w with
        | none => simpa using hnodup
        | some p =>
          rw [Option.toList_some, List.map_append, List.map_singleton, ← List.concat_eq_append]
          exact hnodup.concat (hnew p hpart)
      rw [hdraft]
      obtain ⟨hiff', hmade'⟩ := ih (hmade hf) hnodup'
      exact ⟨hiff'.trans (by simp [hown]), hmade'⟩
    · -- What is wrong stays so, and it is either in the item or a name that is taken.
      have hall : (Draft.addAll (Draft.add ⟨u, []⟩ e) es).faults ≠ [] := fun h => hf (Draft.faults_of_addAll es h)
      refine ⟨iff_of_false hall ?_, fun h => absurd h hall⟩
      rintro ⟨⟨hown, -⟩, hdistinct⟩
      refine hf (hiff.2 ⟨hown, ?_⟩)
      intro p hpart htaken
      rw [Option.mem_def.1 hpart, List.map_append, List.map_append, List.append_assoc] at hdistinct
      exact List.disjoint_of_nodup_append hdistinct htaken (by simp)

end SourceUnit.MadeOf
end Drafts

section Alike

variable {u u' : SourceUnit} {ρ ρ' : Relocation} {scope : List VarId}

theorem Expression.move_items (ρ : Relocation) (e : Expression) : (e.move ρ).items = e.items.map (Item.move ρ) := by
  obtain ⟨items, span⟩ := e
  exact Item.moveAll_eq ρ items

theorem Item.Plain.move_alike (hvars : ∀ id ∈ scope, u.var (ρ.var id) = u'.var (ρ'.var id)) {i : Item}
    (h : i.Plain scope) : (i.move ρ).Alike u u' (i.move ρ') := by
  induction h with
  | var h => exact .var (hvars _ h)
  | number => exact .number _
  | operator => exact .operator _
  | @call name args span h ih =>
    rw [Item.move, Item.move, Expression.moveAll_eq, Expression.moveAll_eq]
    refine .call name _ _ (List.forall₂_map_left_iff.2 (List.forall₂_map_right_iff.2 (List.forall₂_same.2 ?_)))
    intro e he
    rw [Expression.move_items, Expression.move_items]
    exact List.forall₂_map_left_iff.2 (List.forall₂_map_right_iff.2 (List.forall₂_same.2 (ih e he)))
  | opening => exact .opening
  | closing => exact .closing

theorem Expression.Scoped.move_alike (hvars : ∀ id ∈ scope, u.var (ρ.var id) = u'.var (ρ'.var id)) {e : Expression}
    (h : e.Scoped scope) : (e.move ρ).Alike u u' (e.move ρ') := by
  unfold Expression.Alike
  rw [Expression.move_items, Expression.move_items]
  refine List.forall₂_map_left_iff.2 (List.forall₂_map_right_iff.2 (List.forall₂_same.2 fun i hi => ?_))
  rcases h.item hi with hplain | hassign
  · exact hplain.move_alike hvars
  · cases i with
    | operator op => exact .operator op
    | var | temp | number | call | opening | closing => cases hassign

theorem Statement.Scoped.move_alike (hvars : ∀ id ∈ scope, u.var (ρ.var id) = u'.var (ρ'.var id)) {st : Statement}
    (h : st.Scoped scope) : (st.move ρ).Alike u u' (st.move ρ') := by
  cases st with
  | eval e => exact .eval ((h e rfl).move_alike hvars)
  | ret e =>
    cases e with
    | none => exact .ret .none
    | some e => exact .ret (.some ((h e rfl).move_alike hvars))

theorem Method.WellFormed.move_alike {w : Word} {vars : Array Variable} {m : Method} (h : m.WellFormed w vars)
    (hvars : ∀ id ∈ m.scope, u.var (ρ.var id) = u'.var (ρ'.var id)) : (m.move ρ).Alike u u' (m.move ρ') := by
  refine ⟨rfl, rfl, ?_, rfl, hvars _ (by simp [Method.scope]), rfl, ?_⟩
  · simp only [Method.move, List.map_map]
    exact List.map_congr_left fun id hid => hvars id (by simp [Method.scope, hid])
  · simp only [Method.move]
    cases hb : m.body with
    | none => exact .none
    | some b =>
      refine .some ⟨?_, rfl⟩
      refine List.forall₂_map_left_iff.2 (List.forall₂_map_right_iff.2 (List.forall₂_same.2 fun st hst => ?_))
      exact (h.statements b hb st hst).move_alike hvars

theorem Part.Stands.alike {w : Word} {p : Part w} {m m' : Method} (h : Part.Stands u m p) (h' : Part.Stands u' m' p) :
    m.Alike u u' m' := by
  obtain ⟨front, rfl, -, hvar⟩ := h
  obtain ⟨front', rfl, -, hvar'⟩ := h'
  refine p.wellFormed.move_alike fun id hid => ?_
  have hlt := p.wellFormed.scope_valid hid
  exact (hvar id hlt).trans (hvar' id hlt).symm

end Alike
end Bitpack
