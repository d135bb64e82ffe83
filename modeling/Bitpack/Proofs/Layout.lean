import Mathlib
import Bitpack.Proofs.Alike

/-! Layout. A unit without its places is like the unit, and its outline is the same, so all that blanks and comments
can change of a compilation is the places of its problems. -/

namespace Bitpack

section Bare

mutual

theorem Item.alike_bare (u : SourceUnit) : (i : Item) → i.Alike u u.bare i.bare
  | .var _ => .var rfl
  | .temp id width => .temp id width
  | .number n => .number n
  | .call name args span => .call name span Span.origin (Expression.alike_bareAll u args)
  | .operator op => .operator op
  | .opening => .opening
  | .closing => .closing

theorem Expression.alike_bare (u : SourceUnit) : (e : Expression) → e.Alike u u.bare e.bare
  | .mk items _ => Item.alike_bareAll u items

theorem Item.alike_bareAll (u : SourceUnit) : (is : List Item) →
    List.Forall₂ (Item.Alike u u.bare) is (Item.bareAll is)
  | [] => .nil
  | i :: is => .cons (i.alike_bare u) (Item.alike_bareAll u is)

theorem Expression.alike_bareAll (u : SourceUnit) : (es : List Expression) →
    List.Forall₂ (Expression.Alike u u.bare) es (Expression.bareAll es)
  | [] => .nil
  | e :: es => .cons (e.alike_bare u) (Expression.alike_bareAll u es)

end

theorem Statement.alike_bare (u : SourceUnit) (st : Statement) : st.Alike u u.bare st.bare := by
  cases st with
  | eval e => exact .eval (e.alike_bare u)
  | ret e =>
    cases e with
    | none => exact .ret .none
    | some e => exact .ret (.some (e.alike_bare u))

theorem Method.alike_bare (u : SourceUnit) (m : Method) : m.Alike u u.bare m.bare := by
  refine ⟨rfl, rfl, rfl, rfl, rfl, rfl, ?_⟩
  obtain ⟨name, access, params, paramGroups, paramBits, result, variadic, body, span⟩ := m
  cases body with
  | none => exact .none
  | some b =>
    refine .some ⟨?_, rfl⟩
    exact List.forall₂_map_right_iff.2 (List.forall₂_same.2 fun st _ => st.alike_bare u)

namespace SourceUnit

theorem alike_bare (u : SourceUnit) : u.Alike u.bare := by
  refine ⟨rfl, rfl, rfl, fun name => ?_⟩
  rw [method?_bare]
  cases u.method? name with
  | none => exact .none
  | some m => exact .some (m.alike_bare u)

theorem visibleMethods_bare (u : SourceUnit) : u.bare.visibleMethods = u.visibleMethods.map Method.bare := by
  simp only [visibleMethods, bare, Array.toList_map, List.filter_map]
  rfl

theorem lower_bare (u : SourceUnit) :
    u.lower.1 = u.bare.lower.1 ∧ u.lower.2.map (·.cause) = u.bare.lower.2.map (·.cause) := by
  refine lower_alike u.alike_bare ?_
  rw [visibleMethods_bare]
  exact List.forall₂_map_right_iff.2 (List.forall₂_same.2 fun m _ => m.alike_bare u)

theorem generate_bare (u : SourceUnit) (w : Word) : (u.generate w).1 = (u.bare.generate w).1 ∧
    (u.generate w).2.map (·.cause) = (u.bare.generate w).2.map (·.cause) := by
  obtain ⟨hfile, hcauses⟩ := u.lower_bare
  have hword : u.bare.word = u.word := rfl
  simp only [generate, hword]
  split_ifs
  · exact ⟨congrArg C.File.text hfile, hcauses⟩
  · exact ⟨rfl, rfl⟩

end SourceUnit
end Bare

section Outlines

variable (nameOf : VarId → String)

mutual

theorem Item.outline_bare : (i : Item) → i.bare.outline nameOf = i.outline nameOf
  | .var _ => rfl
  | .temp _ _ => rfl
  | .number _ => rfl
  | .call name args span => by
    rw [Item.bare, Item.outline, Item.outline, outlineAll_bare args]
  | .operator _ => rfl
  | .opening => rfl
  | .closing => rfl

theorem Expression.outline_bare : (e : Expression) → e.bare.outline nameOf = e.outline nameOf
  | .mk items _ => by
    rw [Expression.bare, Expression.outline, Expression.outline, outlineItems_bare items]

theorem outlineItems_bare : (is : List Item) → outlineItems nameOf (Item.bareAll is) = outlineItems nameOf is
  | [] => rfl
  | i :: is => by
    rw [Item.bareAll, outlineItems, outlineItems, i.outline_bare, outlineItems_bare is]

theorem outlineAll_bare : (es : List Expression) → outlineAll nameOf (Expression.bareAll es) = outlineAll nameOf es
  | [] => rfl
  | e :: es => by
    rw [Expression.bareAll, outlineAll, outlineAll, e.outline_bare, outlineAll_bare es]

end

theorem Statement.outline_bare (st : Statement) : st.bare.outline nameOf = st.outline nameOf := by
  cases st with
  | eval e => exact congrArg ("  expr " ++ ·) (e.outline_bare nameOf)
  | ret e =>
    cases e with
    | none => rfl
    | some e => exact congrArg ("  return " ++ ·) (e.outline_bare nameOf)

theorem Method.outline_bare (u : SourceUnit) (m : Method) : m.bare.outline u.bare = m.outline u := by
  have hstatements : ∀ sts : List Statement,
      (sts.map Statement.bare).map (Statement.outline fun id => (u.var id).name) =
        sts.map (Statement.outline fun id => (u.var id).name) := by
    intro sts
    rw [List.map_map]
    exact List.map_congr_left fun st _ => st.outline_bare _
  obtain ⟨name, access, params, paramGroups, paramBits, result, variadic, body, span⟩ := m
  cases body with
  | none => rfl
  | some b => exact congrArg (_ ++ ·) (hstatements b.statements)

theorem SourceUnit.outline_bare (u : SourceUnit) : u.bare.outline = u.outline := by
  have himports : u.bare.imports.toList.map (fun i => "import " ++ i.name) =
      u.imports.toList.map fun i => "import " ++ i.name := by
    simp only [bare, Array.toList_map, List.map_map]
    rfl
  have hmethods : u.bare.methods.toList.flatMap (Method.outline · u.bare) =
      u.methods.toList.flatMap (Method.outline · u) := by
    simp only [bare, Array.toList_map, List.flatMap_map]
    exact List.flatMap_congr fun m _ => m.outline_bare u
  unfold outline outlineLines
  rw [himports, hmethods]
  rfl

end Outlines

section Compilation

theorem any_isFatal_eq {ds ds' : List Diagnostic} (h : ds.map (·.cause) = ds'.map (·.cause)) :
    ds.any Diagnostic.isFatal = ds'.any Diagnostic.isFatal := by
  have hcause : ∀ ds : List Diagnostic, ds.any Diagnostic.isFatal = (ds.map (·.cause)).any Cause.isFatal :=
    fun ds => List.any_map.symm
  rw [hcause, hcause, h]

/-- Layout does not matter. Two sources with tokens of the same kinds are both refused, for the same causes, or both
compiled, to the same C text and the same outline and with problems of the same causes. -/
theorem compile_ignores_layout (w : Word) (src src' : String) (hsrc : src ≠ "") (hsrc' : src' ≠ "")
    (hkinds : (Token.scan src).map (·.kind) = (Token.scan src').map (·.kind)) :
    (∃ ds ds', compile w src = .error ds ∧ compile w src' = .error ds' ∧ ds.map (·.cause) = ds'.map (·.cause)) ∨
      ∃ c c', compile w src = .ok c ∧ compile w src' = .ok c' ∧ c.output = c'.output ∧
        c.unit.outline = c'.unit.outline ∧ c.faults.map (·.cause) = c'.faults.map (·.cause) := by
  have htext : ∀ {src : String}, src ≠ "" →
      SourceUnit.ofText w src = SourceUnit.ofTokens w (Token.finishOf src) (Token.scan src) :=
    fun h => if_neg fun hempty => h (String.isEmpty_iff.1 hempty)
  obtain ⟨hunit, hcauses⟩ := SourceUnit.ofTokens_of_kinds w (Token.finishOf src) (Token.finishOf src') rfl hkinds
  rw [← htext hsrc, ← htext hsrc'] at hunit hcauses
  unfold compile
  generalize SourceUnit.ofText w src = r, SourceUnit.ofText w src' = r' at hunit hcauses
  obtain ⟨u, ds⟩ := r
  obtain ⟨u', ds'⟩ := r'
  obtain ⟨houtput, hmore⟩ := u.generate_bare w
  obtain ⟨houtput', hmore'⟩ := u'.generate_bare w
  have hall : (ds ++ (u.generate w).2).map (·.cause) = (ds' ++ (u'.generate w).2).map (·.cause) := by
    rw [List.map_append, List.map_append, hcauses, hmore, hmore', hunit]
  simp only [any_isFatal_eq hcauses, any_isFatal_eq hall]
  split_ifs
  · exact .inl ⟨ds, ds', rfl, rfl, hcauses⟩
  · exact .inl ⟨_, _, rfl, rfl, hall⟩
  · refine .inr ⟨_, _, rfl, rfl, ?_, ?_, hall⟩
    · exact houtput.trans ((congrArg (fun u => (SourceUnit.generate u w).1) hunit).trans houtput'.symm)
    · exact u.outline_bare.symm.trans ((congrArg SourceUnit.outline hunit).trans u'.outline_bare)

/-- On one line, and spread out with a comment; a variable that is not declared is reported for both. -/
theorem compile_ignores_layout_of_comment :
    ∃ c c', compile .w64 "object 8 A;8 f(8 a)\x7ba=a+q;\x7d" = .ok c ∧
      compile .w64 "object 8 A ; # the unit\n8 f (8 a)\n\x7b\n\ta = a + q;\n\x7d\n" = .ok c' ∧
      c.output = c'.output ∧ c.unit.outline = c'.unit.outline ∧ c.faults.map (·.cause) = c'.faults.map (·.cause) := by
  obtain ⟨ds, ds', h, -⟩ | hok := compile_ignores_layout .w64 "object 8 A;8 f(8 a)\x7ba=a+q;\x7d"
      "object 8 A ; # the unit\n8 f (8 a)\n\x7b\n\ta = a + q;\n\x7d\n" (by decide) (by decide) (by decide +kernel)
  · have hok : (compile .w64 "object 8 A;8 f(8 a)\x7ba=a+q;\x7d").toOption.isSome = true := by decide +kernel
    rw [h] at hok
    cases hok
  · exact hok

end Compilation
end Bitpack
