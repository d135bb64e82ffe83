import Mathlib
import Bitpack.Proofs.Climbing
import Bitpack.Proofs.Postfix

/-! Putting items in postfix order loses none and makes up none, whatever the list. An operator is on the stack or has
gone out, and the stack holds nothing but operators and opening parentheses, so operands go out in the order in which
they come. -/

namespace Bitpack

def Item.operator? : Item → Option Operator
  | .operator op => some op
  | _ => none

section Stack

variable {stack : List Item}

theorem filter_isOperand_of_waits (h : ∀ i ∈ stack, i.Waits) : stack.filter Item.isOperand = [] := by
  refine List.filter_eq_nil_iff.2 fun i hi => ?_
  rcases h i hi with rfl | ⟨op, rfl⟩ <;> exact Bool.false_ne_true

theorem filterMap_operator?_filter (stack : List Item) :
    (stack.filter (!·.isOpening)).filterMap Item.operator? = stack.filterMap Item.operator? := by
  rw [List.filterMap_filter]
  congr 1
  funext i
  cases i <;> rfl

theorem filterMap_operator?_tail_dropWhile (stack : List Item) :
    (stack.dropWhile (!·.isOpening)).tail.filterMap Item.operator? =
      (stack.dropWhile (!·.isOpening)).filterMap Item.operator? := by
  induction stack with
  | nil => rfl
  | cons i stack ih =>
    cases i with
    | opening => rfl
    | _ => exact ih

theorem filterMap_operator?_takeWhile_append (leaves : Item → Bool) (stack : List Item) :
    (stack.takeWhile leaves).filterMap Item.operator? ++ (stack.dropWhile leaves).filterMap Item.operator? =
      stack.filterMap Item.operator? := by
  rw [← List.filterMap_append, List.takeWhile_append_dropWhile]

end Stack

/-- Operands go out as they come in, for none is held back on the stack. -/
theorem filter_isOperand_shunt {stack rest : List Item} (hstack : ∀ i ∈ stack, i.Waits) :
    (shunt stack rest).filter Item.isOperand = rest.filter Item.isOperand := by
  fun_induction shunt stack rest with
  | case1 stack => exact filter_isOperand_of_waits fun i hi => hstack i (List.mem_of_mem_filter hi)
  | case2 stack rest ih => exact ih (List.forall_mem_cons.2 ⟨.inl rfl, hstack⟩)
  | case3 stack rest ih =>
    have hout := filter_isOperand_of_waits fun i hi => hstack i ((List.takeWhile_sublist (!·.isOpening)).subset hi)
    rw [List.filter_append, hout, List.nil_append]
    exact ih fun i hi => hstack i ((List.dropWhile_sublist _).subset (List.mem_of_mem_tail hi))
  | case4 stack op rest _ ih => exact ih (List.forall_mem_cons.2 ⟨.inr ⟨op, rfl⟩, hstack⟩)
  | case5 stack op rest _ ih =>
    have hout := filter_isOperand_of_waits fun i hi => hstack i ((List.takeWhile_sublist (·.yieldsTo op)).subset hi)
    rw [List.filter_append, hout, List.nil_append]
    exact ih (List.forall_mem_cons.2 ⟨.inr ⟨op, rfl⟩, fun i hi => hstack i ((List.dropWhile_sublist _).subset hi)⟩)
  | case6 stack operand rest _ _ _ ih => rw [List.filter_cons, List.filter_cons, ih hstack]

theorem filterMap_operator?_shunt (stack rest : List Item) : ((shunt stack rest).filterMap Item.operator?).Perm
    (stack.filterMap Item.operator? ++ rest.filterMap Item.operator?) := by
  fun_induction shunt stack rest with
  | case1 stack =>
    rw [filterMap_operator?_filter, List.filterMap_nil, List.append_nil]
  | case2 stack rest ih => exact ih
  | case3 stack rest ih =>
    rw [filterMap_operator?_tail_dropWhile] at ih
    rw [List.filterMap_append, ← filterMap_operator?_takeWhile_append (!·.isOpening) stack, List.append_assoc]
    exact ih.append_left _
  | case4 stack op rest _ ih => exact ih.trans List.perm_middle.symm
  | case5 stack op rest _ ih =>
    rw [List.filterMap_append, ← filterMap_operator?_takeWhile_append (·.yieldsTo op) stack, List.append_assoc]
    exact (ih.trans List.perm_middle.symm).append_left _
  | case6 stack operand rest _ _ hoperator ih =>
    have hnone : operand.operator? = none := by
      cases operand with
      | operator op => exact absurd rfl (hoperator op)
      | _ => rfl
    rw [List.filterMap_cons_none hnone, List.filterMap_cons_none hnone]
    exact ih

/-- No parenthesis is left, operands stay in their order, and the operators are the same, each as often as before. -/
theorem toPostfix_conserves {items : List Item} (h : items.length ≠ 1) :
    (∀ i ∈ toPostfix items, i.isParen = false) ∧
      (toPostfix items).filter Item.isOperand = items.filter Item.isOperand ∧
      ((toPostfix items).filterMap Item.operator?).Perm (items.filterMap Item.operator?) := by
  have hshunt : toPostfix items = shunt [] items := by
    unfold toPostfix
    split
    · exact absurd rfl h
    · rfl
  rw [hshunt]
  exact ⟨fun i hi => isParen_of_mem_shunt (List.forall_mem_nil _) hi, filter_isOperand_shunt (List.forall_mem_nil _),
    filterMap_operator?_shunt [] items⟩

/-- In `1 - 2 ) * ( ~ 3 +` a parenthesis is closed that was not opened, one is opened that is not closed, and operators
lack operands. -/
theorem toPostfix_conserves_of_unbalanced : ∃ items : List Item, items = [.number 1, .operator (.arith .sub), .number 2,
      .closing, .operator (.arith .mul), .opening, .operator .not, .number 3, .operator (.arith .add)] ∧
    items.length ≠ 1 ∧ (∀ i ∈ toPostfix items, i.isParen = false) ∧
    (toPostfix items).filter Item.isOperand = [.number 1, .number 2, .number 3] ∧
    ((toPostfix items).filterMap Item.operator?).Perm [.arith .sub, .arith .mul, .not, .arith .add] := by
  refine ⟨_, rfl, by decide, ?_⟩
  exact toPostfix_conserves (by decide)

end Bitpack
