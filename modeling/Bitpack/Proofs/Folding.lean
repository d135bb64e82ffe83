import Mathlib
import Bitpack.Proofs.Divisors

/-! Constant expressions. Numbers and operators other than assignment need no code: what stands on the stack stays
constant. Folding is done in 64 bits and cut down to the word after each operator, and that is the arithmetic of
words. -/

namespace Bitpack

/-- A number that is not negative, or an operator other than assignment. -/
def Item.IsConstant : Item → Prop
  | .number k => 0 ≤ k
  | .operator op => op ≠ .assign
  | _ => False

/-- An expression of numbers and operators between two numbers. -/
inductive Calculation
  | number (n : ℕ)
  | arith (op : Arith) (left right : Calculation)

namespace Calculation

def postorder : Calculation → List Item
  | .number n => [.number n]
  | .arith op left right => left.postorder ++ right.postorder ++ [.operator (.arith op)]

/-- The value in words of `w` bits. What is divided by zero counts as zero. -/
def value (w : ℕ) : Calculation → BitVec w
  | .number n => BitVec.ofNat w n
  | .arith op left right => (op.onWords? (left.value w) (right.value w)).getD 0

/-- How many operators in it divide by zero. -/
def zeroDivisors (w : ℕ) : Calculation → ℕ
  | .number _ => 0
  | .arith op left right =>
    left.zeroDivisors w + right.zeroDivisors w + if op.divides ∧ right.value w = 0 then 1 else 0

section Trees

theorem exists_stack {items : List Item} (hitems : ∀ i ∈ items, i.IsConstant)
    (harith : ∀ op, .operator op ∈ items → ∃ a, op = .arith a) : ∀ (stack : List Calculation) {d : ℕ},
    stackDepth stack.length items = some d → ∃ stack' : List Calculation, stack'.length = d ∧
      stack'.reverse.flatMap postorder = stack.reverse.flatMap postorder ++ items := by
  induction items with
  | nil =>
    intro stack d h
    exact ⟨stack, Option.some.inj h, (List.append_nil _).symm⟩
  | cons i items ih =>
    intro stack d h
    obtain ⟨hi, hrest⟩ := List.forall_mem_cons.1 hitems
    have ih := ih hrest fun op hop => harith op (List.mem_cons_of_mem i hop)
    rw [stackDepth] at h
    split_ifs at h with harity
    cases i with
    | number k =>
      obtain ⟨k, rfl⟩ := Int.eq_ofNat_of_zero_le hi
      obtain ⟨stack', hlength, hstack'⟩ := ih (.number k :: stack) h
      exact ⟨stack', hlength, by simp [hstack', postorder]⟩
    | operator op =>
      obtain ⟨a, rfl⟩ := harith op List.mem_cons_self
      obtain ⟨right, rest, rfl⟩ := List.exists_cons_of_length_pos (lt_of_lt_of_le two_pos harity)
      obtain ⟨left, rest, rfl⟩ := List.exists_cons_of_length_pos (Nat.lt_of_succ_le (Nat.le_of_succ_le_succ harity))
      obtain ⟨stack', hlength, hstack'⟩ := ih (.arith a left right :: rest) h
      exact ⟨stack', hlength, by simp [hstack', postorder]⟩
    | var | temp | call | opening | closing => exact hi.elim

theorem exists_postorder_eq {items : List Item} (hitems : ∀ i ∈ items, i.IsConstant)
    (harith : ∀ op, .operator op ∈ items → ∃ a, op = .arith a) (hdepth : stackDepth 0 items = some 1) :
    ∃ t : Calculation, t.postorder = items := by
  obtain ⟨stack, hlength, hstack⟩ := exists_stack hitems harith [] hdepth
  obtain ⟨t, rfl⟩ := List.length_eq_one_iff.1 hlength
  exact ⟨t, by simpa using hstack⟩

end Trees
end Calculation

namespace Lowered

variable {α : Type}

/-- The same, with further problems noted before. -/
def noting (faults : List Diagnostic) (r : Lowered α) : Lowered α :=
  { r with faults := faults ++ r.faults }

theorem noting_noting (faults faults' : List Diagnostic) (r : Lowered α) :
    (r.noting faults').noting faults = r.noting (faults ++ faults') :=
  congrArg (Lowered.mk _ _ · _) (List.append_assoc ..).symm

end Lowered

namespace Constant

theorem fold?_and_mask (w : Word) (op : Arith) {a b : UInt64} {x y : BitVec w.bits} (ha : a.toNat = x.toNat)
    (hb : b.toNat = y.toNat) :
    (fold? op a b).map (fun n => (n &&& mask w.bits).toNat) = (op.onWords? x y).map BitVec.toNat := by
  calc (fold? op a b).map (fun n => (n &&& mask w.bits).toNat)
      = ((fold? op a b).map UInt64.toNat).map (· % 2 ^ w.bits) := by
        simp only [toNat_and_mask _ w.bits_le, Option.map_map, Function.comp_def]
    _ = ((op.compute? x.toNat y.toNat).map (truncate 64)).map (· % 2 ^ w.bits) := by rw [toNat_fold?, ha, hb]
    _ = (op.compute? x.toNat y.toNat).map (truncate w.bits) := by
        simp only [Option.map_map, Function.comp_def, truncate_mod w.bits_le]
    _ = (op.onWords? x y).map BitVec.toNat := (toNat_onWords? op x y).symm

end Constant

namespace Lower

variable {u : SourceUnit} {span : Span}

theorem bind_noting {α β : Type} {x : Lower α} {n : Numbering} {a : α} {faults : List Diagnostic}
    (hx : x n = ⟨a, [], faults, n⟩) (f : α → Lower β) : (x >>= f) n = (f a n).noting faults := by
  change Lowered.mk (f (x n).value (x n).next).value _ _ _ = _
  rw [hx]
  rfl

/-- The steps of an item that is no call. -/
def stepsOf : Item → List Step
  | .number k => [.push (.literal k.toNat.toUInt64)]
  | .operator op => [.apply op]
  | _ => []

theorem steps_eq {items : List Item} (hitems : ∀ i ∈ items, i.IsConstant) (n : Numbering) :
    steps u items n = ⟨items.flatMap stepsOf, [], [], n⟩ := by
  induction items with
  | nil =>
    rw [steps]
    rfl
  | cons i items ih =>
    obtain ⟨hi, hrest⟩ := List.forall_mem_cons.1 hitems
    have hstep : ∃ s, stepsOf i = [s] ∧ step u i n = ⟨some s, [], [], n⟩ := by
      cases i with
      | number k => exact ⟨_, rfl, by rw [step]; rfl⟩
      | operator op => exact ⟨_, rfl, by rw [step]; rfl⟩
      | var | temp | call | opening | closing => exact hi.elim
    obtain ⟨s, hs, hstep⟩ := hstep
    rw [steps, bind_noting hstep, bind_noting (ih hrest), List.flatMap_cons, hs]
    rfl

section Constants

/-- A lowering whose value is constant and which emits nothing. -/
def Folds (x : Lower Value) : Prop :=
  ∀ n, ∃ value width faults, x n = ⟨.const value width, [], faults, n⟩

theorem folds_zeroFor (d : Diagnostic) : Folds (zeroFor d) :=
  fun _ => ⟨0, 1, [d], rfl⟩

theorem folds_complement (value : UInt64) (width : ℕ) : Folds (complement u (.const value width)) :=
  fun _ => ⟨_, _, [], rfl⟩

theorem folds_cast (count value : UInt64) (width : ℕ) : Folds (cast u span count (.const value width)) := by
  unfold cast
  simp only
  split_ifs
  · exact folds_zeroFor _
  · exact fun _ => ⟨_, _, [], rfl⟩

theorem folds_arith (op : Arith) (a b : UInt64) (width width' : ℕ) :
    Folds (arith u span op (.const a width) (.const b width')) := by
  unfold arith
  simp only
  cases Constant.fold? op a b with
  | none => exact folds_zeroFor _
  | some value => exact fun _ => ⟨_, _, [], rfl⟩

theorem exists_top_eq {stack : List Value} (hstack : ∀ v ∈ stack, v.isConst) :
    ∃ value width, top stack = .const value width := by
  cases stack with
  | nil => exact ⟨_, _, rfl⟩
  | cons v stack =>
    have hv := hstack v List.mem_cons_self
    cases v with
    | const value width => exact ⟨value, width, rfl⟩
    | var | temp => cases hv

theorem Folds.push {x : Lower Value} (hx : Folds x) (rest : List Value) (n : Numbering) : ∃ value width faults,
    (do return (← x) :: rest : Lower (List Value)) n = ⟨.const value width :: rest, [], faults, n⟩ := by
  obtain ⟨value, width, faults, hn⟩ := hx n
  exact ⟨value, width, faults ++ [], bind_noting hn _⟩

theorem exists_apply_eq (span : Span) {op : Operator} (hop : op ≠ .assign) {stack : List Value}
    (hstack : ∀ v ∈ stack, v.isConst) (n : Numbering) : ∃ value width faults, ∃ rest ⊆ stack,
      apply u span op stack n = ⟨.const value width :: rest, [], faults, n⟩ := by
  have htail : ∀ v ∈ stack.tail, v.isConst := fun v hv => hstack v (List.mem_of_mem_tail hv)
  obtain ⟨b, width', hb⟩ := exists_top_eq hstack
  obtain ⟨a, width, ha⟩ := exists_top_eq htail
  have hsub : stack.tail.tail ⊆ stack := fun v hv => List.mem_of_mem_tail (List.mem_of_mem_tail hv)
  cases op with
  | not =>
    have hfolds : Folds (complement u (top stack)) := hb ▸ folds_complement b width'
    obtain ⟨value, width, faults, hn⟩ := hfolds.push stack.tail n
    exact ⟨value, width, faults, stack.tail, fun v => List.mem_of_mem_tail, hn⟩
  | assign => exact absurd rfl hop
  | cast =>
    have hfolds : Folds (cast u span a (top stack)) := hb ▸ folds_cast a b width'
    obtain ⟨value, width, faults, hn⟩ := hfolds.push stack.tail.tail n
    refine ⟨value, width, faults, stack.tail.tail, hsub, ?_⟩
    rw [← hn]
    unfold apply
    simp only
    rw [show stack.tail.headD (.literal 0) = _ from ha]
    rfl
  | arith op =>
    have hfolds : Folds (arith u span op (top stack.tail) (top stack)) := by
      rw [ha, hb]
      exact folds_arith op a b width width'
    obtain ⟨value, width, faults, hn⟩ := hfolds.push stack.tail.tail n
    exact ⟨value, width, faults, stack.tail.tail, hsub, hn⟩

theorem folds_runSteps {steps : List Step} (hpush : ∀ v, .push v ∈ steps → v.isConst)
    (hassign : .apply .assign ∉ steps) : ∀ {stack : List Value}, (∀ v ∈ stack, v.isConst) →
    Folds (runSteps u span stack steps) := by
  induction steps with
  | nil =>
    intro stack hstack n
    obtain ⟨value, width, htop⟩ := exists_top_eq hstack
    exact ⟨value, width, [], congrArg (fun v => Lowered.mk v [] [] n) htop⟩
  | cons s steps ih =>
    have ih := @ih (fun v hv => hpush v (List.mem_cons_of_mem s hv)) fun h => hassign (List.mem_cons_of_mem s h)
    intro stack hstack
    cases s with
    | push v => exact ih (List.forall_mem_cons.2 ⟨hpush v List.mem_cons_self, hstack⟩)
    | apply op =>
      have hop : op ≠ .assign := by
        rintro rfl
        exact hassign List.mem_cons_self
      intro n
      obtain ⟨value, width, faults, rest, hrest, happly⟩ := exists_apply_eq (u := u) span hop hstack n
      have hconst : ∀ v ∈ Value.const value width :: rest, v.isConst :=
        List.forall_mem_cons.2 ⟨rfl, fun v hv => hstack v (hrest hv)⟩
      obtain ⟨value', width', faults', hrun⟩ := ih hconst n
      refine ⟨value', width', faults ++ faults', ?_⟩
      rw [runSteps, bind_noting happly, hrun]
      rfl

end Constants

section Arithmetic

theorem exists_apply_arith_eq (span : Span) (op : Arith) {a b : UInt64} {x y : BitVec u.word.bits}
    (ha : a.toNat = x.toNat) (hb : b.toNat = y.toNat) (width width' : ℕ) :
    ∃ value : UInt64, value.toNat = ((op.onWords? x y).getD 0).toNat ∧
      ∀ stack n, apply u span (.arith op) (.const b width' :: .const a width :: stack) n = ⟨.literal value :: stack, [],
        List.replicate (if op.divides ∧ y = 0 then 1 else 0) ⟨.divisionByZero, span⟩, n⟩ := by
  have hmask := Constant.fold?_and_mask u.word op ha hb
  have hdivides : Constant.fold? op a b = none ↔ op.divides ∧ y = 0 := by
    rw [Constant.fold?_eq_none_iff, ← UInt64.toNat_inj, ← BitVec.toNat_inj, hb]
    rfl
  cases hfold : Constant.fold? op a b with
  | none =>
    have hnone : op.onWords? x y = none := by simpa [hfold] using hmask.symm
    refine ⟨0, by rw [hnone]; rfl, fun stack n => ?_⟩
    change (arith u span op (.const a width) (.const b width') >>= fun v => pure (v :: stack)) n = _
    rw [arith, hfold, if_pos (hdivides.1 hfold)]
    rfl
  | some value =>
    rw [hfold, Option.map_some] at hmask
    obtain ⟨z, hz, hvalue⟩ := Option.map_eq_some_iff.1 hmask.symm
    refine ⟨value &&& Constant.mask u.word.bits, by rw [hz, Option.getD_some, hvalue], fun stack n => ?_⟩
    change (arith u span op (.const a width) (.const b width') >>= fun v => pure (v :: stack)) n = _
    rw [arith, hfold, if_neg fun h => Option.some_ne_none _ (hfold.symm.trans (hdivides.2 h))]
    rfl

theorem runSteps_postorder (t : Calculation) (ht : ∀ k : ℕ, .number k ∈ t.postorder → k < 2 ^ u.word.bits) :
    ∃ value : UInt64, value.toNat = (t.value u.word.bits).toNat ∧ ∀ stack rest n,
      runSteps u span stack (t.postorder.flatMap stepsOf ++ rest) n =
        (runSteps u span (.literal value :: stack) rest n).noting
          (List.replicate (t.zeroDivisors u.word.bits) ⟨.divisionByZero, span⟩) := by
  induction t with
  | number k =>
    have hk := ht k List.mem_cons_self
    have hlt : k < UInt64.size := lt_of_lt_of_le hk (Nat.pow_le_pow_right two_pos u.word.bits_le)
    refine ⟨k.toUInt64, ?_, fun stack rest n => rfl⟩
    rw [Calculation.value, BitVec.toNat_ofNat, Nat.mod_eq_of_lt hk]
    exact UInt64.toNat_ofNat_of_lt hlt
  | arith op left right ihl ihr =>
    obtain ⟨a, ha, hleft⟩ := ihl fun k hk => ht k (by simp [Calculation.postorder, hk])
    obtain ⟨b, hb, hright⟩ := ihr fun k hk => ht k (by simp [Calculation.postorder, hk])
    obtain ⟨value, hvalue, happly⟩ := exists_apply_arith_eq span op ha hb (Constant.minBits a) (Constant.minBits b)
    refine ⟨value, hvalue, fun stack rest n => ?_⟩
    have hsteps : (Calculation.arith op left right).postorder.flatMap stepsOf ++ rest =
        left.postorder.flatMap stepsOf ++ (right.postorder.flatMap stepsOf ++ .apply (.arith op) :: rest) := by
      simp [Calculation.postorder, stepsOf]
    have hrun : runSteps u span (.literal b :: .literal a :: stack) (.apply (.arith op) :: rest) n =
        (runSteps u span (.literal value :: stack) rest n).noting
          (List.replicate (if op.divides ∧ right.value u.word.bits = 0 then 1 else 0) ⟨.divisionByZero, span⟩) := by
      rw [runSteps]
      exact bind_noting (happly stack n) _
    rw [hsteps, hleft, hright, hrun, Lowered.noting_noting, Lowered.noting_noting, List.replicate_append_replicate,
      List.replicate_append_replicate]
    rfl

end Arithmetic

theorem expression_eq {items : List Item} (hitems : ∀ i ∈ items, i.IsConstant) (n : Numbering) :
    expression u (.mk items span) n = runSteps u span [] (items.flatMap stepsOf) n := by
  rw [expression, bind_noting (steps_eq hitems n)]
  rfl

theorem mem_stepsOf {i : Item} (hi : i.IsConstant) {s : Step} (hs : s ∈ stepsOf i) :
    (∀ v, s = .push v → v.isConst) ∧ s ≠ .apply .assign := by
  cases i with
  | number k =>
    obtain rfl := List.mem_singleton.1 hs
    exact ⟨by rintro v ⟨⟩; rfl, by rintro ⟨⟩⟩
  | operator op =>
    obtain rfl := List.mem_singleton.1 hs
    exact ⟨by rintro v ⟨⟩, by rintro ⟨⟩; exact hi rfl⟩
  | var | temp | call | opening | closing => exact hi.elim

theorem folds_expression {items : List Item} (hitems : ∀ i ∈ items, i.IsConstant) :
    Folds (expression u (.mk items span)) := by
  intro n
  rw [expression_eq hitems]
  refine folds_runSteps (fun v hv => ?_) (fun hassign => ?_) (List.forall_mem_nil _) n
  · obtain ⟨i, hi, hs⟩ := List.mem_flatMap.1 hv
    exact (mem_stepsOf (hitems i hi) hs).1 v rfl
  · obtain ⟨i, hi, hs⟩ := List.mem_flatMap.1 hassign
    exact (mem_stepsOf (hitems i hi) hs).2 rfl

end Lower

/-- An expression of numbers and operators other than assignment amounts to a constant, without any code. If it has
arithmetic operators only and its numbers fit the word, then the constant is the value of the expression in the
arithmetic of words, with the least width, and each operator that divides by zero is a fault and counts as zero. -/
theorem constants_fold {items : List Item} (hitems : ∀ i ∈ items, i.IsConstant) (hdepth : stackDepth 0 items = some 1)
    (u : SourceUnit) (span : Span) (n : Numbering) :
    (∃ value width faults, Lower.expression u (.mk items span) n = ⟨.const value width, [], faults, n⟩) ∧
    ((∀ op, .operator op ∈ items → ∃ a, op = .arith a) → (∀ k : ℕ, .number k ∈ items → k < 2 ^ u.word.bits) →
      (∃ t : Calculation, t.postorder = items) ∧ ∀ t : Calculation, t.postorder = items →
        ∃ value : UInt64, value.toNat = (t.value u.word.bits).toNat ∧
          Lower.expression u (.mk items span) n = ⟨.const value (Constant.minBits value), [],
            List.replicate (t.zeroDivisors u.word.bits) ⟨.divisionByZero, span⟩, n⟩) := by
  refine ⟨Lower.folds_expression hitems n, fun harith hnumbers => ?_⟩
  refine ⟨Calculation.exists_postorder_eq hitems harith hdepth, ?_⟩
  rintro t rfl
  obtain ⟨value, hvalue, hrun⟩ := Lower.runSteps_postorder t hnumbers
  refine ⟨value, hvalue, ?_⟩
  have hrun := hrun [] [] n
  rw [List.append_nil] at hrun
  rw [Lower.expression_eq hitems, hrun]
  exact congrArg (Lowered.mk _ _ · _) (List.append_nil _)

/-- `5 / (3 - 3) - 1`. -/
def quotientLessOne : Calculation :=
  .arith .sub (.arith .div (.number 5) (.arith .sub (.number 3) (.number 3))) (.number 1)

/-- A division by a difference that is zero, and a difference below zero. -/
theorem constants_fold_of_zero_divisor : (∀ i ∈ quotientLessOne.postorder, i.IsConstant) ∧
    stackDepth 0 quotientLessOne.postorder = some 1 ∧
    Lower.expression { word := .w32 } (.mk quotientLessOne.postorder Span.origin) {} =
      ⟨.const 4294967295 32, [], [⟨.divisionByZero, Span.origin⟩], {}⟩ := by
  have hitems : ∀ i ∈ quotientLessOne.postorder, i.IsConstant := by
    simp [quotientLessOne, Calculation.postorder, Item.IsConstant]
  have hdepth : stackDepth 0 quotientLessOne.postorder = some 1 := by decide
  obtain ⟨-, hfold⟩ := constants_fold hitems hdepth { word := .w32 } Span.origin {}
  have hnumbers : ∀ k : ℕ, .number k ∈ quotientLessOne.postorder → k < 2 ^ Word.w32.bits := by
    intro k hk
    have hk : (k : ℤ) = 5 ∨ (k : ℤ) = 3 ∨ k = 1 := by simpa [quotientLessOne, Calculation.postorder] using hk
    change k < 2 ^ 32
    omega
  obtain ⟨-, hvalue⟩ := hfold (by simp [quotientLessOne, Calculation.postorder]) hnumbers
  obtain ⟨value, hvalue, hexpression⟩ := hvalue quotientLessOne rfl
  obtain rfl : value = 4294967295 := UInt64.toNat_inj.1 (hvalue.trans (by decide))
  have hwidth : Constant.minBits 4294967295 = 32 := by decide
  have hfaults : quotientLessOne.zeroDivisors Word.w32.bits = 1 := by decide
  rw [hwidth, hfaults] at hexpression
  exact ⟨hitems, hdepth, hexpression⟩

end Bitpack
