import Mathlib
import Bitpack.Reading.Infix

/-! Reading an expression checks each item against its neighbour, and that is enough for its postfix order
to be evaluated over a stack: no item finds too few values, and one value is left at the end. -/

namespace Bitpack

/-- The values that an item takes from the stack before it leaves its own there. -/
def Item.arity : Item → ℕ
  | .operator op => if op.isPrefix then 1 else 2
  | _ => 0

def Item.isParen : Item → Bool
  | .opening | .closing => true
  | _ => false

/-- The values on the stack after items have run over `d` of them, unless one of them finds too few. -/
def stackDepth : ℕ → List Item → Option ℕ
  | d, [] => some d
  | d, i :: is => if i.arity ≤ d then stackDepth (d - i.arity + 1) is else none

theorem stackDepth_append (is js : List Item) (d : ℕ) :
    stackDepth d (is ++ js) = (stackDepth d is).bind (stackDepth · js) := by
  induction is generalizing d with
  | nil => rfl
  | cons i is ih =>
    simp only [List.cons_append, stackDepth]
    split_ifs
    · exact ih _
    · rfl

/-- An item that reading adds to an expression, with its place. The arguments of a call satisfy `E`. -/
inductive Item.At (lookup : String → Option VarId) (E : Expression → Prop) : Place → Item → Prop
  | var {name : String} {id : VarId} (h : lookup name = some id) : At lookup E .operand (.var id)
  | number {n : ℕ} (h : n < 2 ^ 63) : At lookup E .operand (.number n)
  | call {name : String} {args : List Expression} {span : Span} (h : ∀ a ∈ args, E a) :
      At lookup E .operand (.call name args span)
  | complement : At lookup E .complement (.operator .not)
  | binary {op : Operator} (hbinary : op.isPrefix = false) (hvalue : op ≠ .assign) :
      At lookup E .binary (.operator op)
  | opening : At lookup E .opening .opening
  | closing : At lookup E .closing .closing

/-- Items that may follow the place `p` in this order; the last of them stands at `q`. -/
inductive LegalOrder (lookup : String → Option VarId) (E : Expression → Prop) : Place → List Item → Place → Prop
  | nil {p : Place} : LegalOrder lookup E p [] p
  | cons {p q r : Place} {i : Item} {is : List Item} (hq : p.allows q) (hi : i.At lookup E q)
      (h : LegalOrder lookup E q is r) : LegalOrder lookup E p (i :: is) r

section Order

variable {lookup : String → Option VarId} {E : Expression → Prop} {p q : Place} {items stack : List Item}

theorem LegalOrder.snoc {r : Place} {i : Item} (h : LegalOrder lookup E p items q) (hr : q.allows r)
    (hi : i.At lookup E r) : LegalOrder lookup E p (items ++ [i]) r := by
  induction h with
  | nil => exact .cons hr hi .nil
  | cons hq hj _ ih => exact .cons hq hj (ih hr)

theorem LegalOrder.item (h : LegalOrder lookup E p items q) {i : Item} (hi : i ∈ items) : ∃ r, i.At lookup E r := by
  induction h with
  | nil => cases hi
  | cons _ hj _ ih =>
    rcases List.mem_cons.1 hi with rfl | hi
    · exact ⟨_, hj⟩
    · exact ih hi

/-- What waits on the stack while items are put in order. -/
def Item.Waits (i : Item) : Prop :=
  i = .opening ∨ ∃ op, i = .operator op

def Item.isBinary : Item → Bool
  | .operator op => !op.isPrefix
  | _ => false

/-- Each binary operator that waits has its left operand among the values already. -/
def waiting (stack : List Item) : ℕ :=
  stack.countP Item.isBinary

@[simp] theorem waiting_opening : waiting (.opening :: stack) = waiting stack := rfl

@[simp] theorem waiting_operator (op : Operator) :
    waiting (.operator op :: stack) = waiting stack + if op.isPrefix then 0 else 1 := by
  cases h : op.isPrefix <;> simp [waiting, Item.isBinary, h]

theorem waiting_append (is js : List Item) : waiting (is ++ js) = waiting is + waiting js :=
  List.countP_append

theorem waiting_filter (stack : List Item) : waiting (stack.filter (!·.isOpening)) = waiting stack := by
  rw [waiting, List.countP_filter, waiting]
  congr 1
  funext i
  cases i <;> simp [Item.isBinary, Item.isOpening]

theorem waiting_tail_dropWhile (stack : List Item) :
    waiting (stack.dropWhile (!·.isOpening)).tail = waiting (stack.dropWhile (!·.isOpening)) := by
  induction stack with
  | nil => rfl
  | cons i stack ih =>
    cases i with
    | opening => rfl
    | _ => exact ih

/-- Operators that leave the stack together find the operands that they waited for. -/
theorem stackDepth_operators {ops : List Item} (hops : ∀ i ∈ ops, ∃ op, i = .operator op) (r : ℕ) :
    stackDepth (waiting ops + 1 + r) ops = some (1 + r) := by
  induction ops with
  | nil => simp [stackDepth, waiting]
  | cons i ops ih =>
    obtain ⟨op, rfl⟩ := hops _ List.mem_cons_self
    have ih := ih fun j hj => hops j (List.mem_cons_of_mem _ hj)
    rw [waiting_operator, stackDepth, Item.arity]
    cases op.isPrefix with
    | true =>
      rw [if_pos (by simp; omega), ← ih]
      congr 1
      simp
      omega
    | false =>
      rw [if_pos (by simp; omega), ← ih]
      congr 1
      simp
      omega

theorem operator_of_waits {i : Item} (h : i.Waits) (hi : (!i.isOpening) = true) : ∃ op, i = .operator op := by
  rcases h with rfl | h
  · cases hi
  · exact h

theorem operator_of_yieldsTo {i : Item} {op : Operator} (h : i.yieldsTo op = true) :
    ∃ top, i = .operator top := by
  cases i with
  | operator top => exact ⟨top, rfl⟩
  | _ => cases h

/-- The operators that leave the stack ahead of the other items take their operands, and the others find
one value for each operator that still waits, and one more. -/
theorem stackDepth_leave {out left rest : List Item} (hout : ∀ i ∈ out, ∃ op, i = .operator op)
    (hstack : waiting stack = waiting out + waiting left) :
    stackDepth (waiting stack + 1) (out ++ rest) = stackDepth (waiting left + 1) rest := by
  have hd : waiting stack + 1 = waiting out + 1 + waiting left := by omega
  rw [stackDepth_append, hd, stackDepth_operators hout, Option.bind_some, Nat.add_comm]

theorem Place.wantsOperand_eq {p q : Place} (h : p.allows q) : p.wantsOperand = q.startsOperand :=
  beq_iff_eq.1 h

/-- Items in a legal order, over a stack of operators whose left operands are values already. -/
theorem stackDepth_shunt (h : LegalOrder lookup E p items q) (hq : q.allows .finish)
    (hstack : ∀ i ∈ stack, i.Waits) :
    stackDepth (waiting stack + if p.wantsOperand then 0 else 1) (shunt stack items) = some 1 := by
  induction h generalizing stack with
  | nil =>
    rw [Place.wantsOperand_eq hq, shunt, ← waiting_filter]
    refine stackDepth_operators (r := 0) ?_
    intro i hi
    obtain ⟨hi, hno⟩ := List.mem_filter.1 hi
    exact operator_of_waits (hstack i hi) hno
  | cons hp hi _ ih =>
    rw [Place.wantsOperand_eq hp]
    cases hi with
    | var _ => exact ih hq hstack
    | number _ => exact ih hq hstack
    | call _ => exact ih hq hstack
    | complement => exact @ih (.operator .not :: stack) hq (List.forall_mem_cons.2 ⟨.inr ⟨_, rfl⟩, hstack⟩)
    | opening => exact ih hq (List.forall_mem_cons.2 ⟨.inl rfl, hstack⟩)
    | @binary op hbinary _ =>
      have hsplit := waiting_append (stack.takeWhile (·.yieldsTo op)) (stack.dropWhile (·.yieldsTo op))
      rw [List.takeWhile_append_dropWhile] at hsplit
      have hleft : ∀ i ∈ stack.dropWhile (·.yieldsTo op), i.Waits :=
        fun i hi => hstack i ((List.dropWhile_sublist _).subset hi)
      have hnext := ih hq (List.forall_mem_cons.2 ⟨.inr ⟨op, rfl⟩, hleft⟩)
      rw [waiting_operator, hbinary] at hnext
      rw [shunt, hbinary, if_neg Bool.false_ne_true]
      refine (stackDepth_leave ?_ hsplit).trans hnext
      exact fun i hi => operator_of_yieldsTo (List.mem_takeWhile_imp hi)
    | closing =>
      have hsplit := waiting_append (stack.takeWhile (!·.isOpening)) (stack.dropWhile (!·.isOpening))
      rw [List.takeWhile_append_dropWhile, ← waiting_tail_dropWhile] at hsplit
      have hleft : ∀ i ∈ (stack.dropWhile (!·.isOpening)).tail, i.Waits :=
        fun i hi => hstack i ((List.dropWhile_sublist _).subset (List.mem_of_mem_tail hi))
      rw [shunt]
      refine (stackDepth_leave ?_ hsplit).trans (ih hq hleft)
      intro i hi
      have hno := List.mem_takeWhile_imp (p := fun i => !Item.isOpening i) hi
      exact operator_of_waits (hstack i ((List.takeWhile_sublist _).subset hi)) hno

theorem isParen_of_mem_shunt {i : Item} {rest : List Item} (hstack : ∀ j ∈ stack, j.Waits)
    (h : i ∈ shunt stack rest) : i.isParen = false := by
  have hoperator : ∀ {j : Item}, (∃ op, j = .operator op) → j.isParen = false := by
    rintro _ ⟨op, rfl⟩
    rfl
  fun_induction shunt stack rest with
  | case1 stack =>
    obtain ⟨hi, hno⟩ := List.mem_filter.1 h
    exact hoperator (operator_of_waits (hstack i hi) hno)
  | case2 stack rest ih => exact ih (List.forall_mem_cons.2 ⟨.inl rfl, hstack⟩) h
  | case3 stack rest ih =>
    rcases List.mem_append.1 h with h | h
    · have hno := List.mem_takeWhile_imp (p := fun i => !Item.isOpening i) h
      exact hoperator (operator_of_waits (hstack i ((List.takeWhile_sublist _).subset h)) hno)
    · exact ih (fun j hj => hstack j ((List.dropWhile_sublist _).subset (List.mem_of_mem_tail hj))) h
  | case4 stack op rest _ ih => exact ih (List.forall_mem_cons.2 ⟨.inr ⟨op, rfl⟩, hstack⟩) h
  | case5 stack op rest _ ih =>
    rcases List.mem_append.1 h with h | h
    · exact hoperator (operator_of_yieldsTo (List.mem_takeWhile_imp h))
    · refine ih (List.forall_mem_cons.2 ⟨.inr ⟨op, rfl⟩, ?_⟩) h
      exact fun j hj => hstack j ((List.dropWhile_sublist _).subset hj)
  | case6 stack rest operand hopening hclosing _ ih =>
    rcases List.mem_cons.1 h with rfl | h
    · cases i with
      | opening => exact absurd rfl hopening
      | closing => exact absurd rfl hclosing
      | _ => rfl
    · exact ih hstack h

theorem mem_of_mem_shunt {i : Item} {stack rest : List Item} (h : i ∈ shunt stack rest) :
    i ∈ stack ∨ i ∈ rest := by
  fun_induction shunt stack rest with
  | case1 stack => exact Or.inl (List.mem_of_mem_filter h)
  | case2 stack rest ih =>
    rcases ih h with h | h
    · rcases List.mem_cons.1 h with rfl | h
      · exact Or.inr List.mem_cons_self
      · exact Or.inl h
    · exact Or.inr (List.mem_cons_of_mem _ h)
  | case3 stack rest ih =>
    rcases List.mem_append.1 h with h | h
    · exact Or.inl ((List.takeWhile_sublist _).subset h)
    · rcases ih h with h | h
      · exact Or.inl ((List.dropWhile_sublist _).subset (List.mem_of_mem_tail h))
      · exact Or.inr (List.mem_cons_of_mem _ h)
  | case4 stack rest op _ ih =>
    rcases ih h with h | h
    · rcases List.mem_cons.1 h with rfl | h
      · exact Or.inr List.mem_cons_self
      · exact Or.inl h
    · exact Or.inr (List.mem_cons_of_mem _ h)
  | case5 stack rest op _ ih =>
    rcases List.mem_append.1 h with h | h
    · exact Or.inl ((List.takeWhile_sublist _).subset h)
    · rcases ih h with h | h
      · rcases List.mem_cons.1 h with rfl | h
        · exact Or.inr List.mem_cons_self
        · exact Or.inl ((List.dropWhile_sublist _).subset h)
      · exact Or.inr (List.mem_cons_of_mem _ h)
  | case6 stack rest operand _ _ _ ih =>
    rcases List.mem_cons.1 h with rfl | h
    · exact Or.inr List.mem_cons_self
    · rcases ih h with h | h
      · exact Or.inl h
      · exact Or.inr (List.mem_cons_of_mem _ h)

theorem mem_of_mem_toPostfix {i : Item} {items : List Item} (h : i ∈ toPostfix items) : i ∈ items := by
  unfold toPostfix at h
  split at h
  · exact h
  · rcases mem_of_mem_shunt h with h | h
    · cases h
    · exact h

/-- A single item that may stand alone is an operand, so it needs no care of its own. -/
theorem LegalOrder.toPostfix_eq (h : LegalOrder lookup E .start items q) (hq : q.allows .finish) :
    toPostfix items = shunt [] items := by
  unfold toPostfix
  split
  · cases h with
    | cons hp hi h =>
      cases h
      cases hi with
      | var _ => rfl
      | number _ => rfl
      | call _ => rfl
      | complement => cases hq
      | binary => cases hq
      | opening => cases hq
      | closing => cases hp
  · rfl

theorem LegalOrder.stackDepth_toPostfix (h : LegalOrder lookup E .start items q) (hq : q.allows .finish) :
    stackDepth 0 (toPostfix items) = some 1 := by
  rw [h.toPostfix_eq hq]
  exact stackDepth_shunt h hq (List.forall_mem_nil _)

theorem LegalOrder.isParen_toPostfix (h : LegalOrder lookup E .start items q) (hq : q.allows .finish) {i : Item}
    (hi : i ∈ toPostfix items) : i.isParen = false := by
  rw [h.toPostfix_eq hq] at hi
  exact isParen_of_mem_shunt (List.forall_mem_nil _) hi

end Order

section Frames

variable {lookup : String → Option VarId} {E : Expression → Prop}

def Frame.Legal (lookup : String → Option VarId) (E : Expression → Prop) (f : Frame) : Prop :=
  LegalOrder lookup E .start f.items.reverse f.last

theorem Frame.Legal.start : Frame.Legal lookup E {} :=
  .nil

theorem Frame.Legal.push {f : Frame} (h : f.Legal lookup E) {place : Place} {i : Item}
    (hplace : f.last.allows place) (hi : i.At lookup E place) (span : Span) :
    (f.push place i span).Legal lookup E := by
  change LegalOrder lookup E .start (i :: f.items).reverse place
  rw [List.reverse_cons]
  exact h.snoc hplace hi

structure OpenCall.Legal (lookup : String → Option VarId) (E : Expression → Prop) (c : OpenCall) : Prop where
  outer : c.outer.Legal lookup E
  place : c.outer.last.allows .operand
  args : ∀ a ∈ c.args, E a

theorem Frame.Legal.call {f : Frame} (h : f.Legal lookup E) (name : String) (span : Span)
    (hplace : f.last.allows .operand) : OpenCall.Legal lookup E ⟨name, span, [], f⟩ :=
  ⟨h, hplace, List.forall_mem_nil _⟩

theorem OpenCall.Legal.finish {c : OpenCall} (h : c.Legal lookup E) (close : Span) :
    (c.finish close).Legal lookup E :=
  h.outer.push h.place (.call fun a ha => h.args a (List.mem_reverse.1 ha)) _

theorem OpenCall.Legal.addArg {c : OpenCall} (h : c.Legal lookup E) {e : Expression} (he : E e) :
    OpenCall.Legal lookup E { c with args := e :: c.args } :=
  ⟨h.outer, h.place, List.forall_mem_cons.2 ⟨he, h.args⟩⟩

theorem ofDecimal?_lt {limit n : ℕ} {cs : List Char} (h : Text.ofDecimal? limit cs = some n) : n < limit := by
  unfold Text.ofDecimal? at h
  split_ifs at h with hc
  cases h
  simp only [Bool.and_eq_true, decide_eq_true_eq] at hc
  exact hc.2

theorem Kind.at_binary? {k : Kind} {op : Operator} (h : k.binary? = some op) :
    (Item.operator op).At lookup E .binary := by
  unfold Kind.binary? at h
  split at h <;> cases h <;> exact .binary rfl (by decide)

theorem allows_of_not {p q : Place} (h : ¬(!p.allows q) = true) : p.allows q := by
  simpa using h

/-- What holds of each list of items in a legal order, once it is put in postfix order, holds of every
expression that is read. The arguments of its calls are such expressions themselves. -/
theorem readInfix_ok
    (hE : ∀ items p span, LegalOrder lookup E .start items p → p.allows .finish → E (.mk (toPostfix items) span))
    (stop : Token) (f : Frame) (calls : List OpenCall) (ts : List Token) (hf : f.Legal lookup E)
    (hcalls : ∀ c ∈ calls, c.Legal lookup E) {e : Expression}
    (h : (readInfix lookup stop f calls ts).result = .ok e) : E e := by
  have hdone : ∀ {f : Frame}, f.Legal lookup E → ¬(!f.last.allows .finish) = true → E f.expression :=
    fun hf hlast => hE _ _ _ hf (allows_of_not hlast)
  -- what fails has no result; each other case reads on with one more item or one more open call
  fun_induction readInfix lookup stop f calls ts
  case case1 f calls =>
    unfold readFinish at h
    split_ifs at h with hlast
    · cases h
    · cases h
    · cases calls with
      | nil => cases h; exact hdone hf hlast
      | cons c outer => cases h
  case case4 c outer _ hlast ih =>
    obtain ⟨hc, houter⟩ := List.forall_mem_cons.1 hcalls
    exact ih .start (List.forall_mem_cons.2 ⟨hc.addArg (hdone hf hlast), houter⟩) h
  case case7 t _ _ _ hlast ih => exact ih (hf.push (allows_of_not hlast) .closing t.span) hcalls h
  case case9 c outer hlast _ ih =>
    obtain ⟨hc, houter⟩ := List.forall_mem_cons.1 hcalls
    exact ih ((hc.addArg (hdone hf hlast)).finish _) houter h
  case case13 t _ _ hlast ih => exact ih (hf.push (allows_of_not hlast) .opening t.span) hcalls h
  case case15 hlast ih => exact ih (hf.push (allows_of_not hlast) .complement _) hcalls h
  case case18 hlast n hn ih => exact ih (hf.push (allows_of_not hlast) (.number (ofDecimal?_lt hn)) _) hcalls h
  case case21 text _ hlast _ _ _ ih => exact ih ((hf.call text _ (allows_of_not hlast)).finish _) hcalls h
  case case22 text _ hlast _ _ _ ih =>
    exact ih .start (List.forall_mem_cons.2 ⟨hf.call text _ (allows_of_not hlast), hcalls⟩) h
  case case23 hlast _ _ _ id hid ih => exact ih (hf.push (allows_of_not hlast) (.var hid) _) hcalls h
  case case24 hlast _ _ _ _ ih =>
    exact ih (hf.push (allows_of_not hlast) (.number (n := 0) (by decide)) _) hcalls h
  case case26 hlast _ _ _ _ _ _ _ hop ih =>
    exact ih (hf.push (allows_of_not hlast) (Kind.at_binary? hop) _) hcalls h
  all_goals cases h

end Frames

/-- An expression in postfix order, as are the arguments of its calls at any depth. -/
inductive Expression.Evaluable : Expression → Prop
  | mk {items : List Item} {span : Span} (depth : stackDepth 0 items = some 1)
      (noParen : ∀ i ∈ items, i.isParen = false)
      (args : ∀ name args span, .call name args span ∈ items → ∀ a ∈ args, Evaluable a) : Evaluable (.mk items span)

theorem stackDepth_assignAll (targets : List VarId) : stackDepth 1 (assignAll targets) = some 1 := by
  induction targets with
  | nil => rfl
  | cons id targets ih => exact ih

theorem Expression.Evaluable.assign {e : Expression} (h : e.Evaluable) (targets : List VarId) (span : Span) :
    (Expression.mk (e.items ++ assignAll targets) span).Evaluable := by
  have htarget : ∀ i ∈ assignAll targets, (∃ id, i = .var id) ∨ i = .operator .assign := by
    intro i hi
    obtain ⟨id, -, hi⟩ := List.mem_flatMap.1 hi
    rcases List.mem_cons.1 hi with rfl | hi
    · exact .inl ⟨id, rfl⟩
    · exact .inr (List.mem_singleton.1 hi)
  cases h with
  | mk depth noParen args =>
    refine .mk ?_ ?_ ?_
    · rw [Expression.items, stackDepth_append, depth, Option.bind_some, stackDepth_assignAll]
    · intro i hi
      rcases List.mem_append.1 hi with hi | hi
      · exact noParen i hi
      · rcases htarget i hi with ⟨id, rfl⟩ | rfl <;> rfl
    · intro name as span hi
      rcases List.mem_append.1 hi with hi | hi
      · exact args name as span hi
      · rcases htarget _ hi with ⟨id, h⟩ | h <;> cases h

theorem LegalOrder.evaluable {lookup : String → Option VarId} {items : List Item} {p : Place} (span : Span)
    (h : LegalOrder lookup Expression.Evaluable .start items p) (hp : p.allows .finish) :
    (Expression.mk (toPostfix items) span).Evaluable := by
  refine .mk (h.stackDepth_toPostfix hp) (fun i hi => h.isParen_toPostfix hp hi) ?_
  intro name args span hi
  obtain ⟨r, hat⟩ := h.item (mem_of_mem_toPostfix hi)
  cases hat with
  | call hargs => exact hargs

section Assignments

variable {lookup : String → Option VarId} {targets : List VarId} {start : Span} {c : Clause}

theorem readExpression_eq_ok {e : Expression} (h : (readExpression lookup targets start c).result = .ok e) :
    ∃ value, (readInfix lookup c.stop {} [] (readTargets lookup targets c.tokens).2.2).result = .ok value ∧
      e = .mk (value.items ++ assignAll (readTargets lookup targets c.tokens).2.1) (start.join value.span) := by
  change Except.map _ (readInfix lookup c.stop {} [] (readTargets lookup targets c.tokens).2.2).result = _ at h
  cases hr : (readInfix lookup c.stop {} [] (readTargets lookup targets c.tokens).2.2).result with
  | error d => rw [hr] at h; cases h
  | ok value =>
    rw [hr] at h
    cases h
    exact ⟨value, rfl, rfl⟩

theorem readExpression_eq_error {d : Diagnostic} (h : (readExpression lookup targets start c).result = .error d) :
    (readInfix lookup c.stop {} [] (readTargets lookup targets c.tokens).2.2).result = .error d := by
  change Except.map _ (readInfix lookup c.stop {} [] (readTargets lookup targets c.tokens).2.2).result = _ at h
  cases hr : (readInfix lookup c.stop {} [] (readTargets lookup targets c.tokens).2.2).result with
  | error d' =>
    rw [hr] at h
    cases h
    rfl
  | ok value => rw [hr] at h; cases h

theorem readExpression_evaluable {e : Expression} (h : (readExpression lookup targets start c).result = .ok e) :
    e.Evaluable := by
  obtain ⟨value, hr, rfl⟩ := readExpression_eq_ok h
  have hvalue : value.Evaluable := readInfix_ok (fun _ _ span hitems hp => hitems.evaluable span hp) c.stop {} [] _
    .start (List.forall_mem_nil _) hr
  exact hvalue.assign _ _

end Assignments
end Bitpack
