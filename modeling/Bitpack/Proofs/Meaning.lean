import Mathlib
import Bitpack.Lowering.Expression
import Bitpack.Proofs.Arithmetic

/-! What source statements mean, without words and slots: variables are independent numbers, an expression
works on a stack, and a call or a printed number is an action. An operand that is missing or at fault
counts as zero, and a zero divisor has no meaning. How an assignment stores its value is a parameter,
so that two ways of storing can be compared. -/

namespace Bitpack.Meaning

inductive Operand
  /-- A constant has a width of its own: the least one, or that of a cast. -/
  | const (value width : ℕ)
  /-- A variable, with the value that it has when it is named. -/
  | var (id : VarId) (value : ℕ)
  | computed (value width : ℕ)
  deriving DecidableEq, Repr

namespace Operand

def literal (n : ℕ) : Operand :=
  .const n (if n = 0 then 1 else n.log2 + 1)

def value : Operand → ℕ
  | const value _ => value
  | var _ value => value
  | computed value _ => value

def width (u : SourceUnit) : Operand → ℕ
  | const _ width => width
  | var id _ => (u.var id).width
  | computed _ width => width

/-- The complement within the width of the operand. -/
def complement (u : SourceUnit) (o : Operand) : Operand :=
  match o with
  | const value width => .const (2 ^ width - 1 - value) width
  | o => .computed (2 ^ o.width u - 1 - o.value) (o.width u)

/-- The operand with a width from 1 to that of a word. -/
def cast (u : SourceUnit) (width : ℕ) (o : Operand) : Operand :=
  if width = 0 ∨ u.word.bits < width then .literal 0
  else match o with
    | const value _ => .const (value % 2 ^ width) width
    | o => .computed (o.value % 2 ^ width) width

/-- Two constants make a constant of the least width. Otherwise the wider operand decides, up to the
width of a word. -/
def arith? (u : SourceUnit) (op : Arith) (left right : Operand) : Option Operand :=
  (op.compute? left.value right.value).map fun z =>
    match left, right with
    | const .., const .. => .literal (truncate u.word.bits z)
    | _, _ =>
      let width := min (max (left.width u) (right.width u)) u.word.bits
      .computed (truncate width z) width

end Operand

/-- What a method does that is seen outside of it. -/
inductive Action
  | call (m : Method) (args : List ℕ)
  | print (value : ℕ)

structure Store where
  vars : VarId → ℕ
  actions : List Action := []
  /-- The result, once the method has returned. -/
  returned : Option ℕ := none

namespace Store

def set (t : Store) (id : VarId) (value : ℕ) : Store :=
  { t with vars := Function.update t.vars id value }

def act (t : Store) (a : Action) : Store :=
  { t with actions := t.actions ++ [a] }

/-- Leaves the method with the value of its result variable. -/
def leave (t : Store) (result : VarId) : Store :=
  { t with returned := some (t.vars result) }

end Store

structure Machine where
  unit : SourceUnit
  /-- What a call returns; it may depend on all that was done before. -/
  answer : List Action → Method → List ℕ → ℕ
  /-- What a variable holds after an operand is assigned to it. -/
  stored : VarId → Operand → ℕ

/-- The arguments of a call as the method gets them: cut down to its parameters, further ones to a word. -/
def passed (u : SourceUnit) (m : Method) (args : List Operand) : List ℕ :=
  (m.params.zip args).map (fun p => p.2.value % 2 ^ (u.var p.1).width) ++
    (args.drop m.params.length).map (·.value % 2 ^ u.word.bits)

namespace Machine

/-- Applies an operator to what is on top of the stack. -/
def apply (M : Machine) (op : Operator) (stack : List Operand) (t : Store) : Option (List Operand × Store) :=
  let top (stack : List Operand) : Operand := stack.headD (.literal 0)
  match op with
  | .not => some ((top stack).complement M.unit :: stack.tail, t)
  | .assign =>
    let (left, rest) := (top stack.tail, stack.tail.tail)
    match top stack with
    | .var id _ => some (.var id (M.stored id left) :: rest, t.set id (M.stored id left))
    | _ => some (.literal 0 :: rest, t)
  | .cast =>
    let (right, left, rest) := (top stack, top stack.tail, stack.tail.tail)
    match left with
    | .const width _ => some (right.cast M.unit width :: rest, t)
    | _ => some (.literal 0 :: rest, t)
  | .arith a =>
    let (right, left, rest) := (top stack, top stack.tail, stack.tail.tail)
    (left.arith? M.unit a right).map fun o => (o :: rest, t)

theorem apply_store {M : Machine} {op : Operator} {stack stack' : List Operand} {t t' : Store}
    (hop : op ≠ .assign) (h : M.apply op stack t = some (stack', t')) : t' = t := by
  cases op with
  | assign => exact absurd rfl hop
  | not =>
    cases h
    rfl
  | cast =>
    simp only [apply] at h
    split at h <;> cases h <;> rfl
  | arith a =>
    obtain ⟨o, -, heq⟩ := Option.map_eq_some_iff.1 h
    cases heq
    rfl

mutual

def items (M : Machine) : List Item → List Operand → Store → Option (List Operand × Store)
  | [], stack, t => some (stack, t)
  | i :: rest, stack, t => (item M i stack t).bind fun r => items M rest r.1 r.2

def item (M : Machine) : Item → List Operand → Store → Option (List Operand × Store)
  | .var id, stack, t => some (.var id (t.vars id) :: stack, t)
  | .temp .., _, _ => none
  | .number n, stack, t => some (.literal n.toNat :: stack, t)
  | .operator op, stack, t => M.apply op stack t
  | .opening, stack, t => some (stack, t)
  | .closing, stack, t => some (stack, t)
  | .call name args _, stack, t =>
    if name = Lower.printName then
      (arguments M (fun o t => t.act (.print o.value)) args t).map fun r => (.literal 0 :: stack, r.2)
    else match Lower.callee M.unit name args.length with
      | .error _ => some (.literal 0 :: stack, t)
      | .ok m => (arguments M (fun _ t => t) args t).map fun r =>
        let args := passed M.unit m r.1
        (.computed (M.answer r.2.actions m args) (M.unit.var m.result).width :: stack, r.2.act (.call m args))

/-- The arguments of a call, each followed by what is done with it at once. -/
def arguments (M : Machine) (after : Operand → Store → Store) :
    List Expression → Store → Option (List Operand × Store)
  | [], t => some ([], t)
  | e :: rest, t => (expression M e t).bind fun r =>
    (arguments M after rest (after r.1 r.2)).map fun rs => (r.1 :: rs.1, rs.2)

/-- The value of an expression is what is on top of the stack at the end. -/
def expression (M : Machine) : Expression → Store → Option (Operand × Store)
  | .mk is _, t => (items M is [] t).map fun r => (r.1.headD (.literal 0), r.2)

end

theorem length_arguments {M : Machine} {after : Operand → Store → Store} {es : List Expression} :
    ∀ {t t' : Store} {os : List Operand}, M.arguments after es t = some (os, t') → os.length = es.length := by
  induction es with
  | nil =>
    intro t t' os h
    rw [arguments] at h
    cases h
    rfl
  | cons e es ih =>
    intro t t' os h
    rw [arguments] at h
    obtain ⟨r, -, h'⟩ := Option.bind_eq_some_iff.1 h
    obtain ⟨rs, hrs, heq⟩ := Option.map_eq_some_iff.1 h'
    cases heq
    rw [List.length_cons, List.length_cons, ih hrs]

/-- One statement of a method; nothing happens after it has returned. -/
def statement (M : Machine) (result : VarId) (st : Statement) (t : Store) : Option Store :=
  if t.returned.isSome then some t
  else match st with
    | .eval e => (M.expression e t).map (·.2)
    | .ret none => some (t.leave result)
    | .ret (some e) => (M.expression e t).map fun r => r.2.leave result

def statements (M : Machine) (result : VarId) : List Statement → Store → Option Store
  | [], t => some t
  | st :: rest, t => (M.statement result st t).bind (M.statements result rest)

theorem statements_append {M : Machine} {result : VarId} (sts sts' : List Statement) (t : Store) :
    M.statements result (sts ++ sts') t = (M.statements result sts t).bind (M.statements result sts') := by
  induction sts generalizing t with
  | nil => rfl
  | cons st sts ih =>
    rw [List.cons_append, statements, statements, Option.bind_assoc]
    simp only [ih]

theorem statements_singleton {M : Machine} {result : VarId} (st : Statement) (t : Store) :
    M.statements result [st] t = M.statement result st t :=
  Option.bind_fun_some _

end Machine
end Bitpack.Meaning
