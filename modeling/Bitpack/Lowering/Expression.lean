import Bitpack.Lowering.Basic

/-! Expressions in postfix order as C code. The calls of an expression are lowered first, in order, so
that their results are temporaries; then the items run over a stack of values. An operand that is at
fault counts as zero. -/

namespace Bitpack

/-- A postfix item once calls are out of the way. -/
inductive Step
  | push (v : Value)
  | apply (op : Operator)
  deriving Repr

namespace Lower

/-- Notes a problem; zero takes the place of the value. -/
def zeroFor (d : Diagnostic) : Lower Value := do
  note d
  return .literal 0

/-- A new temporary for an expression, cut down to `width` bits. -/
def temp (u : SourceUnit) (width : Nat) (e : C.Expr) : Lower Value := do
  let width := min width u.word.bits
  let e := if width = u.word.bits then e
    else .binary .bitAnd (.paren e) (.hex (Constant.mask width))
  let index ← newTemp e
  return .temp index width

def complement (u : SourceUnit) : Value → Lower Value
  | .const value width => return .const (Constant.complement value width) width
  | operand => temp u (operand.width u) (.complement (operand.read u))

/-- Gives a value the width that the constant in front of it says. -/
def cast (u : SourceUnit) (span : Span) (width : UInt64) (operand : Value) : Lower Value :=
  let width := width.toNat
  if width = 0 ∨ u.word.bits < width then
    zeroFor ⟨.castWidthOutOfRange width u.word.bits, span⟩
  else match operand with
    | .const value _ => return .const (value &&& Constant.mask width) width
    | operand => temp u width (operand.read u)

def arith (u : SourceUnit) (span : Span) (op : Arith) : Value → Value → Lower Value
  | .const a _, .const b _ =>
    match Constant.fold? op a b with
    | some n => return .literal (n &&& Constant.mask u.word.bits)
    | none => zeroFor ⟨.divisionByZero, span⟩
  | left, right =>
    temp u (max (left.width u) (right.width u)) (.binary op (left.read u) (right.read u))

/-- Applies an operator to the values on top of the stack; a missing one counts as zero. -/
def apply (u : SourceUnit) (span : Span) (op : Operator) (stack : List Value) : Lower (List Value) := do
  let top (stack : List Value) : Value := stack.headD (.literal 0)
  match op with
  | .not => return (← complement u (top stack)) :: stack.tail
  | .assign =>
    let (left, rest) := (top stack.tail, stack.tail.tail)
    match top stack with
    | .var id =>
      emitAll ((u.var id).write u.word (left.read u))
      return .var id :: rest
    | _ => return (← zeroFor ⟨.invalidAssignmentTarget, span⟩) :: rest
  | .cast =>
    let (right, left, rest) := (top stack, top stack.tail, stack.tail.tail)
    match left with
    | .const width _ => return (← cast u span width right) :: rest
    | _ => return (← zeroFor ⟨.dynamicCast, span⟩) :: rest
  | .arith a =>
    let (right, left, rest) := (top stack, top stack.tail, stack.tail.tail)
    return (← arith u span a left right) :: rest

/-- Runs steps over a stack; the value on top of it at the end is the value of all. -/
def runSteps (u : SourceUnit) (span : Span) : List Value → List Step → Lower Value
  | stack, [] => return stack.headD (.literal 0)
  | stack, .push v :: steps => runSteps u span (v :: stack) steps
  | stack, .apply op :: steps => do
    let stack ← apply u span op stack
    runSteps u span stack steps

/-- The method that prints its arguments, known without a declaration. -/
def printName : String := "print"

/-- The method that a call is for, unless the call is at fault. -/
def callee (u : SourceUnit) (name : String) (args : Nat) : Except Cause Method :=
  match u.method? name with
  | none => .error (.undefinedMethod name)
  | some m =>
    if m.access = .ignored then .error (.ignoredMethod name)
    else if args < m.params.length ∨ (m.params.length < args ∧ !m.variadic) then
      .error (.argumentCount name m.params.length args)
    else .ok m

/-- The name of a method in C. -/
def functionName (u : SourceUnit) (m : Method) : String :=
  u.name ++ "_" ++ m.name

/-- Packs parameters into an array of arguments. -/
def packParams (u : SourceUnit) (array : Nat) (params : List VarId) (values : List Value) :
    List C.Stmt :=
  (params.zip values).flatMap fun p =>
    let v := u.var p.1
    slotWrite u.word (.args array) v.slot v.width (p.2.read u)

/-- Further arguments take a word each, after the packed ones. -/
def packExtras (u : SourceUnit) (array first : Nat) (values : List Value) : List C.Stmt :=
  values.mapIdx fun k v => .setWord (.args array) (first + k) (v.read u)

/-- Packs the arguments of a call and calls; the result is a temporary. -/
def invoke (u : SourceUnit) (m : Method) (values : List Value) : Lower Value := do
  let expected := m.params.length
  let array ← newArgs (max 1 (m.paramGroups + values.length - expected))
  emitAll (packParams u array m.params values)
  emitAll (packExtras u array m.paramGroups (values.drop expected))
  let index ← newTemp (.call (functionName u m) array)
  return .temp index (u.var m.result).width

mutual

/-- The steps of items, in order, with the code for their calls. -/
def steps (u : SourceUnit) : List Item → Lower (List Step)
  | [] => return []
  | item :: rest => do
    let first ← step u item
    let others ← steps u rest
    return first.toList ++ others

def step (u : SourceUnit) : Item → Lower (Option Step)
  | .var id => return some (.push (.var id))
  | .temp id width => return some (.push (.temp id width))
  | .number value => return some (.push (.literal value.toNat.toUInt64))
  | .operator op => return some (.apply op)
  | .opening => return none
  | .closing => return none
  | .call name args span => do
    if name = printName then
      let _ ← arguments u (fun v => emit (.print (v.read u))) args
      return some (.push (.literal 0))
    else match callee u name args.length with
      | .error cause =>
        note ⟨cause, span⟩
        return some (.push (.literal 0))
      | .ok m =>
        let values ← arguments u (fun _ => pure ()) args
        return some (.push (← invoke u m values))

/-- The values of arguments, each followed by what is done with it at once. -/
def arguments (u : SourceUnit) (after : Value → Lower Unit) : List Expression → Lower (List Value)
  | [] => return []
  | e :: rest => do
    let v ← expression u e
    after v
    return v :: (← arguments u after rest)

def expression (u : SourceUnit) : Expression → Lower Value
  | .mk items span => do
    let code ← steps u items
    runSteps u span [] code

end

end Lower
end Bitpack
