import Bitpack.Reading.Heading
import Bitpack.Reading.Infix

/-! The statements of a body, read one clause after the other. A declaration adds a variable even if
its initial value is faulty; a statement is kept only if nothing was wrong with it. -/

namespace Bitpack

/-- A local variable where it is declared. -/
structure Local where
  name : String
  id : VarId
  span : Span
  deriving Repr

/-- What is known at a point of a body. -/
structure Scope where
  /-- All variables of the unit so far. -/
  vars : Array Variable
  result : VarId
  params : List VarId
  locals : Array Local := #[]
  statements : Array Statement := #[]

namespace Declarator

/-- A width of zero is noted and taken as one. -/
def checkedWidth (d : Declarator) : Nat × List Diagnostic :=
  if d.width = 0 then (1, [⟨.zeroWidth d.name, d.span⟩]) else (d.width, [])

def toVariable (d : Declarator) (storage : Storage) : Variable :=
  { name := d.name, width := d.checkedWidth.1, castTarget := d.castTarget, storage }

end Declarator

namespace Scope

/-- Locals come first, then parameters, then the result. -/
def lookup (s : Scope) (name : String) : Option VarId :=
  match s.locals.find? fun l => l.name == name with
  | some l => some l.id
  | none =>
    (s.params ++ [s.result]).find? fun id => (s.vars.getD id default).name == name

def declare (s : Scope) (d : Declarator) : Scope :=
  { s with
    vars := s.vars.push (d.toVariable .locals)
    locals := s.locals.push ⟨d.name, s.vars.size, d.span⟩ }

def push (s : Scope) (st : Statement) : Scope :=
  { s with statements := s.statements.push st }

/-- Ends a statement whose expression has been read up to `stop`. -/
def keep (s : Scope) (stop : Token) (r : Reading) (statement : Expression → Statement) :
    Scope × List Diagnostic :=
  match r.result with
  | .error d => (s, r.notes ++ [d])
  | .ok e =>
    if stop.kind = .mark .semicolon then
      (if r.notes.isEmpty then s.push (statement e) else s, r.notes)
    else (s, r.notes ++ [stop.unexpected "';'"])

/-- A declaration, perhaps with an initial value. -/
def declaration (s : Scope) (c : Clause) : Scope × List Diagnostic :=
  match Read.declarator c with
  | .error d => (s, [d])
  | .ok (decl, c) =>
    if (s.lookup decl.name).isSome then (s, [⟨.duplicateDeclaration decl.name, decl.span⟩])
    else
      let id := s.vars.size
      let s := s.declare decl
      let notes := decl.checkedWidth.2
      match c.tokens with
      | ⟨.mark .assign, _⟩ :: rest =>
        let r := readExpression s.lookup [id] decl.span ⟨rest, c.stop⟩
        let (s, faults) := s.keep c.stop r .eval
        (s, notes ++ faults)
      | _ =>
        match Read.stop [.mark .semicolon] "';'" c with
        | .ok _ => (s, notes)
        | .error d => (s, notes ++ [d])

/-- One statement, told by its first token: the scope after it and its problems. -/
def statement (s : Scope) (c : Clause) : Scope × List Diagnostic :=
  match c.tokens with
  | [] => (s, [])
  | ⟨.keyword .returns, span⟩ :: rest =>
    if rest.isEmpty && c.stop.kind = .mark .semicolon then (s.push (.ret none), [])
    else
      let r := readExpression s.lookup [s.result] span ⟨rest, c.stop⟩
      s.keep c.stop r fun e => .ret (some e)
  | ⟨.number _, _⟩ :: _ => s.declaration c
  | t :: _ => s.keep c.stop (readExpression s.lookup [] t.span c) .eval

/-- All statements of a body in order. -/
def readAll (s : Scope) : List Clause → Scope × List Diagnostic
  | [] => (s, [])
  | c :: cs =>
    let (s, faults) := s.statement c
    let (s, later) := s.readAll cs
    (s, faults ++ later)

end Scope
end Bitpack
