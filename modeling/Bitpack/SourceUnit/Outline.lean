import Bitpack.SourceUnit.Basic

/-! The outline of a unit: a line for the object and each import and method, and below a method its
variables with their slots and its statements in postfix order. -/

namespace Bitpack

/-- Texts in brackets, with commas. -/
def bracketed (texts : List String) : String :=
  "[" ++ ", ".intercalate texts ++ "]"

mutual

def Item.outline (nameOf : VarId → String) : Item → String
  | .var id => nameOf id
  | .temp id _ => "t" ++ toString id
  | .number value => toString value
  | .call name args _ => name ++ "(" ++ ", ".intercalate (outlineAll nameOf args) ++ ")"
  | .operator op => op.symbol
  | .opening => "("
  | .closing => ")"

def Expression.outline (nameOf : VarId → String) : Expression → String
  | .mk items _ => bracketed (outlineItems nameOf items)

def outlineItems (nameOf : VarId → String) : List Item → List String
  | [] => []
  | item :: rest => item.outline nameOf :: outlineItems nameOf rest

def outlineAll (nameOf : VarId → String) : List Expression → List String
  | [] => []
  | e :: rest => e.outline nameOf :: outlineAll nameOf rest

end

namespace Statement

def outline (nameOf : VarId → String) : Statement → String
  | .eval e => "  expr " ++ e.outline nameOf
  | .ret none => "  return"
  | .ret (some e) => "  return " ++ e.outline nameOf

end Statement

namespace Variable

/-- A line for a variable of the named sort. -/
def outline (v : Variable) (sort : String) : String :=
  let cast := match v.castTarget with
    | some target => s!" {target}"
    | none => ""
  let (width, name, group, offset) := (v.width, v.name, v.slot.group, v.slot.offset)
  s!"  {sort} {width}{cast} {name} @ {group}:{offset}"

end Variable

namespace Method

def heading (m : Method) (u : SourceUnit) : String :=
  let result := u.var m.result
  let cast := match result.castTarget with
    | some target => s!" as {target}"
    | none => ""
  let variadic := if m.variadic then ", var args" else ""
  let declaration := if m.body.isNone then ", declaration" else ""
  let (name, width, access) := (m.name, result.width, m.access.text)
  s!"method {name}: {width}{cast} ({access}{variadic}{declaration})"

def outline (m : Method) (u : SourceUnit) : List String :=
  let nameOf := fun id => (u.var id).name
  let (locals, statements) := match m.body with
    | some body => (body.locals, body.statements)
    | none => ([], [])
  m.heading u
    :: m.params.map (fun id => (u.var id).outline "param")
    ++ locals.map (fun l => (u.var l.2).outline "local")
    ++ statements.map (Statement.outline nameOf)

end Method

namespace SourceUnit

def outlineLines (u : SourceUnit) : List String :=
  let (name, bits) := (u.name, u.bits)
  s!"object {name} ({bits} bits)"
    :: u.imports.toList.map (fun i => "import " ++ i.name)
    ++ u.methods.toList.flatMap (Method.outline · u)

def outline (u : SourceUnit) : String :=
  String.join (u.outlineLines.map (· ++ "\n"))

end SourceUnit
end Bitpack
