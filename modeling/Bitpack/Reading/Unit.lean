import Bitpack.Reading.Body
import Bitpack.Token.Scan

/-! Whole units. Items are taken up one after the other; what is wrong with one is noted and the next
is taken up, except that a variable that cannot be packed ends the unit. -/

namespace Bitpack

/-- Packs variables, given with the places of their declarations, and notes their slots. -/
def packVariables (word : Word) (chosen : List (VarId × Span)) (vars : Array Variable) :
    Except Diagnostic (Layout × Array Variable) :=
  let widths := chosen.map fun v => (vars.getD v.1 default).width
  match pack word.bits.toUInt32 widths with
  | .ok layout =>
    let placed := (chosen.zip layout.slots).foldl
      (fun vs p => vs.modify p.1.1 fun v => { v with slot := p.2 }) vars
    .ok (layout, placed)
  | .error (index, e) =>
    let (id, span) := chosen.getD index (0, Span.origin)
    .error ⟨.unpackable (vars.getD id default).name e, span⟩

/-- Declares parameters after those `declared` so far, the latest first; a name that is taken is noted
and left out. -/
def declareParams (vars : Array Variable) (declared : List (VarId × Span)) :
    List Declarator → Array Variable × List (VarId × Span) × List Diagnostic
  | [] => (vars, declared.reverse, [])
  | d :: ds =>
    if declared.any fun v => (vars.getD v.1 default).name == d.name then
      let (vars, params, notes) := declareParams vars declared ds
      (vars, params, ⟨.duplicateDeclaration d.name, d.span⟩ :: notes)
    else
      let (vars', params, notes) :=
        declareParams (vars.push (d.toVariable .params)) ((vars.size, d.span) :: declared) ds
      (vars', params, d.checkedWidth.2 ++ notes)

/-- What becomes of an item that is a method: the unit's variables after it, its problems, and the
method unless it is dropped. -/
structure MethodReading where
  vars : Array Variable
  faults : List Diagnostic
  method : Option Method

/-- A body, with the method's other variables declared. -/
def readBody (word : Word) (scope : Scope) (block : Block) :
    Array Variable × List Diagnostic × Option Body :=
  let (scope, faults) := scope.readAll block.clauses
  if block.close.kind ≠ .mark .rbrace then
    (scope.vars, faults ++ [block.close.unexpected "'\x7d'"], none)
  else
    let locals := scope.locals.toList
    match packVariables word (locals.map fun l => (l.id, l.span)) scope.vars with
    | .error d => (scope.vars, faults ++ [d], none)
    | .ok (layout, vars) =>
      let body : Body :=
        { locals := locals.map fun l => (l.name, l.id)
          statements := scope.statements.toList
          groupCount := layout.groupCount
          totalBits := layout.totalBits }
      (vars, faults, some body)

/-- A method among the variables that the unit has so far. -/
def readMethod (word : Word) (vars : Array Variable) (heading : Heading)
    (block : Option Block) : MethodReading :=
  let result := vars.size
  let resultVar := heading.result.toVariable .result
  let (name, span) := (heading.result.name, heading.result.span)
  let notes := heading.result.checkedWidth.2
  let vars := vars.push resultVar
  if word.bits < resultVar.width then
    let e := PackError.tooWide resultVar.width word.bits
    ⟨vars, notes ++ [⟨.unpackable name e, span⟩], none⟩
  else
    let (vars, params, paramNotes) := declareParams vars [] heading.params
    let notes := notes ++ paramNotes
    match packVariables word params vars with
    | .error d => ⟨vars, notes ++ [d], none⟩
    | .ok (layout, vars) =>
      let method (body : Option Body) : Method :=
        { name
          access := heading.access
          params := params.map (·.1)
          paramGroups := layout.groupCount
          paramBits := layout.totalBits
          result
          variadic := heading.variadic
          body
          span }
      match block with
      | none => ⟨vars, notes, some (method none)⟩
      | some block =>
        let scope : Scope := { vars, result, params := params.map (·.1) }
        let (vars, faults, body) := readBody word scope block
        ⟨vars, notes ++ faults, body.map fun b => method (some b)⟩

/-- A unit that has been read in part, with its problems. -/
structure Draft where
  unit : SourceUnit
  faults : List Diagnostic

namespace Draft

/-- Nothing is read after a fatal problem. -/
def isFatal (d : Draft) : Bool :=
  d.faults.any Diagnostic.isFatal

/-- Keeps a method unless its name is taken. -/
def insert (d : Draft) (m : Method) : Draft :=
  if (d.unit.method? m.name).isSome then
    { d with faults := d.faults ++ [⟨.duplicateMethod m.name, m.span⟩] }
  else { d with unit := { d.unit with methods := d.unit.methods.push m } }

def add (d : Draft) : Entry → Draft
  | .imported name span =>
    { d with unit := { d.unit with imports := d.unit.imports.push ⟨name, span⟩ } }
  | .broken faults => { d with faults := d.faults ++ faults }
  | .method notes heading block =>
    let r := readMethod d.unit.word d.unit.vars heading block
    let d : Draft := ⟨{ d.unit with vars := r.vars }, d.faults ++ notes ++ r.faults⟩
    match r.method with
    | some m => d.insert m
    | none => d

def addAll (d : Draft) : List Entry → Draft
  | [] => d
  | e :: es => if d.isFatal then d else (d.add e).addAll es

/-- Reads the header of a unit and gives the tokens after it. -/
def header (word : Word) (finish : Token) : List Token → Draft × List Token
  | ⟨.keyword .object, _⟩ :: ts =>
    let (c, rest) := Entry.head finish ts
    match Read.objectHeader c with
    | .ok ((bits, name), _) => (⟨{ word, name, bits }, []⟩, rest)
    | .error d => (⟨{ word }, [d]⟩, c.skip rest)
  | ts => (⟨{ word }, [⟨.missingHeader, (ts.headD finish).span⟩]⟩, ts)

end Draft

namespace SourceUnit

/-- The unit that a list of tokens describes, with its problems in the order in which they are met. -/
def ofTokens (word : Word) (finish : Token) (ts : List Token) : SourceUnit × List Diagnostic :=
  let (d, rest) := Draft.header word finish ts
  let d := d.addAll (Entry.split finish rest)
  (d.unit, d.faults)

/-- The unit that a text describes. Whatever is wrong with the text, all that could be read is kept. -/
def ofText (word : Word) (src : String) : SourceUnit × List Diagnostic :=
  if src.isEmpty then ({ word }, [⟨.emptyInput, Span.origin⟩])
  else ofTokens word (Token.finishOf src) (Token.scan src)

end SourceUnit
end Bitpack
