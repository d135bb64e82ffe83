import Bitpack.SourceUnit.Basic
import Bitpack.Text.Bytes
import Bitpack.Text.Numeral

/-! Signatures of methods and the linkage symbols that spell them out. A symbol is `_BP`, the size of
the object, `C` and the class, `M` and the method, each name after its length in bytes, `P` and each
parameter's width with an underscore, `V` if more arguments may follow, and `R` and the width of the
result. -/

namespace Bitpack

structure Signature where
  objectBits : Nat
  className : String
  method : String
  params : List Nat
  variadic : Bool
  result : Nat
  deriving DecidableEq, Repr

namespace Signature

def ofMethod (u : SourceUnit) (m : Method) : Signature where
  objectBits := u.bits
  className := u.name
  method := m.name
  params := m.params.map fun id => (u.var id).width
  variadic := m.variadic
  result := (u.var m.result).width

/-- The signature as a reader of programs would write it. -/
def text (s : Signature) : String :=
  let widths := s.params.map (toString ·) ++ (if s.variadic then ["..."] else [])
  let params := ", ".intercalate widths
  let (result, className, method, bits) := (s.result, s.className, s.method, s.objectBits)
  s!"{result} {className}::{method}({params}) [{bits}-bit object]"

def decimal (n : Nat) : List Char :=
  Nat.toDigits 10 n

/-- A name after its length. -/
def spellName (name : String) : List Char :=
  decimal (Text.byteLength name.toList) ++ name.toList

def spell (s : Signature) : List Char :=
  ['_', 'B', 'P'] ++ decimal s.objectBits
    ++ 'C' :: spellName s.className
    ++ 'M' :: spellName s.method
    ++ 'P' :: s.params.flatMap (fun w => decimal w ++ ['_'])
    ++ (if s.variadic then ['V'] else [])
    ++ 'R' :: decimal s.result

/-- The linkage symbol. -/
def symbol (s : Signature) : String :=
  String.ofList s.spell

/-- The character given, in front of a text. -/
def takeChar? (c : Char) : List Char → Option (List Char)
  | [] => none
  | d :: rest => if d = c then some rest else none

/-- The number in front of a text, with all digits there are. -/
def takeNumber? (cs : List Char) : Option (Nat × List Char) :=
  (Text.ofDecimal? UInt64.size (cs.takeWhile Char.isDigit)).map fun n => (n, cs.dropWhile Char.isDigit)

/-- The name in front of a text, which its length precedes. -/
def takeName? (cs : List Char) : Option (String × List Char) := do
  let (length, rest) ← takeNumber? cs
  let (name, rest) ← Text.splitBytes? length rest
  if name.isEmpty then none else some (String.ofList name, rest)

theorem length_of_takeNumber? {cs rest : List Char} {n : Nat} (h : takeNumber? cs = some (n, rest)) :
    rest.length ≤ cs.length := by
  obtain ⟨m, -, hm⟩ := Option.map_eq_some_iff.1 h
  cases hm
  exact (List.dropWhile_sublist _).length_le

/-- The widths in front of a text, each with its underscore. -/
def takeWidths? (cs : List Char) : Option (List Nat × List Char) :=
  if cs.head?.any Char.isDigit then
    match h : takeNumber? cs with
    | some (n, '_' :: rest) =>
      have : rest.length < cs.length := length_of_takeNumber? h
      (takeWidths? rest).map fun p => (n :: p.1, p.2)
    | _ => none
  else some ([], cs)
termination_by cs.length

/-- The signature that a symbol spells out. -/
def ofSymbol? (symbol : String) : Option Signature := do
  let cs ← takeChar? '_' symbol.toList
  let cs ← takeChar? 'B' cs
  let cs ← takeChar? 'P' cs
  let (objectBits, cs) ← takeNumber? cs
  let cs ← takeChar? 'C' cs
  let (className, cs) ← takeName? cs
  let cs ← takeChar? 'M' cs
  let (method, cs) ← takeName? cs
  let cs ← takeChar? 'P' cs
  let (params, cs) ← takeWidths? cs
  let (variadic, cs) := match takeChar? 'V' cs with
    | some cs => (true, cs)
    | none => (false, cs)
  let cs ← takeChar? 'R' cs
  let (result, cs) ← takeNumber? cs
  if cs.isEmpty then some { objectBits, className, method, params, variadic, result } else none

end Signature
end Bitpack
