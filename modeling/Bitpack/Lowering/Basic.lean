import Bitpack.C.Basic
import Bitpack.Constant
import Bitpack.Diagnostic
import Bitpack.SourceUnit.Basic

/-! Lowering emits C statements, numbers temporaries and argument arrays, and notes problems. This file
has the monad for it, the values that expressions have during lowering, and the access to packed
slots. -/

namespace Bitpack

/-- The next number of a temporary and of an array of arguments. -/
structure Numbering where
  temps : Nat := 0
  arrays : Nat := 0
  deriving DecidableEq, Repr

/-- A value, with the code that computes it and the problems that were found. -/
structure Lowered (α : Type) where
  value : α
  code : List C.Stmt
  faults : List Diagnostic
  next : Numbering

def Lower (α : Type) : Type := Numbering → Lowered α

namespace Lower

instance : Monad Lower where
  pure a := fun n => ⟨a, [], [], n⟩
  bind x f := fun n =>
    let r := x n
    let s := f r.value r.next
    ⟨s.value, r.code ++ s.code, r.faults ++ s.faults, s.next⟩

def emit (s : C.Stmt) : Lower Unit := fun n => ⟨(), [s], [], n⟩

def emitAll (code : List C.Stmt) : Lower Unit := fun n => ⟨(), code, [], n⟩

def note (d : Diagnostic) : Lower Unit := fun n => ⟨(), [], [d], n⟩

/-- The number of a new temporary that is set to `e`. -/
def newTemp (e : C.Expr) : Lower Nat := fun n =>
  ⟨n.temps, [.declareTemp n.temps e], [], { n with temps := n.temps + 1 }⟩

/-- The number of a new array of arguments. -/
def newArgs (count : Nat) : Lower Nat := fun n =>
  ⟨n.arrays, [.declareWords (.args n.arrays) count], [], { n with arrays := n.arrays + 1 }⟩

end Lower

/-- What an expression amounts to during lowering. -/
inductive Value
  /-- A constant has a width of its own: the least one, or that of a cast. -/
  | const (value : UInt64) (width : Nat)
  | var (id : VarId)
  | temp (index width : Nat)
  deriving DecidableEq, Repr

namespace Value

def literal (value : UInt64) : Value :=
  .const value (Constant.minBits value)

def width (u : SourceUnit) : Value → Nat
  | .const _ width => width
  | .var id => (u.var id).width
  | .temp _ width => width

end Value

/-- The distance of a slot from the least significant end of its word. -/
def slotShift (w : Word) (slot : Slot) (width : Nat) : Nat :=
  w.bits - (slot.offset + width)

/-- Reads a slot of `width` bits. -/
def slotRead (w : Word) (bank : C.Bank) (slot : Slot) (width : Nat) : C.Expr :=
  let word := C.Expr.word bank slot.group
  if width = w.bits then word
  else
    let bits := match slotShift w slot width with
      | 0 => word
      | shift => .paren (.shiftRight word shift)
    .paren (.binary .bitAnd bits (.hex (Constant.mask width)))

/-- Writes a slot of `width` bits: clears it, then sets the bits of the value. -/
def slotWrite (w : Word) (bank : C.Bank) (slot : Slot) (width : Nat) (value : C.Expr) : List C.Stmt :=
  if width = w.bits then [.setWord bank slot.group value]
  else
    let shifted (e : C.Expr) : C.Expr := match slotShift w slot width with
      | 0 => e
      | shift => .shiftLeft e shift
    let mask := C.Expr.hex (Constant.mask width)
    [.andWord bank slot.group (.complement (.paren (shifted mask))),
      .orWord bank slot.group (shifted (.paren (.binary .bitAnd value mask)))]

namespace Variable

def read (w : Word) (v : Variable) : C.Expr :=
  match v.storage with
  | .params => slotRead w .params v.slot v.width
  | .locals => slotRead w .locals v.slot v.width
  | .result => .result

def write (w : Word) (v : Variable) (value : C.Expr) : List C.Stmt :=
  match v.storage with
  | .params => slotWrite w .params v.slot v.width value
  | .locals => slotWrite w .locals v.slot v.width value
  | .result =>
    if w.bits ≤ v.width then [.setResult value]
    else [.setResult (.binary .bitAnd value (.hex (Constant.mask v.width)))]

end Variable

/-- The C expression for a value. -/
def Value.read (u : SourceUnit) : Value → C.Expr
  | .const value _ => .decimal value
  | .var id => (u.var id).read u.word
  | .temp index _ => .temp index

end Bitpack
