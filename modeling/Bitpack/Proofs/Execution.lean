import Mathlib
import Bitpack.C.Basic
import Bitpack.Proofs.Arithmetic

/-! Running the statements of a function. Words are unsigned and wrap around. A run is undefined where C
leaves it so: a zero divisor, a shift by the whole type or more, a word outside of its array, a name
that is not declared or is declared twice. What the functions that it calls do is a parameter. -/

namespace Bitpack.C

/-- What a function does that is seen outside of it. -/
inductive Event (w : Word)
  | call (function : String) (words : List (BitVec w.bits))
  | print (value : ℕ)

/-- The value that a call returns, and the words it leaves in the array of its arguments. -/
structure Reply (w : Word) where
  value : BitVec w.bits
  words : List (BitVec w.bits)

/-- What calls return. A call may depend on all that was seen before it. -/
abbrev Callees (w : Word) : Type :=
  List (Event w) → String → List (BitVec w.bits) → Reply w

structure State (w : Word) where
  /-- The arrays that are declared. -/
  banks : Bank → Option (List (BitVec w.bits))
  temps : ℕ → Option (BitVec w.bits)
  result : Option (BitVec w.bits)
  events : List (Event w)
  /-- Set once the function has returned. -/
  returned : Option (BitVec w.bits)

variable {w : Word}

namespace State

/-- Where a function starts, given the words that its caller provides. -/
def entry (params : List (BitVec w.bits)) : State w where
  banks := Function.update (fun _ => none) .params (some params)
  temps := fun _ => none
  result := none
  events := []
  returned := none

def word? (s : State w) (bank : Bank) (index : ℕ) : Option (BitVec w.bits) :=
  (s.banks bank).bind (·[index]?)

/-- The number of words of an array; one that is not declared has none. -/
def size (s : State w) (bank : Bank) : ℕ :=
  ((s.banks bank).getD []).length

def setBank (s : State w) (bank : Bank) (words : List (BitVec w.bits)) : State w :=
  { s with banks := Function.update s.banks bank (some words) }

def setWord (s : State w) (bank : Bank) (index : ℕ) (x : BitVec w.bits) : State w :=
  { s with banks := Function.update s.banks bank ((s.banks bank).map (·.set index x)) }

def setTemp (s : State w) (index : ℕ) (x : BitVec w.bits) : State w :=
  { s with temps := Function.update s.temps index (some x) }

def see (s : State w) (e : Event w) : State w :=
  { s with events := s.events ++ [e] }

theorem word?_eq (s : State w) (bank : Bank) (index : ℕ) :
    s.word? bank index = ((s.banks bank).getD [])[index]? := by
  unfold word?
  cases s.banks bank <;> rfl

theorem word?_of_lt {s : State w} {bank : Bank} {index : ℕ} (h : index < s.size bank) :
    ∃ x, s.word? bank index = some x :=
  ⟨_, (s.word?_eq bank index).trans (List.getElem?_eq_getElem h)⟩

theorem setWord_banks_of_ne (s : State w) {bank bank' : Bank} (index : ℕ) (x : BitVec w.bits)
    (h : bank' ≠ bank) : (s.setWord bank index x).banks bank' = s.banks bank' := by
  simp [setWord, h]

theorem setWord_banks_self (s : State w) (bank : Bank) (index : ℕ) (x : BitVec w.bits) :
    ((s.setWord bank index x).banks bank).getD [] = ((s.banks bank).getD []).set index x := by
  cases h : s.banks bank <;> simp [setWord, h]

@[simp] theorem size_setWord (s : State w) (bank bank' : Bank) (index : ℕ) (x : BitVec w.bits) :
    (s.setWord bank index x).size bank' = s.size bank' := by
  unfold size
  by_cases h : bank' = bank
  · subst h
    rw [setWord_banks_self, List.length_set]
  · rw [setWord_banks_of_ne s index x h]

theorem word?_setWord_self {s : State w} {bank : Bank} {index : ℕ} (x : BitVec w.bits)
    (h : index < s.size bank) : (s.setWord bank index x).word? bank index = some x := by
  rw [word?_eq, setWord_banks_self, List.getElem?_set_self h]

theorem word?_setWord_of_ne (s : State w) {bank bank' : Bank} {index index' : ℕ} (x : BitVec w.bits)
    (h : bank' ≠ bank ∨ index' ≠ index) :
    (s.setWord bank index x).word? bank' index' = s.word? bank' index' := by
  rw [word?_eq, word?_eq]
  by_cases hb : bank' = bank
  · subst hb
    have hi : index ≠ index' := (h.resolve_left fun hn => hn rfl).symm
    rw [setWord_banks_self, List.getElem?_set_ne hi]
  · rw [setWord_banks_of_ne s index x hb]

theorem setWord_setWord (s : State w) (bank : Bank) (index : ℕ) (x y : BitVec w.bits) :
    (s.setWord bank index x).setWord bank index y = s.setWord bank index y := by
  unfold setWord
  cases hs : s.banks bank <;> simp

end State

/-- The bits of a literal's type, the first one that is as wide as the word and holds the value. -/
def literalBits (w : Word) (value : UInt64) : ℕ :=
  if value.toNat < 2 ^ w.bits then w.bits else 64

/-- The bits of an expression's type. The wider operand of an operator decides, but whether something
holds is an `int`. -/
def Expr.bits (w : Word) : Expr → ℕ
  | .decimal value | .hex value => literalBits w value
  | .temp _ | .result | .word .. | .call .. => w.bits
  | .paren e | .complement e | .shiftLeft e _ | .shiftRight e _ => e.bits w
  | .binary .and _ _ | .binary .or _ _ => 32
  | .binary _ left right => max (left.bits w) (right.bits w)

/-- The value of an expression, if it is defined. A call has none here: it is a statement's business. -/
def Expr.eval (s : State w) : Expr → Option ℕ
  | .decimal value | .hex value => some value.toNat
  | .temp index => (s.temps index).map BitVec.toNat
  | .result => s.result.map BitVec.toNat
  | .word bank index => (s.word? bank index).map BitVec.toNat
  | .paren e => e.eval s
  | .complement e => (e.eval s).map fun v => 2 ^ e.bits w - 1 - v
  -- the right operand is looked at only if the left one does not decide
  | .binary .and left right => do
    let a ← left.eval s
    if a = 0 then some 0 else (right.eval s).map fun b => if b = 0 then 0 else 1
  | .binary .or left right => do
    let a ← left.eval s
    if a ≠ 0 then some 1 else (right.eval s).map fun b => if b = 0 then 0 else 1
  | .binary op left right => do
    let a ← left.eval s
    let b ← right.eval s
    (op.compute? a b).map (truncate (max (left.bits w) (right.bits w)))
  | .shiftLeft e amount =>
    if amount < e.bits w then (e.eval s).map fun v => (v <<< amount) % 2 ^ e.bits w else none
  | .shiftRight e amount =>
    if amount < e.bits w then (e.eval s).map fun v => v >>> amount else none
  | .call .. => none

@[simp] theorem Expr.eval_paren (s : State w) (e : Expr) : (Expr.paren e).eval s = e.eval s := rfl

@[simp] theorem Expr.bits_paren (e : Expr) : (Expr.paren e).bits w = e.bits w := rfl

theorem Expr.eval_binary {s : State w} {op : Arith} {left right : Expr} {a b : ℕ} {z : ℤ}
    (hl : left.eval s = some a) (hr : right.eval s = some b) (hz : op.compute? a b = some z) :
    ∃ v, (Expr.binary op left right).eval s = some v ∧
      ∀ width, 0 < width → width ≤ max (left.bits w) (right.bits w) → v % 2 ^ width = truncate width z := by
  have hbool (v : ℕ) (width : ℕ) : v % 2 ^ width = truncate width v := (truncate_natCast width v).symm
  cases op with
  | and =>
    obtain rfl : (if a ≠ 0 ∧ b ≠ 0 then 1 else 0 : ℤ) = z := Option.some.inj hz
    refine ⟨if a ≠ 0 ∧ b ≠ 0 then 1 else 0, ?_, fun width _ _ => by rw [hbool]; norm_cast⟩
    by_cases ha : a = 0
    · simp [Expr.eval, hl, ha]
    · by_cases hb : b = 0 <;> simp [Expr.eval, hl, hr, ha, hb]
  | or =>
    obtain rfl : (if a ≠ 0 ∨ b ≠ 0 then 1 else 0 : ℤ) = z := Option.some.inj hz
    refine ⟨if a ≠ 0 ∨ b ≠ 0 then 1 else 0, ?_, fun width _ _ => by rw [hbool]; norm_cast⟩
    by_cases ha : a = 0
    · by_cases hb : b = 0 <;> simp [Expr.eval, hl, hr, ha, hb]
    · simp [Expr.eval, hl, ha]
  | _ =>
    refine ⟨_, ?_, fun width _ hle => truncate_mod hle z⟩
    simp only [Expr.eval, hl, hr, Option.bind_eq_bind, Option.bind_some, hz, Option.map_some]

/-- One statement. A value that is stored is cut down to the word. -/
def Stmt.step (callees : Callees w) (s : State w) : Stmt → Option (State w)
  | .discard _ => some s
  | .declareWords bank count =>
    if (s.banks bank).isSome then none else some (s.setBank bank (List.replicate count 0))
  | .declareResult => if s.result.isSome then none else some { s with result := some 0 }
  | .declareTemp index (.call function args) => do
    let words ← s.banks (.args args)
    let reply := callees s.events function words
    if (s.temps index).isSome then none
    else some (((s.see (.call function words)).setBank (.args args) reply.words).setTemp index reply.value)
  | .declareTemp index e => do
    let v ← e.eval s
    if (s.temps index).isSome then none else some (s.setTemp index (BitVec.ofNat w.bits v))
  | .setResult e => do
    let v ← e.eval s
    if s.result.isSome then some { s with result := some (BitVec.ofNat w.bits v) } else none
  | .setWord bank index e => do
    let v ← e.eval s
    let _ ← s.word? bank index
    some (s.setWord bank index (BitVec.ofNat w.bits v))
  | .andWord bank index e => do
    let v ← e.eval s
    let x ← s.word? bank index
    some (s.setWord bank index (BitVec.ofNat w.bits (x.toNat &&& v)))
  | .orWord bank index e => do
    let v ← e.eval s
    let x ← s.word? bank index
    some (s.setWord bank index (BitVec.ofNat w.bits (x.toNat ||| v)))
  | .print e => do
    let v ← e.eval s
    some (s.see (.print v))
  | .returnResult => do
    let r ← s.result
    some { s with returned := some r }

theorem step_declareTemp (callees : Callees w) {s : State w} {index : ℕ} {e : Expr} {v : ℕ}
    (h : s.temps index = none) (he : e.eval s = some v) :
    (Stmt.declareTemp index e).step callees s = some (s.setTemp index (BitVec.ofNat w.bits v)) := by
  cases e with
  | call function args => cases he
  | _ => simp only [Stmt.step, he, Option.bind_eq_bind, Option.bind_some, h]; rfl

theorem step_setResult (callees : Callees w) {s : State w} {e : Expr} {v : ℕ} (h : s.result.isSome)
    (he : e.eval s = some v) :
    (Stmt.setResult e).step callees s = some { s with result := some (BitVec.ofNat w.bits v) } := by
  rw [Stmt.step, he, Option.bind_eq_bind, Option.bind_some, if_pos h]

/-- Statements in order, up to the one that returns. -/
def run (callees : Callees w) : List Stmt → State w → Option (State w)
  | [], s => some s
  | stmt :: rest, s =>
    if s.returned.isSome then some s else (stmt.step callees s).bind (run callees rest)

theorem run_of_returned (callees : Callees w) (code : List Stmt) {s : State w} (h : s.returned.isSome) :
    run callees code s = some s := by
  cases code with
  | nil => rfl
  | cons stmt rest => rw [run, if_pos h]

theorem run_cons (callees : Callees w) (stmt : Stmt) (rest : List Stmt) {s : State w}
    (h : s.returned = none) : run callees (stmt :: rest) s = (stmt.step callees s).bind (run callees rest) := by
  rw [run, if_neg (by simp [h])]

theorem run_append (callees : Callees w) (code rest : List Stmt) (s : State w) :
    run callees (code ++ rest) s = (run callees code s).bind (run callees rest) := by
  induction code generalizing s with
  | nil => rfl
  | cons stmt code ih =>
    rw [List.cons_append, run, run]
    split_ifs with h
    · rw [Option.bind_some, run_of_returned callees rest h]
    · cases stmt.step callees s with
      | none => rfl
      | some s' => exact ih s'

theorem run_append_of_eq {callees : Callees w} {code : List Stmt} {s s' : State w}
    (h : run callees code s = some s') (rest : List Stmt) :
    run callees (code ++ rest) s = run callees rest s' := by
  rw [run_append, h, Option.bind_some]

theorem run_singleton (callees : Callees w) (stmt : Stmt) {s : State w} (h : s.returned = none) :
    run callees [stmt] s = stmt.step callees s := by
  rw [run_cons callees stmt [] h]
  cases stmt.step callees s <;> rfl

end Bitpack.C
