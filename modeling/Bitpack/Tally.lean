import Bitpack.Diagnostic

/-! A running count of problems. Units are linked only while none has been recorded. -/

namespace Bitpack

structure Tally where
  /-- Problems that are not fatal. -/
  count : Nat := 0
  hasFatal : Bool := false
  deriving DecidableEq, Repr

namespace Tally

def empty : Tally := {}

def record (t : Tally) (c : Category) : Tally :=
  if c.isFatal then { t with hasFatal := true } else { t with count := t.count + 1 }

def recordAll (t : Tally) (ds : List Diagnostic) : Tally :=
  ds.foldl (fun t d => t.record d.cause.category) t

def mayLink (t : Tally) : Bool :=
  t.count == 0 && !t.hasFatal

end Tally
end Bitpack
