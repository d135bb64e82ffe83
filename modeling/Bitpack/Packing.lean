/-! Packing of bit widths into groups of equal size, one group to a storage word: no width straddles
two groups and no two overlap. Wider ones are placed first, equal ones in the order given, each in the
first group with room. Offsets count from the most significant bit of the group. -/

namespace Bitpack

/-- The place of a packed width. -/
structure Slot where
  group : Nat
  offset : Nat
  deriving DecidableEq, Inhabited, Repr

structure Layout where
  /-- One slot for each width, in the order given. -/
  slots : List Slot
  groupCount : Nat
  groupWidth : Nat
  deriving DecidableEq, Repr

/-- All bits of all groups. -/
def Layout.totalBits (l : Layout) : Nat :=
  l.groupCount * l.groupWidth

inductive PackError
  | tooWide (width groupWidth : Nat)
  | exhausted
  /-- The sum of two counts of bits leaves 32 bits, and packing breaks off. -/
  | overflow
  deriving DecidableEq, Repr

namespace Packing

/-- No layout opens more groups than this. -/
def maxGroups : Nat := 4096

end Packing

def PackError.message : PackError → String
  | .tooWide width groupWidth => s!"width {width} exceeds the {groupWidth}-bit group width"
  | .exhausted =>
    let limit := Packing.maxGroups
    s!"group table exhausted ({limit} groups)"
  | .overflow => "attempt to add with overflow"

namespace Packing

/-- The bits used in each open group, and the slots given so far. -/
structure State where
  used : Array UInt32
  slots : Array Slot

/-- The sum of two counts of bits, which has to stay in 32 bits. -/
def add (a b : UInt32) : Except PackError UInt32 :=
  if a.toNat + b.toNat < UInt32.size then .ok (a + b) else .error .overflow

/-- The first of the groups, given by the bits used in them, that a width fits in. Each test is a sum,
and the search breaks off where one overflows. -/
def search (groupWidth width : UInt32) : List UInt32 → Except PackError (Option Nat)
  | [] => return none
  | used :: rest => do
    let sum ← add used width
    if sum ≤ groupWidth then return some 0
    else
      let found ← search groupWidth width rest
      return found.map (· + 1)

/-- The open groups after a new one, if one more may be opened. -/
def openGroup? (used : Array UInt32) : Option (Array UInt32) :=
  if used.size < maxGroups then some (used.push 0) else none

/-- Gives the next width, at its index in the order given, a slot in an open group. -/
def State.put (s : State) (group index : Nat) (width : UInt32) : Except PackError State := do
  let used := s.used.getD group 0
  let sum ← add used width
  return { used := s.used.setIfInBounds group sum
           slots := s.slots.setIfInBounds index ⟨group, used.toNat⟩ }

/-- First fit for one width. -/
def State.place (s : State) (groupWidth : UInt32) (index : Nat) (width : UInt32) :
    Except PackError State := do
  match ← search groupWidth width s.used.toList with
  | some group => s.put group index width
  | none =>
    match openGroup? s.used with
    | some used => State.put { s with used } s.used.size index width
    | none => throw .exhausted

/-- First fit for one width with its index. -/
def step (groupWidth : UInt32) (s : State) (item : Nat × Nat) : Except (Nat × PackError) State :=
  (s.place groupWidth item.2 item.1.toUInt32).mapError fun e => (item.2, e)

/-- Widths with their indices, the widest first and equal ones in the order given. -/
def order (widths : List Nat) : List (Nat × Nat) :=
  widths.zipIdx.mergeSort fun a b => b.1 ≤ a.1

end Packing

/-- Packs widths into groups of `groupWidth` bits, at least one. A failure comes with the index of its
width. -/
def pack (groupWidth : UInt32) (widths : List Nat) : Except (Nat × PackError) Layout :=
  match widths.zipIdx.find? fun item => groupWidth.toNat < item.1 with
  | some (width, index) => .error (index, .tooWide width groupWidth.toNat)
  | none => do
    let start : Packing.State := ⟨#[], Array.replicate widths.length ⟨0, 0⟩⟩
    let s ← (Packing.order widths).foldlM (Packing.step groupWidth) start
    return ⟨s.slots.toList, s.used.size, groupWidth.toNat⟩

end Bitpack
