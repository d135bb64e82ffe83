/-! Storage words, the unsigned integers that packed variables live in. -/

namespace Bitpack

inductive Word
  | w32
  | w64
  deriving DecidableEq, Repr

namespace Word

def bits : Word → Nat
  | .w32 => 32
  | .w64 => 64

/-- The name of a word, its number of bits. -/
def text : Word → String
  | .w32 => "32"
  | .w64 => "64"

def ofText? : String → Option Word
  | "32" => some .w32
  | "64" => some .w64
  | _ => none

theorem bits_pos (w : Word) : 0 < w.bits := by
  cases w <;> decide

theorem bits_le (w : Word) : w.bits ≤ 64 := by
  cases w <;> decide

end Word
end Bitpack
