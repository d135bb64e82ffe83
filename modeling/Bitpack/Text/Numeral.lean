/-! Numbers in text: decimal numerals of bounded value, and hexadecimal digits. -/

namespace Bitpack.Text

/-- The value of a run of decimal digits. -/
def decimalValue (cs : List Char) : Nat :=
  cs.foldl (fun n c => 10 * n + (c.toNat - '0'.toNat)) 0

/-- Reads a numeral below `limit`. Leading zeros are allowed, a sign is not. -/
def ofDecimal? (limit : Nat) (cs : List Char) : Option Nat :=
  if !cs.isEmpty && cs.all Char.isDigit && decimalValue cs < limit then some (decimalValue cs) else none

/-- Hexadecimal digits in lower case, without leading zeros. -/
def hexDigits (n : Nat) : List Char := Nat.toDigits 16 n

/-- Hexadecimal digits filled up with zeros to `width`. -/
def hexPadded (width n : Nat) : String :=
  let digits := hexDigits n
  String.ofList (List.replicate (width - digits.length) '0' ++ digits)

end Bitpack.Text
