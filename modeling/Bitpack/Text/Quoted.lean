import Bitpack.Text.Numeral
import Bitpack.Text.Printable

/-! Characters and texts in quotes. The quote of the chosen kind and the backslash are written with a
backslash, a few controls by their letters, and what would not show, or would join the character
before it, by its code point. -/

namespace Bitpack.Text

/-- One character inside quotes of the kind `quote`. -/
def escape (quote c : Char) : List Char :=
  if c = '\x00' then ['\\', '0']
  else if c = '\t' then ['\\', 't']
  else if c = '\n' then ['\\', 'n']
  else if c = '\r' then ['\\', 'r']
  else if c = '\\' || c = quote then ['\\', c]
  else if isCombining c || isInvisible c then
    ['\\', 'u', '\x7b'] ++ hexDigits c.toNat ++ ['\x7d']
  else [c]

def quoteChar (c : Char) : String :=
  String.ofList ('\'' :: escape '\'' c ++ ['\''])

def quoteText (s : String) : String :=
  String.ofList ('"' :: s.toList.flatMap (escape '"') ++ ['"'])

end Bitpack.Text
