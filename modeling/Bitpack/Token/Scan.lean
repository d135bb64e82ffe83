import Bitpack.Token.Basic

/-! From a text to its tokens. Blanks and comments stand between tokens, a word takes as many
characters as it can, and any other character is a token by itself, so every text has tokens. -/

namespace Bitpack
namespace Token

def isBlank (c : Char) : Bool :=
  c = ' ' || c = '\t' || c = '\n' || c = '\x0c' || c = '\r'

/-- The characters of names and numbers. -/
def isWordChar (c : Char) : Bool :=
  c.isAlphanum || c = '_'

/-- A comment goes on up to the end of its line. -/
def inComment (c : Char) : Bool :=
  c != '\n'

def wordKind (cs : List Char) : Kind :=
  let text := String.ofList cs
  if cs.head?.any Char.isDigit then .number text
  else match Keyword.ofText? text with
    | some k => .keyword k
    | none => .name text

def charKind (c : Char) : Kind :=
  match Mark.ofChar? c with
  | some m => .mark m
  | none => .stray c

theorem length_dropWhile_lt_succ (p : Char → Bool) (cs : List Char) :
    (cs.dropWhile p).length < cs.length + 1 :=
  Nat.lt_succ_of_le (List.dropWhile_sublist p).length_le

/-- The tokens of the text that follows the offset `pos`, the end apart. A token of 4 GiB or more, whose range
`Span.ofBounds?` refuses, is given as well. -/
def scanFrom (pos : Nat) : List Char → List Token
  | [] => []
  | c :: cs =>
    if c = '#' then
      scanFrom (pos + 1 + Text.byteLength (cs.takeWhile inComment)) (cs.dropWhile inComment)
    else if isBlank c then
      scanFrom (pos + 1) cs
    else if isWordChar c then
      let word := c :: cs.takeWhile isWordChar
      ⟨wordKind word, pos, word.length⟩ :: scanFrom (pos + word.length) (cs.dropWhile isWordChar)
    else
      ⟨charKind c, pos, c.utf8Size⟩ :: scanFrom (pos + c.utf8Size) cs
termination_by cs => cs.length
decreasing_by
  · exact length_dropWhile_lt_succ inComment cs
  · exact Nat.lt_succ_self cs.length
  · exact length_dropWhile_lt_succ isWordChar cs
  · exact Nat.lt_succ_self cs.length

/-- The tokens of a source text, the end apart. -/
def scan (src : String) : List Token :=
  scanFrom 0 src.toList

/-- The end of a source text. -/
def finishOf (src : String) : Token :=
  finish (Text.byteLength src.toList)

/-- All tokens of a text, with its end; an empty text has none. -/
def list? (src : String) : Option (List Token) :=
  if src.isEmpty then none else some (scan src ++ [finishOf src])

end Token
end Bitpack
