import Bitpack.Source.Span
import Bitpack.Text.Quoted

/-! The tokens of a source text. -/

namespace Bitpack

inductive Keyword
  | object
  | imports
  | returns
  | and
  | or
  deriving DecidableEq, Repr

inductive Mark
  | plus
  | minus
  | star
  | slash
  | percent
  | amp
  | pipe
  | caret
  | tilde
  | assign
  | colon
  | lparen
  | rparen
  | lbrace
  | rbrace
  | semicolon
  | comma
  | dot
  | atSign
  deriving DecidableEq, Repr

/-- What a token is. A run of letters, digits and underscores is a keyword, a `name`, or, when it
begins with a digit, a `number`; whether it is a good numeral is settled where it is read. -/
inductive Kind
  | keyword (k : Keyword)
  | mark (m : Mark)
  | name (text : String)
  | number (text : String)
  /-- A character that belongs to no token. -/
  | stray (c : Char)
  /-- The end of the text. -/
  | finish
  deriving DecidableEq, Repr

structure Token where
  kind : Kind
  span : Span
  deriving DecidableEq, Repr

namespace Keyword

def text : Keyword → String
  | .object => "object"
  | .imports => "import"
  | .returns => "return"
  | .and => "and"
  | .or => "or"

def ofText? : String → Option Keyword
  | "object" => some .object
  | "import" => some .imports
  | "return" => some .returns
  | "and" => some .and
  | "or" => some .or
  | _ => none

theorem ofText?_text (k : Keyword) : ofText? k.text = some k := by
  cases k <;> rfl

def label : Keyword → String
  | .object => "Object"
  | .imports => "Import"
  | .returns => "Return"
  | .and => "And"
  | .or => "Or"

end Keyword

namespace Mark

def char : Mark → Char
  | .plus => '+'
  | .minus => '-'
  | .star => '*'
  | .slash => '/'
  | .percent => '%'
  | .amp => '&'
  | .pipe => '|'
  | .caret => '^'
  | .tilde => '~'
  | .assign => '='
  | .colon => ':'
  | .lparen => '('
  | .rparen => ')'
  | .lbrace => '\x7b'
  | .rbrace => '\x7d'
  | .semicolon => ';'
  | .comma => ','
  | .dot => '.'
  | .atSign => '@'

def ofChar? : Char → Option Mark
  | '+' => some .plus
  | '-' => some .minus
  | '*' => some .star
  | '/' => some .slash
  | '%' => some .percent
  | '&' => some .amp
  | '|' => some .pipe
  | '^' => some .caret
  | '~' => some .tilde
  | '=' => some .assign
  | ':' => some .colon
  | '(' => some .lparen
  | ')' => some .rparen
  | '\x7b' => some .lbrace
  | '\x7d' => some .rbrace
  | ';' => some .semicolon
  | ',' => some .comma
  | '.' => some .dot
  | '@' => some .atSign
  | _ => none

theorem ofChar?_char (m : Mark) : ofChar? m.char = some m := by
  cases m <;> rfl

def label : Mark → String
  | .plus => "Plus"
  | .minus => "Minus"
  | .star => "Star"
  | .slash => "Slash"
  | .percent => "Percent"
  | .amp => "Amp"
  | .pipe => "Pipe"
  | .caret => "Caret"
  | .tilde => "Tilde"
  | .assign => "Assign"
  | .colon => "Colon"
  | .lparen => "LParen"
  | .rparen => "RParen"
  | .lbrace => "LBrace"
  | .rbrace => "RBrace"
  | .semicolon => "Semicolon"
  | .comma => "Comma"
  | .dot => "Dot"
  | .atSign => "At"

end Mark

namespace Kind

/-- How a message names the token. -/
def text : Kind → String
  | .keyword k => k.text
  | .mark m => m.char.toString
  | .name s => s
  | .number s => s
  | .stray c => Text.quoteChar c
  | .finish => "end of input"

/-- How a listing of tokens names it. -/
def label : Kind → String
  | .keyword k => k.label
  | .mark m => m.label
  | .name s => "Identifier(" ++ Text.quoteText s ++ ")"
  | .number s => "Identifier(" ++ Text.quoteText s ++ ")"
  | .stray c => "ErrorUnexpectedChar(" ++ Text.quoteChar c ++ ")"
  | .finish => "Eof"

end Kind

namespace Token

/-- A line of a listing of tokens. -/
def line (t : Token) : String :=
  "Token(" ++ t.kind.label ++ ", " ++ t.span.text ++ ")"

/-- The token that stands for the end of a text of `length` bytes. -/
def finish (length : Nat) : Token := ⟨.finish, length, 0⟩

end Token
end Bitpack
