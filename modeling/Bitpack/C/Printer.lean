import Bitpack.C.Basic
import Bitpack.Text.Numeral

/-! The text of C files. -/

namespace Bitpack.C

/-- The unsigned type behind the word. -/
def wordType : Word → String
  | .w32 => "uint32_t"
  | .w64 => "uint64_t"

/-- What makes a literal as wide as the word. -/
def literalSuffix : Word → String
  | .w32 => "U"
  | .w64 => "ULL"

def Bank.text : Bank → String
  | .params => "params"
  | .locals => "locals"
  | .args index => s!"args{index}"

def operatorText : Arith → String
  | .and => "&&"
  | .or => "||"
  | op => op.symbol

def Expr.text (w : Word) : Expr → String
  | .decimal value => toString value.toNat ++ literalSuffix w
  | .hex value => "0x" ++ String.ofList (Text.hexDigits value.toNat) ++ literalSuffix w
  | .temp index => s!"t{index}"
  | .result => "ret"
  | .word bank index => bank.text ++ s!"[{index}]"
  | .paren e => "(" ++ e.text w ++ ")"
  | .complement e => "~" ++ e.text w
  | .binary op left right => left.text w ++ " " ++ operatorText op ++ " " ++ right.text w
  | .shiftLeft e amount => e.text w ++ s!" << {amount}"
  | .shiftRight e amount => e.text w ++ s!" >> {amount}"
  | .call function args => function ++ "(self, " ++ (Bank.args args).text ++ ")"

def Stmt.text (w : Word) : Stmt → String
  | .discard parameter => s!"(void){parameter};"
  | .declareWords bank count => "Bitpack_t " ++ bank.text ++ s!"[{count}] = \x7b0\x7d;"
  | .declareResult => "Bitpack_t ret = 0;"
  | .declareTemp index value => s!"Bitpack_t t{index} = " ++ value.text w ++ ";"
  | .setResult value => "ret = " ++ value.text w ++ ";"
  | .setWord bank index value => bank.text ++ s!"[{index}] = " ++ value.text w ++ ";"
  | .andWord bank index value => bank.text ++ s!"[{index}] &= " ++ value.text w ++ ";"
  | .orWord bank index value => bank.text ++ s!"[{index}] |= " ++ value.text w ++ ";"
  | .print value => "printf(\"%llu\\n\", (unsigned long long)(" ++ value.text w ++ "));"
  | .returnResult => "return ret;"

/-- The head of a function, as in its definition. -/
def Prototype.head (p : Prototype) : String :=
  let storage := if p.isStatic then "static " else ""
  let name := p.name
  s!"{storage}Bitpack_t {name}(void *self, Bitpack_t *params)"

def Prototype.text (p : Prototype) : String :=
  p.head ++ " __asm__(\"" ++ p.symbol ++ "\");"

/-- A definition, after an empty line. -/
def Function.lines (w : Word) (f : Function) : List String :=
  ["", f.prototype.head, "\x7b"] ++ f.body.map (fun s => "    " ++ s.text w) ++ ["\x7d"]

def File.lines (f : File) : List String :=
  ["#include <stdint.h>", "#include <stdio.h>", "", "typedef " ++ wordType f.word ++ " Bitpack_t;"]
    ++ (if f.prototypes.isEmpty then [] else "" :: f.prototypes.map Prototype.text)
    ++ f.functions.flatMap (Function.lines f.word)

def File.text (f : File) : String :=
  String.join (f.lines.map (· ++ "\n"))

end Bitpack.C
