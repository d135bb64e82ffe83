import Mathlib
import Bitpack.Reading.Unit

/-! The language of units: syntax trees, the kinds of tokens that each stands for, and the static rules
about numbers, names and widths. Trees know nothing of how tokens are read, with the one exception that
the value of an expression is a run of tokens that is read as infix. -/

namespace Bitpack.Grammar

/-- `WIDTH [NAME] NAME`. -/
structure Decl where
  width : String
  castTarget : Option String
  name : String

/-- `(NAME '=')* X`. -/
structure Expr where
  targets : List String
  value : List Kind

/-- A statement, without the semicolon that ends it. -/
inductive Stmt
  | empty
  | ret (e : Option Expr)
  | declare (d : Decl) (init : Option Expr)
  | eval (e : Expr)

/-- `WIDTH [NAME] NAME '(' params ')'`. -/
structure Signature where
  head : Decl
  params : List Decl
  variadic : Bool

/-- `('@' NAME)* signature (';' | block)`. -/
structure Method extends Signature where
  tags : List String
  body : Option (List Stmt)

inductive Item
  | imports (name : String)
  | method (m : Method)

/-- `'object' WIDTH NAME ';' item*`. -/
structure Unit where
  bits : String
  name : String
  items : List Item

section Kinds

def Decl.kinds (d : Decl) : List Kind :=
  .number d.width :: d.castTarget.toList.map .name ++ [.name d.name]

def targetKinds (targets : List String) : List Kind :=
  targets.flatMap fun name => [.name name, .mark .assign]

def Expr.kinds (e : Expr) : List Kind :=
  targetKinds e.targets ++ e.value

def Stmt.kinds : Stmt → List Kind
  | .empty => []
  | .ret e => .keyword .returns :: e.elim [] Expr.kinds
  | .declare d init => d.kinds ++ init.elim [] fun e => .mark .assign :: e.kinds
  | .eval e => e.kinds

/-- Parameters with commas between them; an ellipsis may stand at the end. -/
def paramKinds : List Decl → Bool → List Kind
  | [], false => []
  | [], true => [.mark .dot, .mark .dot, .mark .dot]
  | [d], false => d.kinds
  | d :: ds, variadic => d.kinds ++ .mark .comma :: paramKinds ds variadic

def tagKinds (tags : List String) : List Kind :=
  tags.flatMap fun tag => [.mark .atSign, .name tag]

def Signature.kinds (s : Signature) : List Kind :=
  s.head.kinds ++ .mark .lparen :: (paramKinds s.params s.variadic ++ [.mark .rparen])

def blockKinds (sts : List Stmt) : List Kind :=
  sts.flatMap (fun st => st.kinds ++ [.mark .semicolon]) ++ [.mark .rbrace]

def Method.kinds (m : Method) : List Kind :=
  tagKinds m.tags ++ m.toSignature.kinds ++ match m.body with
    | none => [.mark .semicolon]
    | some sts => .mark .lbrace :: blockKinds sts

def Item.kinds : Item → List Kind
  | .imports name => [.keyword .imports, .name name, .mark .semicolon]
  | .method m => m.kinds

def Unit.kinds (u : Unit) : List Kind :=
  .keyword .object :: .number u.bits :: .name u.name :: .mark .semicolon :: u.items.flatMap Item.kinds

end Kinds

section Rules

/-- The value of a decimal numeral that has room in 64 bits. -/
def Decl.bits? (d : Decl) : Option ℕ :=
  Text.ofDecimal? UInt64.size d.width.toList

def Decl.bits (d : Decl) : ℕ :=
  d.bits?.getD 0

def Decl.Valid (d : Decl) : Prop :=
  ∃ n, d.bits? = some n ∧ n ≠ 0

/-- A run of tokens that is read as an infix expression. Where it stands and what its names mean is left
open: every name is a variable. -/
def IsInfix (ks : List Kind) : Prop :=
  ∃ e, (readInfix (fun _ => some 0) (Token.finish 0) {} [] (ks.map (⟨·, Span.origin⟩))).result = .ok e

/-- The names in a run of tokens that are not the name of a called method. -/
def variableNames : List Kind → List String
  | [] => []
  | .name _ :: .mark .lparen :: ks => variableNames ks
  | .name x :: ks => x :: variableNames ks
  | _ :: ks => variableNames ks

structure Expr.Valid (known : List String) (e : Expr) : Prop where
  value : IsInfix e.value
  numbers : ∀ text, .number text ∈ e.value → (Text.ofDecimal? (2 ^ 63) text.toList).isSome
  names : ∀ x ∈ e.targets ++ variableNames e.value, x ∈ known

/-- The variable that a statement declares. -/
def Stmt.declared : Stmt → List Decl
  | .declare d _ => [d]
  | _ => []

/-- The rules for a statement where the names `known` are declared. A declaration may use its own name in
its initial value. -/
def Stmt.Valid (known : List String) : Stmt → Prop
  | .empty => True
  | .ret e => ∀ e' ∈ e, e'.Valid known
  | .declare d init => d.Valid ∧ d.name ∉ known ∧ ∀ e ∈ init, e.Valid (d.name :: known)
  | .eval e => e.Valid known ∧ ∀ text, e.kinds.head? ≠ some (.number text)

def ValidStmts (known : List String) : List Stmt → Prop
  | [] => True
  | st :: sts => st.Valid known ∧ ValidStmts (st.declared.map (·.name) ++ known) sts

/-- There is room for these variables: none is wider than a word, and placing them opens no more groups than a
layout may have. -/
def Packs (w : Word) (ds : List Decl) : Prop :=
  ∃ layout, pack w.bits.toUInt32 (ds.map Decl.bits) = .ok layout

structure Method.Valid (w : Word) (m : Method) : Prop where
  tags : ∀ tag ∈ m.tags, tag ∈ ["public", "private", "ignore"]
  head : m.head.Valid
  head_le : m.head.bits ≤ w.bits
  params : ∀ d ∈ m.params, d.Valid
  param_names : (m.params.map (·.name)).Nodup
  params_pack : Packs w m.params
  statements : ∀ sts ∈ m.body, ValidStmts (m.head.name :: m.params.map (·.name)) sts
  locals_pack : ∀ sts ∈ m.body, Packs w (sts.flatMap Stmt.declared)

def Item.method? : Item → Option Method
  | .imports _ => none
  | .method m => some m

/-- The size of the object may be zero; no two methods have one name. -/
structure Unit.Valid (w : Word) (u : Unit) : Prop where
  bits : (Text.ofDecimal? UInt64.size u.bits.toList).isSome
  methods : ∀ m ∈ u.items.filterMap Item.method?, m.Valid w
  names : ((u.items.filterMap Item.method?).map (·.head.name)).Nodup

end Rules
end Bitpack.Grammar
