import Bitpack.Diagnostic
import Bitpack.Reading.Clause
import Bitpack.SourceUnit.Postfix

/-! Expressions. The tokens of a clause are read from left to right into infix items, each checked
against the one before it. A call is an operand whose arguments are expressions themselves; the calls
that are open at a point are kept on a stack. -/

namespace Bitpack

/-- What an item is to its neighbours. -/
inductive Place
  | start
  | operand
  | binary
  | complement
  | opening
  | closing
  | finish
  deriving DecidableEq, Repr

namespace Place

def describe : Place → String
  | .start => "start of expression"
  | .operand => "operand"
  | .binary => "operator"
  | .complement => "prefix operator"
  | .opening => "'('"
  | .closing => "')'"
  | .finish => "end of expression"

/-- An operand has to follow. -/
def wantsOperand : Place → Bool
  | .start | .binary | .complement | .opening => true
  | .operand | .closing | .finish => false

/-- An operand begins here. -/
def startsOperand : Place → Bool
  | .operand | .complement | .opening => true
  | .start | .binary | .closing | .finish => false

/-- Whether `next` may directly follow. -/
def allows (p next : Place) : Bool :=
  p.wantsOperand == next.startsOperand

end Place

/-- The outcome of reading an expression: undeclared names are noted and reading goes on; any other
problem ends it. -/
structure Reading where
  notes : List Diagnostic
  result : Except Diagnostic Expression

namespace Reading

def fail (d : Diagnostic) : Reading := ⟨[], .error d⟩

def note (d : Diagnostic) (r : Reading) : Reading := { r with notes := d :: r.notes }

end Reading

/-- An expression that has been read in part. -/
structure Frame where
  last : Place := .start
  /-- Parentheses that are open. -/
  depth : Nat := 0
  /-- The items so far, the latest first. -/
  items : List Item := []
  /-- The text so far. -/
  span : Option Span := none

namespace Frame

def push (f : Frame) (place : Place) (item : Item) (span : Span) : Frame :=
  { f with
    last := place
    items := item :: f.items
    span := some (match f.span with
      | some s => s.join span
      | none => span) }

def expression (f : Frame) : Expression :=
  .mk (toPostfix f.items.reverse) (f.span.getD Span.origin)

end Frame

/-- A call that has been read in part: its finished arguments, the latest first, and the expression
that it stands in. -/
structure OpenCall where
  name : String
  span : Span
  args : List Expression
  outer : Frame

namespace OpenCall

/-- The expression around the call, once the call is closed at `close`. -/
def finish (c : OpenCall) (close : Span) : Frame :=
  let span := c.span.join close
  c.outer.push .operand (.call c.name c.args.reverse span) span

end OpenCall

def Kind.binary? : Kind → Option Operator
  | .mark .star => some (.arith .mul)
  | .mark .slash => some (.arith .div)
  | .mark .plus => some (.arith .add)
  | .mark .minus => some (.arith .sub)
  | .mark .amp => some (.arith .bitAnd)
  | .mark .pipe => some (.arith .bitOr)
  | .mark .caret => some (.arith .bitXor)
  | .mark .percent => some (.arith .rem)
  | .keyword .and => some (.arith .and)
  | .keyword .or => some (.arith .or)
  | .mark .colon => some .cast
  | _ => none

/-- The problem that a token may not follow the place before it. -/
def illegal (p : Place) (t : Token) : Diagnostic :=
  let actual := match t.kind with
    | .mark .semicolon | .mark .rbrace | .finish => Place.finish.describe
    | kind => "'" ++ kind.text ++ "'"
  ⟨.illegalSequence p.describe actual, t.span⟩

/-- What ends an expression at the end of its clause. -/
def readFinish (stop : Token) (f : Frame) (calls : List OpenCall) : Reading :=
  if !f.last.allows .finish then .fail (illegal f.last stop)
  else if f.depth > 0 then .fail ⟨.unbalancedParen, stop.span⟩
  else match calls with
    | [] => ⟨[], .ok f.expression⟩
    | _ :: _ => .fail (stop.unexpected "')'")

/-- Reads the rest of an expression, given what has been read of it and the calls around that. A
comma or a parenthesis outside all others ends an argument. -/
def readInfix (lookup : String → Option VarId) (stop : Token) (f : Frame) (calls : List OpenCall) :
    List Token → Reading
  | [] => readFinish stop f calls
  | t :: ts =>
    match t.kind with
    | .mark .comma =>
      match calls with
      | c :: outer =>
        if f.depth > 0 then .fail (t.unexpected "expression")
        else if !f.last.allows .finish then .fail (illegal f.last t)
        else readInfix lookup stop {} ({ c with args := f.expression :: c.args } :: outer) ts
      | [] => .fail (t.unexpected "expression")
    | .mark .rparen =>
      if f.depth > 0 then
        if !f.last.allows .closing then .fail (illegal f.last t)
        else readInfix lookup stop { f.push .closing .closing t.span with depth := f.depth - 1 } calls ts
      else match calls with
        | c :: outer =>
          if !f.last.allows .finish then .fail (illegal f.last t)
          else
            let c := { c with args := f.expression :: c.args }
            readInfix lookup stop (c.finish t.span) outer ts
        | [] =>
          if !f.last.allows .closing then .fail (illegal f.last t)
          else .fail ⟨.unbalancedParen, t.span⟩
    | .mark .lparen =>
      if !f.last.allows .opening then .fail (illegal f.last t)
      else readInfix lookup stop { f.push .opening .opening t.span with depth := f.depth + 1 } calls ts
    | .mark .tilde =>
      if !f.last.allows .complement then .fail (illegal f.last t)
      else readInfix lookup stop (f.push .complement (.operator .not) t.span) calls ts
    | .mark .assign => .fail ⟨.invalidAssignmentTarget, t.span⟩
    | .number text =>
      if !f.last.allows .operand then .fail (illegal f.last t)
      else match Text.ofDecimal? (UInt64.size / 2) text.toList with
        | some n => readInfix lookup stop (f.push .operand (.number n) t.span) calls ts
        | none => .fail ⟨.badNumber text, t.span⟩
    | .name text =>
      if !f.last.allows .operand then .fail (illegal f.last t)
      else match ts with
        | ⟨.mark .lparen, _⟩ :: ⟨.mark .rparen, close⟩ :: rest =>
          readInfix lookup stop ((⟨text, t.span, [], f⟩ : OpenCall).finish close) calls rest
        | ⟨.mark .lparen, _⟩ :: rest =>
          readInfix lookup stop {} (⟨text, t.span, [], f⟩ :: calls) rest
        | rest =>
          match lookup text with
          | some id => readInfix lookup stop (f.push .operand (.var id) t.span) calls rest
          | none =>
            (readInfix lookup stop (f.push .operand (.number 0) t.span) calls rest).note
              ⟨.undeclared text, t.span⟩
    | kind =>
      match kind.binary? with
      | some op =>
        if !f.last.allows .binary then .fail (illegal f.last t)
        else readInfix lookup stop (f.push .binary (.operator op) t.span) calls ts
      | none => .fail (t.unexpected "expression")

/-- A token of such a kind has no place in an expression. -/
def Kind.isForeign : Kind → Bool
  | .keyword .object | .keyword .imports | .keyword .returns => true
  | .mark .lbrace | .mark .rbrace | .mark .semicolon | .mark .dot | .mark .atSign => true
  | .stray _ | .finish => true
  | _ => false

/-- What a kind of token is to an expression. -/
inductive Kind.Role : Kind → Prop
  | comma : Role (.mark .comma)
  | closing : Role (.mark .rparen)
  | opening : Role (.mark .lparen)
  | complement : Role (.mark .tilde)
  | assign : Role (.mark .assign)
  | number (text : String) : Role (.number text)
  | name (text : String) : Role (.name text)
  | binary {k : Kind} (op : Operator) (h : k.binary? = some op) : Role k
  | foreign {k : Kind} (h : k.isForeign = true) : Role k

theorem Kind.role (k : Kind) : k.Role := by
  cases k with
  | keyword k => cases k <;> first | exact .foreign rfl | exact .binary _ rfl
  | mark m => cases m <;> first | constructor; done | exact .foreign rfl | exact .binary _ rfl
  | name text => exact .name text
  | number text => exact .number text
  | stray c => exact .foreign rfl
  | finish => exact .foreign rfl

section Equations

variable {lookup : String → Option VarId} {stop : Token} {f : Frame} {calls : List OpenCall} {t : Token}
  {ts : List Token}

theorem readInfix_nil : readInfix lookup stop f calls [] = readFinish stop f calls :=
  rfl

theorem readInfix_comma {c : OpenCall} (ht : t.kind = .mark .comma) :
    readInfix lookup stop f (c :: calls) (t :: ts) =
      if f.depth > 0 then .fail (t.unexpected "expression")
      else if !f.last.allows .finish then .fail (illegal f.last t)
      else readInfix lookup stop {} ({ c with args := f.expression :: c.args } :: calls) ts := by
  obtain ⟨_, span⟩ := t
  cases ht
  rfl

theorem readInfix_comma_nil (ht : t.kind = .mark .comma) :
    readInfix lookup stop f [] (t :: ts) = .fail (t.unexpected "expression") := by
  obtain ⟨_, span⟩ := t
  cases ht
  rfl

theorem readInfix_closing (ht : t.kind = .mark .rparen) (hdepth : f.depth > 0) :
    readInfix lookup stop f calls (t :: ts) =
      if !f.last.allows .closing then .fail (illegal f.last t)
      else readInfix lookup stop { f.push .closing .closing t.span with depth := f.depth - 1 } calls ts := by
  obtain ⟨_, span⟩ := t
  cases ht
  exact if_pos hdepth

theorem readInfix_callEnd {c : OpenCall} (ht : t.kind = .mark .rparen) (hdepth : ¬ f.depth > 0) :
    readInfix lookup stop f (c :: calls) (t :: ts) =
      if !f.last.allows .finish then .fail (illegal f.last t)
      else readInfix lookup stop (({ c with args := f.expression :: c.args } : OpenCall).finish t.span) calls ts := by
  obtain ⟨_, span⟩ := t
  cases ht
  exact if_neg hdepth

theorem readInfix_unopened (ht : t.kind = .mark .rparen) (hdepth : ¬ f.depth > 0) :
    readInfix lookup stop f [] (t :: ts) =
      if !f.last.allows .closing then .fail (illegal f.last t) else .fail ⟨.unbalancedParen, t.span⟩ := by
  obtain ⟨_, span⟩ := t
  cases ht
  exact if_neg hdepth

theorem readInfix_opening (ht : t.kind = .mark .lparen) :
    readInfix lookup stop f calls (t :: ts) =
      if !f.last.allows .opening then .fail (illegal f.last t)
      else readInfix lookup stop { f.push .opening .opening t.span with depth := f.depth + 1 } calls ts := by
  obtain ⟨_, span⟩ := t
  cases ht
  rfl

theorem readInfix_complement (ht : t.kind = .mark .tilde) :
    readInfix lookup stop f calls (t :: ts) =
      if !f.last.allows .complement then .fail (illegal f.last t)
      else readInfix lookup stop (f.push .complement (.operator .not) t.span) calls ts := by
  obtain ⟨_, span⟩ := t
  cases ht
  rfl

theorem readInfix_assign (ht : t.kind = .mark .assign) :
    readInfix lookup stop f calls (t :: ts) = .fail ⟨.invalidAssignmentTarget, t.span⟩ := by
  obtain ⟨_, span⟩ := t
  cases ht
  rfl

theorem readInfix_number {text : String} (ht : t.kind = .number text) :
    readInfix lookup stop f calls (t :: ts) =
      if !f.last.allows .operand then .fail (illegal f.last t)
      else match Text.ofDecimal? (UInt64.size / 2) text.toList with
        | some n => readInfix lookup stop (f.push .operand (.number n) t.span) calls ts
        | none => .fail ⟨.badNumber text, t.span⟩ := by
  obtain ⟨_, span⟩ := t
  cases ht
  rfl

/-- What may follow a name: a call without arguments, another call, or anything else. -/
theorem call_cases (ts : List Token) :
    (∃ l r rest, ts = l :: r :: rest ∧ l.kind = .mark .lparen ∧ r.kind = .mark .rparen) ∨
    (∃ l rest, ts = l :: rest ∧ l.kind = .mark .lparen ∧ (rest.map (·.kind)).head? ≠ some (.mark .rparen)) ∨
    (ts.map (·.kind)).head? ≠ some (.mark .lparen) := by
  rcases ts with _ | ⟨l, ts⟩
  · simp
  · by_cases hl : l.kind = .mark .lparen
    · rcases ts with _ | ⟨r, rest⟩
      · exact .inr (.inl ⟨l, [], rfl, hl, by simp⟩)
      · by_cases hr : r.kind = .mark .rparen
        · exact .inl ⟨l, r, rest, rfl, hl, hr⟩
        · exact .inr (.inl ⟨l, r :: rest, rfl, hl, by simpa using hr⟩)
    · exact .inr (.inr (by simpa using hl))

theorem readInfix_emptyCall {text : String} {l r : Token} (ht : t.kind = .name text) (hl : l.kind = .mark .lparen)
    (hr : r.kind = .mark .rparen) :
    readInfix lookup stop f calls (t :: l :: r :: ts) =
      if !f.last.allows .operand then .fail (illegal f.last t)
      else readInfix lookup stop ((⟨text, t.span, [], f⟩ : OpenCall).finish r.span) calls ts := by
  obtain ⟨_, span⟩ := t
  obtain ⟨_, lspan⟩ := l
  obtain ⟨_, rspan⟩ := r
  cases ht
  cases hl
  cases hr
  rfl

theorem readInfix_call {text : String} {l : Token} (ht : t.kind = .name text) (hl : l.kind = .mark .lparen)
    (hts : (ts.map (·.kind)).head? ≠ some (.mark .rparen)) :
    readInfix lookup stop f calls (t :: l :: ts) =
      if !f.last.allows .operand then .fail (illegal f.last t)
      else readInfix lookup stop {} (⟨text, t.span, [], f⟩ :: calls) ts := by
  obtain ⟨_, lspan⟩ := l
  cases hl
  rw [readInfix.eq_def]
  simp only [ht]
  congr 1
  split
  · rename_i heq
    cases heq
    exact absurd rfl hts
  · rename_i heq
    cases heq
    rfl
  · rename_i hne
    exact absurd rfl (hne _ _)

theorem readInfix_var {text : String} (ht : t.kind = .name text)
    (hts : (ts.map (·.kind)).head? ≠ some (.mark .lparen)) :
    readInfix lookup stop f calls (t :: ts) =
      if !f.last.allows .operand then .fail (illegal f.last t)
      else match lookup text with
        | some id => readInfix lookup stop (f.push .operand (.var id) t.span) calls ts
        | none =>
          (readInfix lookup stop (f.push .operand (.number 0) t.span) calls ts).note ⟨.undeclared text, t.span⟩ := by
  rw [readInfix.eq_def]
  simp only [ht]
  congr 1
  split
  · exact absurd rfl hts
  · exact absurd rfl hts
  · rfl

theorem readInfix_binary {op : Operator} (ht : t.kind.binary? = some op) :
    readInfix lookup stop f calls (t :: ts) =
      if !f.last.allows .binary then .fail (illegal f.last t)
      else readInfix lookup stop (f.push .binary (.operator op) t.span) calls ts := by
  obtain ⟨k, span⟩ := t
  change k.binary? = some op at ht
  unfold Kind.binary? at ht
  split at ht <;> cases ht <;> rfl

theorem readInfix_foreign (ht : t.kind.isForeign = true) :
    readInfix lookup stop f calls (t :: ts) = .fail (t.unexpected "expression") := by
  obtain ⟨k, span⟩ := t
  cases k with
  | keyword k => cases k <;> first | rfl | cases ht
  | mark m => cases m <;> first | rfl | cases ht
  | name text => cases ht
  | number text => cases ht
  | stray c => rfl
  | finish => rfl

end Equations

/-- The targets of assignments in front of an expression, added to those known before them, the
latest first, and the tokens that follow. -/
def readTargets (lookup : String → Option VarId) (targets : List VarId) :
    List Token → List Diagnostic × List VarId × List Token
  | ⟨.name text, span⟩ :: ⟨.mark .assign, _⟩ :: rest =>
    match lookup text with
    | some id => readTargets lookup (id :: targets) rest
    | none =>
      let (notes, result) := readTargets lookup targets rest
      (⟨.undeclared text, span⟩ :: notes, result)
  | ts => ([], targets, ts)

/-- Each target after the value it receives. -/
def assignAll (targets : List VarId) : List Item :=
  targets.flatMap fun id => [.var id, .operator .assign]

/-- Reads a clause as `(name '=')* infix`. The targets given are assigned to last, and the text of the
expression begins at `start`. -/
def readExpression (lookup : String → Option VarId) (targets : List VarId) (start : Span)
    (c : Clause) : Reading :=
  let (notes, targets, rest) := readTargets lookup targets c.tokens
  let r := readInfix lookup c.stop {} [] rest
  ⟨notes ++ r.notes, r.result.map fun e => .mk (e.items ++ assignAll targets) (start.join e.span)⟩

end Bitpack
