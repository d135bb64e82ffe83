import Bitpack.Diagnostic
import Bitpack.Reading.Clause
import Bitpack.SourceUnit.Basic

/-! The items of a unit before any name is looked up: imports, and methods with their headings and the
statements of their bodies. A run that is no item is kept as its faults. -/

namespace Bitpack

/-- Reads from a clause; a failure is one problem. -/
abbrev Read := StateT Clause (Except Diagnostic)

/-- A width, a name and perhaps a cast target. -/
structure Declarator where
  width : Nat
  castTarget : Option String
  name : String
  span : Span
  deriving Repr

structure Heading where
  access : Access
  result : Declarator
  params : List Declarator
  variadic : Bool
  deriving Repr

/-- An item of a unit. -/
inductive Entry
  | imported (name : String) (span : Span)
  /-- A method, with the notes about its annotations. -/
  | method (notes : List Diagnostic) (heading : Heading) (block : Option Block)
  | broken (faults : List Diagnostic)

namespace Read

/-- A number for which there is room in 64 bits. -/
def number (expected : String) : Read Nat := fun c =>
  match c.tokens with
  | ⟨.number text, span⟩ :: rest =>
    match Text.ofDecimal? UInt64.size text.toList with
    | some n => .ok (n, ⟨rest, c.stop⟩)
    | none => .error ⟨.badNumber text, span⟩
  | _ => .error (c.next.unexpected expected)

def name : Read (String × Span) := fun c =>
  match c.tokens with
  | ⟨.name text, span⟩ :: rest => .ok ((text, span), ⟨rest, c.stop⟩)
  | _ => .error (c.next.unexpected "name")

def mark (m : Mark) : Read Unit := fun c =>
  let expected := "'" ++ m.char.toString ++ "'"
  match c.tokens with
  | ⟨.mark m', _⟩ :: rest =>
    if m' = m then .ok ((), ⟨rest, c.stop⟩) else .error (c.next.unexpected expected)
  | _ => .error (c.next.unexpected expected)

/-- The end of the clause, at a stop of one of the kinds given. -/
def stop (kinds : List Kind) (expected : String) : Read Unit := fun c =>
  if c.tokens.isEmpty && kinds.contains c.stop.kind then .ok ((), c)
  else .error (c.next.unexpected expected)

/-- The second of two names is the declared one; the first is then the cast target. -/
def declarator : Read Declarator := fun c => do
  let start := c.next.span
  let (width, c) ← number "bit width" c
  let ((first, span), c) ← name c
  match c.tokens with
  | ⟨.name second, last⟩ :: rest =>
    return (⟨width, some first, second, start.join last⟩, ⟨rest, c.stop⟩)
  | _ => return (⟨width, none, first, start.join span⟩, c)

theorem length_of_number {expected : String} {c c' : Clause} {n : Nat}
    (h : number expected c = .ok (n, c')) : c'.tokens.length < c.tokens.length := by
  unfold number at h
  split at h
  · rename_i hc
    split at h
    · cases h; simp [hc]
    · cases h
  · cases h

theorem length_of_name {c c' : Clause} {n : String × Span}
    (h : name c = .ok (n, c')) : c'.tokens.length < c.tokens.length := by
  unfold name at h
  split at h
  · rename_i hc
    cases h; simp [hc]
  · cases h

theorem length_of_declarator {c c' : Clause} {d : Declarator}
    (h : declarator c = .ok (d, c')) : c'.tokens.length < c.tokens.length := by
  unfold declarator at h
  cases hn : number "bit width" c with
  | error e => simp [hn, bind, Except.bind] at h
  | ok p =>
    obtain ⟨w, c1⟩ := p
    cases hm : name c1 with
    | error e => simp [hn, hm, bind, Except.bind] at h
    | ok q =>
      obtain ⟨m, c2⟩ := q
      have h1 := length_of_number hn
      have h2 := length_of_name hm
      simp only [hn, hm, bind, Except.bind] at h
      split at h
      · rename_i hc
        cases h
        rw [hc] at h2
        simp at h2 ⊢
        omega
      · cases h; omega

/-- Three dots. -/
def ellipsis : Read Unit := do
  mark .dot
  mark .dot
  mark .dot

/-- Parameters, separated by commas, and whether an ellipsis ends them. -/
def parameters (c : Clause) : Except Diagnostic ((List Declarator × Bool) × Clause) :=
  if c.next.kind = .mark .dot then do
    let ((), c) ← ellipsis c
    return (([], true), c)
  else
    match h : declarator c with
    | .error d => .error d
    | .ok (d, c') =>
      match ht : c'.tokens with
      | ⟨.mark .comma, _⟩ :: rest =>
        have : rest.length < c.tokens.length := by
          have := length_of_declarator h
          rw [ht, List.length_cons] at this
          omega
        do
          let ((ds, variadic), c'') ← parameters ⟨rest, c'.stop⟩
          return ((d :: ds, variadic), c'')
      | _ => .ok (([d], false), c')
termination_by c.tokens.length

/-- A method's heading, up to the mark that says whether a body follows. -/
def heading (access : Access) : Read Heading := do
  let result ← declarator
  mark .lparen
  let c ← get
  let (params, variadic) ← if c.next.kind = .mark .rparen then pure ([], false) else parameters
  mark .rparen
  let semicolonOrBrace := "';' or '\x7b'"
  stop [.mark .semicolon, .mark .lbrace] semicolonOrBrace
  return ⟨access, result, params, variadic⟩

/-- The name of an import. -/
def importName : Read (String × Span) := do
  let n ← name
  stop [.mark .semicolon] "';'"
  return n

/-- The size and the name of the object, after its keyword. -/
def objectHeader : Read (Nat × String) := do
  let bits ← number "object bit size"
  let (n, _) ← name
  stop [.mark .semicolon] "';'"
  return (bits, n)

end Read

/-- Annotations in front of a heading: the last known one counts, unknown ones are noted. -/
def readTags (stop : Token) (access : Access) :
    List Token → List Diagnostic × Except Diagnostic (Access × List Token)
  | ⟨.mark .atSign, _⟩ :: ⟨.name text, span⟩ :: rest =>
    match Access.ofTag? text with
    | some access => readTags stop access rest
    | none =>
      let (notes, result) := readTags stop access rest
      (⟨.unknownTag text, span⟩ :: notes, result)
  | ⟨.mark .atSign, _⟩ :: rest => ([], .error ((rest.headD stop).unexpected "name"))
  | ts => ([], .ok (access, ts))

namespace Entry

/-- The item that a run begins; its body, if there is one, follows the run. -/
def ofClause (c : Clause) : Entry :=
  match c.tokens with
  | ⟨.keyword .imports, _⟩ :: rest =>
    match Read.importName ⟨rest, c.stop⟩ with
    | .ok ((name, span), _) => .imported name span
    | .error d => .broken [d]
  | tokens =>
    let (notes, result) := readTags c.stop .internal tokens
    match result with
    | .error d => .broken (notes ++ [d])
    | .ok (access, rest) =>
      match Read.heading access ⟨rest, c.stop⟩ with
      | .ok (heading, _) => .method notes heading none
      | .error d => .broken (notes ++ [d])

/-- The run that an item begins with, and the tokens after its stop. -/
def head (finish : Token) (ts : List Token) : Clause × List Token :=
  Clause.cut Kind.endsHead finish ts

/-- The items of a list of tokens. -/
def split (finish : Token) : List Token → List Entry
  | [] => []
  | t :: ts =>
    let c := (head finish (t :: ts)).1
    match ofClause c with
    | .imported name span => .imported name span :: split finish (head finish (t :: ts)).2
    | .broken faults => .broken faults :: split finish (c.skip (head finish (t :: ts)).2)
    | .method notes heading _ =>
      if c.stop.kind = .mark .lbrace then
        .method notes heading (some (Block.split finish (head finish (t :: ts)).2).1)
          :: split finish (Block.split finish (head finish (t :: ts)).2).2
      else .method notes heading none :: split finish (head finish (t :: ts)).2
termination_by ts => ts.length
decreasing_by
  all_goals
    have hcut := Clause.length_cut_lt Kind.endsHead finish t ts
    simp only [List.length_cons]
    unfold head
  · exact hcut
  · exact Nat.lt_of_le_of_lt (Clause.length_skip_le _ _) hcut
  · exact Nat.lt_of_le_of_lt (Block.length_split_le _ _) hcut
  · exact hcut

end Entry
end Bitpack
