import Bitpack.Reading.Cursor

/-! Readers that move a cursor. What they return carries the way that the cursor took, so no reader can go
back, pass the end of the text or record a turn that takes no token. -/

namespace Bitpack

/-- A unit that is being read. -/
structure Parser extends Cursor where
  unit : SourceUnit
  /-- What is known in the body that is being read. -/
  scope : Scope := { vars := #[], result := 0, params := [] }
  faults : List Diagnostic := []
  /-- A variable could not be packed, so nothing more is read. -/
  fatal : Bool := false
  /-- The statement that is being read has an undeclared name. -/
  poisoned : Bool := false

namespace Parser

abbrev report (p : Parser) (d : Diagnostic) : Parser :=
  { p with faults := p.faults ++ [d] }

/-- Notes an undeclared name; reading goes on. -/
abbrev poison (p : Parser) (d : Diagnostic) : Parser :=
  { p.report d with poisoned := true }

/-- Notes a variable that cannot be packed. -/
abbrev abort (p : Parser) (d : Diagnostic) : Parser :=
  { p.report d with fatal := true }

abbrev declare (p : Parser) (d : Declarator) : Parser :=
  { p with scope := p.scope.declare d, faults := p.faults ++ d.checkedWidth.2 }

def advance (p : Parser) : Parser :=
  { p with toCursor := p.toCursor.advance }

theorem reaches_advance {n : Nat} (p : Parser) : p.Reaches n p.advance.toCursor := .advance p.toCursor

end Parser

/-- Such a token ends every statement. -/
def Kind.endsStatement : Kind → Bool
  | .mark .semicolon | .mark .rbrace | .finish => true
  | _ => false

theorem Kind.ne_finish {k : Kind} (h : ¬ k.endsStatement) : k ≠ .finish := by
  rintro rfl
  exact h rfl

/-- What a reader makes of a parser whose cursor was `c`: its result, unless it failed, and the parser
afterwards. -/
def Result (n : Nat) (c : Cursor) (α : Type) : Type :=
  { r : Option α × Parser // c.Reaches n r.2.toCursor }

namespace Result

variable {n : Nat} {c : Cursor} {α β : Type}

def ok (p : Parser) (a : α) : Result n p.toCursor α := ⟨(some a, p), .refl _⟩

/-- Fails without a further problem. -/
def stop (p : Parser) : Result n p.toCursor α := ⟨(none, p), .refl _⟩

def fail (p : Parser) (d : Diagnostic) : Result n p.toCursor α := stop (p.report d)

/-- The same result, seen from where the cursor was before. -/
def since {d : Cursor} (h : c.Reaches n d) (r : Result n d α) : Result n c α :=
  ⟨r.1, h.trans r.2⟩

@[simp] theorem val_since {d : Cursor} (h : c.Reaches n d) (r : Result n d α) : (r.since h).1 = r.1 := rfl

theorem pos_le_since {d : Cursor} (h : c.Reaches n d) (r : Result n d α) : d.pos ≤ (r.since h).1.2.pos := r.2.le

theorem pos_lt_of_advance {p q : Parser} {r : Result n p.advance.toCursor α} {o : Option α}
    (hp : p.next.kind ≠ .finish) (h : (r.since p.reaches_advance).1 = (o, q)) : p.pos < q.pos := by
  have hle := r.2.le
  rw [show r.1 = _ from h] at hle
  exact Nat.lt_of_lt_of_le (Cursor.pos_lt_advance hp) hle

def map (f : α → β) (r : Result n c α) : Result n c β :=
  ⟨(r.1.1.map f, r.1.2), r.2⟩

def andThen (r : Result n c α) (f : α → (p : Parser) → c.Reaches n p.toCursor → Result n p.toCursor β) :
    Result n c β :=
  match r with
  | ⟨(some a, p), h⟩ => since h (f a p h)
  | ⟨(none, p), h⟩ => ⟨(none, p), h⟩

/-- The reader succeeded only by passing a token. -/
def Takes (r : Result n c α) : Prop :=
  ∀ a, r.1.1 = some a → c.pos < r.1.2.pos

theorem takes_stop (p : Parser) : (stop p : Result n p.toCursor α).Takes := nofun

theorem takes_since {d : Cursor} (h : c.Reaches n d) {r : Result n d α} (hr : r.Takes) : (r.since h).Takes :=
  fun a ha => Nat.lt_of_le_of_lt h.le (hr a ha)

theorem takes_advance {p : Parser} (r : Result n p.advance.toCursor α) (hp : p.next.kind ≠ .finish) :
    (r.since p.reaches_advance).Takes :=
  fun _ _ => pos_lt_of_advance (r := r) hp rfl

section AndThen

variable {r : Result n c α} {f : α → (p : Parser) → c.Reaches n p.toCursor → Result n p.toCursor β}

theorem takes_andThen_left (hr : r.Takes) : (r.andThen f).Takes := by
  obtain ⟨⟨_ | a, p⟩, h⟩ := r
  · exact nofun
  · exact fun _ _ => Nat.lt_of_lt_of_le (hr a rfl) (f a p h).2.le

theorem takes_andThen_right (hf : ∀ a p h, (f a p h).Takes) : (r.andThen f).Takes := by
  obtain ⟨⟨_ | a, p⟩, h⟩ := r
  · exact nofun
  · exact takes_since h (hf a p h)

end AndThen
end Result

/-- A reader during which the loops below level `n` may run. -/
def Walk (n : Nat) (α : Type) : Type :=
  (p : Parser) → Result n p.toCursor α

namespace Walk

variable {n : Nat} {α β : Type}

instance : Monad (Walk n) where
  pure a := fun p => .ok p a
  bind x f := fun p => (x p).andThen fun a q _ => f a q

theorem takes_bind_left {x : Walk n α} (f : α → Walk n β) {p : Parser} (hx : (x p).Takes) : ((x >>= f) p).Takes :=
  Result.takes_andThen_left hx

theorem takes_bind_right (x : Walk n α) {f : α → Walk n β} (hf : ∀ a q, (f a q).Takes) (p : Parser) :
    ((x >>= f) p).Takes :=
  Result.takes_andThen_right fun a q _ => hf a q

def run (x : Walk n α) (p : Parser) : Option α × Parser := (x p).1

def fail (d : Diagnostic) : Walk n α := fun p => .fail p d

def next : Walk n Token := fun p => .ok p p.next

/-- Passes the next token and gives it. -/
def advance : Walk n Token := fun p => .since p.reaches_advance (.ok p.advance p.next)

/-- Passes the next token and gives it, if it is of one of the kinds given. -/
def anyOf (kinds : List Kind) (expected : String) : Walk n Token := fun p =>
  if kinds.contains p.next.kind then advance p else .fail p (p.next.unexpected expected)

def mark (m : Mark) : Walk n Unit := fun p =>
  if p.next.kind = .mark m then .since p.reaches_advance (.ok p.advance ())
  else .fail p (p.next.unexpected ("'" ++ m.char.toString ++ "'"))

/-- A number for which there is room in 64 bits. -/
def number (expected : String) : Walk n Nat := fun p =>
  match p.next.kind with
  | .number text =>
    .since p.reaches_advance <|
      match Text.ofDecimal? UInt64.size text.toList with
      | some n => .ok p.advance n
      | none => .fail p.advance ⟨.badNumber text, p.next.span⟩
  | _ => .fail p (p.next.unexpected expected)

def name : Walk n (String × Span) := fun p =>
  match p.next.kind with
  | .name text => .since p.reaches_advance (.ok p.advance (text, p.next.span))
  | _ => .fail p (p.next.unexpected "name")

theorem mark_takes (m : Mark) (p : Parser) : (mark m p : Result n _ _).Takes := by
  unfold mark
  split
  · rename_i h
    exact Result.takes_advance _ (by simp [h])
  · exact Result.takes_stop _

theorem number_takes (expected : String) (p : Parser) : (number expected p : Result n _ _).Takes := by
  unfold number
  split
  · rename_i h
    exact Result.takes_advance _ (by simp [h])
  · exact Result.takes_stop _

/-- The second of two names is the declared one; the first is then the cast target. -/
def declarator : Walk n Declarator := do
  let start := (← next).span
  let width ← number "bit width"
  let (first, span) ← name
  match (← next).kind with
  | .name _ =>
    let (second, last) ← name
    return ⟨width, some first, second, start.join last⟩
  | _ => return ⟨width, none, first, start.join span⟩

theorem declarator_takes (p : Parser) : (declarator p : Result n _ _).Takes :=
  takes_bind_right next (fun _ q => takes_bind_left _ (number_takes _ q)) p

def ellipsis : Walk n Unit := do
  mark .dot
  mark .dot
  mark .dot

/-- Parameters, separated by commas, and whether an ellipsis ends them. -/
def parameters : Walk n (List Declarator × Bool) := fun p =>
  if p.next.kind = .mark .dot then (ellipsis p).map fun _ => ([], true)
  else
    (declarator p).andThen fun d q h =>
      if hcomma : q.next.kind = .mark .comma then
        have : q.advance.left < p.left := h.left_advance_lt (by simp [hcomma])
        .since q.reaches_advance <| (parameters q.advance).map fun (ds, variadic) => (d :: ds, variadic)
      else .ok q ([d], false)
termination_by p => p.left

/-- A method's heading, and whether a body follows. -/
def heading (access : Access) : Walk n (Heading × Bool) := do
  let result ← declarator
  mark .lparen
  let t ← next
  let (params, variadic) ← if t.kind = .mark .rparen then pure ([], false) else parameters
  mark .rparen
  let semicolonOrBrace := "';' or '\x7b'"
  let t ← anyOf [.mark .semicolon, .mark .lbrace] semicolonOrBrace
  return (⟨access, result, params, variadic⟩, t.kind = .mark .lbrace)

theorem heading_takes (access : Access) (p : Parser) : (heading access p : Result n _ _).Takes :=
  takes_bind_left _ (declarator_takes p)

/-- Annotations in front of a heading: the last known one counts, unknown ones are noted. -/
def tags (access : Access) : Walk n Access := fun p =>
  if htag : p.next.kind = .mark .atSign then
    .since p.reaches_advance <| (name p.advance).andThen fun (text, span) q h =>
      have : q.left < p.left := h.left_lt_of_advance (by simp [htag])
      match Access.ofTag? text with
      | some access => tags access q
      | none => tags access (q.report ⟨.unknownTag text, span⟩)
  else .ok p access
termination_by p => p.left

/-- The name of an import. -/
def importName : Walk n (String × Span) := do
  let imported ← name
  mark .semicolon
  return imported

/-- The size and the name of the object, after its keyword. -/
def objectHeader : Walk n (Nat × String) := do
  let bits ← number "object bit size"
  let (object, _) ← name
  mark .semicolon
  return (bits, object)

mutual

/-- Reads the rest of an expression, given what has been read of it, up to the end of its statement or one
of the `ends` outside parentheses. -/
def formula (ends : List Kind) (f : Frame) : Walk n Expression := fun p =>
  let t := p.next
  if hend : t.kind.endsStatement ∨ f.depth = 0 ∧ t.kind ∈ ends then
    if !f.last.allows .finish then .fail p (illegal f.last t)
    else if f.depth > 0 then .fail p ⟨.unbalancedParen, t.span⟩
    else .ok p f.expression
  else
    have : p.advance.left < p.left := Cursor.left_advance_lt (Kind.ne_finish fun h => hend (.inl h))
    match t.kind with
    | .mark .lparen =>
      if !f.last.allows .opening then .fail p (illegal f.last t)
      else .since p.reaches_advance <|
        formula ends { f.push .opening .opening t.span with depth := f.depth + 1 } p.advance
    | .mark .rparen =>
      if !f.last.allows .closing then .fail p (illegal f.last t)
      else if f.depth = 0 then .fail p ⟨.unbalancedParen, t.span⟩
      else .since p.reaches_advance <|
        formula ends { f.push .closing .closing t.span with depth := f.depth - 1 } p.advance
    | .mark .tilde =>
      if !f.last.allows .complement then .fail p (illegal f.last t)
      else .since p.reaches_advance <| formula ends (f.push .complement (.operator .not) t.span) p.advance
    | .mark .assign => .fail p ⟨.invalidAssignmentTarget, t.span⟩
    | .number text =>
      if !f.last.allows .operand then .fail p (illegal f.last t)
      else .since p.reaches_advance <|
        match Text.ofDecimal? (UInt64.size / 2) text.toList with
        | some n => formula ends (f.push .operand (.number n) t.span) p.advance
        | none => .fail p.advance ⟨.badNumber text, t.span⟩
    | .name text =>
      if !f.last.allows .operand then .fail p (illegal f.last t)
      else .since p.reaches_advance <|
        (operand text t.span p.advance).andThen fun (item, span) q h =>
          have : q.left ≤ p.advance.left := h.left_le
          formula ends (f.push .operand item span) q
    | kind =>
      match kind.binary? with
      | some op =>
        if !f.last.allows .binary then .fail p (illegal f.last t)
        else .since p.reaches_advance <| formula ends (f.push .binary (.operator op) t.span) p.advance
      | none => .fail p (t.unexpected "expression")
termination_by p => 2 * p.left

/-- The operand that begins with a name, which has been passed: a call or a variable. -/
def operand (text : String) (start : Span) : Walk n (Item × Span) := fun p =>
  if hcall : p.next.kind = .mark .lparen then
    have : p.advance.left < p.left := Cursor.left_advance_lt (by simp [hcall])
    let inside := if p.advance.next.kind = .mark .rparen then .ok p.advance [] else arguments p.advance
    .since p.reaches_advance <| inside.andThen fun args q _ =>
      (mark .rparen q).map fun () =>
        let span := start.join q.next.span
        (.call text args span, span)
  else
    match p.scope.lookup text with
    | some id => .ok p (.var id, start)
    | none => .ok (p.poison ⟨.undeclared text, start⟩) (.number 0, start)
termination_by p => 2 * p.left

/-- The arguments of a call, separated by commas. -/
def arguments : Walk n (List Expression) := fun p =>
  (formula [.mark .comma, .mark .rparen] {} p).andThen fun e q h =>
    if hcomma : q.next.kind = .mark .comma then
      have : q.advance.left < p.left := h.left_advance_lt (by simp [hcomma])
      .since q.reaches_advance <| (arguments q.advance).map fun es => e :: es
    else .ok q [e]
termination_by p => 2 * p.left + 1

end

/-- The targets of assignments in front of an expression, added to those known before them, the
latest first. -/
def targets (ids : List VarId) : Walk n (List VarId) := fun p =>
  match hname : p.next.kind with
  | .name text =>
    if hassign : p.advance.next.kind = .mark .assign then
      have : p.advance.advance.left < p.left :=
        (p.reaches_advance (n := 0)).left_advance_lt (by simp [hassign])
      .since p.reaches_advance <| .since p.advance.reaches_advance <|
        match p.scope.lookup text with
        | some id => targets (id :: ids) p.advance.advance
        | none => targets ids (p.advance.advance.poison ⟨.undeclared text, p.next.span⟩)
    else .ok p ids
  | _ => .ok p ids
termination_by p => p.left

/-- Reads `(name '=')* infix`. The targets given are assigned to last, and the text of the expression
begins at `start`. -/
def expression (ids : List VarId) (start : Span) : Walk n Expression := do
  let ids ← targets ids
  let e ← formula [.mark .semicolon] {}
  return .mk (e.items ++ assignAll ids) (start.join e.span)

/-- A declaration, perhaps with an initial value, which makes it a statement. -/
def declaration : Walk n (Option Statement) := fun p =>
  (declarator p).andThen fun d q _ =>
    if (q.scope.lookup d.name).isSome then .fail q ⟨.duplicateDeclaration d.name, d.span⟩
    else
      let id := q.scope.vars.size
      let q := q.declare d
      if q.next.kind = .mark .assign then
        .since q.reaches_advance <| (expression [id] d.span q.advance).andThen fun e r _ => .ok r (some (.eval e))
      else .ok q none

def push (st : Statement) : Walk n Unit := fun p =>
  .ok { p with scope := p.scope.push st } ()

/-- Ends a statement, which is kept unless it has an undeclared name. -/
def keep (st : Statement) : Walk n Unit := fun p =>
  (mark .semicolon p).andThen fun _ q _ =>
    let scope := if q.poisoned then q.scope else q.scope.push st
    .ok { q with scope, poisoned := false } ()

/-- Ends a declaration, which is a statement if it has an initial value. -/
def conclude : Option Statement → Walk n Unit
  | some st => keep st
  | none => mark .semicolon

/-- One statement, told by its first token. -/
def statement : Walk n Unit := fun p =>
  let p := { p with poisoned := false }
  match p.next.kind with
  | .mark .semicolon => .since p.reaches_advance <| .ok p.advance ()
  | .keyword .returns =>
    let q := p.advance
    .since p.reaches_advance <|
      if q.next.kind = .mark .semicolon then .since q.reaches_advance <| push (.ret none) q.advance
      else
        (expression [q.scope.result] p.next.span q).andThen fun e r _ => keep (.ret (some e)) r
  | .number _ => (declaration p).andThen fun st q _ => conclude st q
  | _ => (expression [] p.next.span p).andThen fun e q _ => keep (.eval e) q

theorem keep_takes (st : Statement) (p : Parser) : (keep st p : Result n _ _).Takes :=
  Result.takes_andThen_left (mark_takes _ p)

theorem conclude_takes (st : Option Statement) (p : Parser) : (conclude st p : Result n _ _).Takes := by
  cases st with
  | none => exact mark_takes _ p
  | some st => exact keep_takes st p

theorem statement_takes (p : Parser) : (statement p : Result n _ _).Takes := by
  unfold statement
  dsimp only
  split
  · rename_i h
    exact Result.takes_advance _ (by rw [show p.next.kind = _ from h]; simp)
  · rename_i h
    exact Result.takes_advance _ (by rw [show p.next.kind = _ from h]; simp)
  · exact Result.takes_andThen_right fun st q _ => conclude_takes st q
  · exact Result.takes_andThen_right fun e q _ => keep_takes _ q

end Walk
end Bitpack
