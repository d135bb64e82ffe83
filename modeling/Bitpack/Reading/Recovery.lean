import Bitpack.Reading.Walk

/-! Whole units, read by a cursor. After a faulty statement reading goes on behind the next semicolon of the
body, and after a faulty item behind the semicolon or the block that ends it. -/

namespace Bitpack

/-- Records that a turn which began at `start` has ended. -/
abbrev Parser.record (p : Parser) (loop : Loop) (start : Nat) : Parser :=
  { p with toCursor := p.toCursor.record loop start }

namespace Walk

variable {n : Nat} {α : Type}

theorem reaches_of_run {x : Walk n α} {p q : Parser} {o : Option α} (h : x.run p = (o, q)) :
    p.Reaches n q.toCursor := by
  have := (x p).2
  rwa [show (x p).1 = _ from h] at this

theorem pos_lt_of_run {x : Walk n α} {p q : Parser} {a : α} (hx : (x p).Takes) (h : x.run p = (some a, q)) :
    p.pos < q.pos := by
  have := hx a (by rw [show (x p).1 = _ from h])
  rwa [show (x p).1 = _ from h] at this

/-- Passes tokens up to the first of the kinds in `conts`, and that one; fails if one of the `stops` or the
end of the text is met before it or right after it. -/
def skip (conts stops : List Kind) : Walk n Unit := fun p =>
  if hp : p.before stops then
    have : p.advance.left < p.left := Cursor.left_advance_lt (Cursor.kind_ne_of_before hp)
    .since p.reaches_advance <|
      if p.next.kind ∈ conts then
        if p.advance.before stops then .ok p.advance () else .stop p.advance
      else skip conts stops p.advance
  else .stop p
termination_by p => p.left

theorem before_of_skip {conts stops : List Kind} {p q : Parser}
    (h : (skip conts stops : Walk n _).run p = (some (), q)) : q.before stops := by
  revert h
  unfold run
  fun_induction skip (n := n) conts stops p with
  | case1 p hp _ ih =>
    rw [Result.val_since]
    by_cases hcont : p.next.kind ∈ conts
    · rw [if_pos hcont]
      by_cases hbefore : p.advance.before stops
      · rw [if_pos hbefore]
        rintro ⟨⟩
        exact hbefore
      · rw [if_neg hbefore]
        exact nofun
    · rw [if_neg hcont]
      exact ih
  | case2 => exact nofun

theorem pos_lt_skip {conts stops : List Kind} {p : Parser} (hp : p.before stops) :
    p.pos < ((skip conts stops : Walk n _).run p).2.pos := by
  rw [run, skip, dif_pos hp]
  exact Result.pos_lt_of_advance (Cursor.kind_ne_of_before hp) rfl

/-- Reading on from `q` takes a token if none was taken before and it takes one there. -/
theorem pos_lt_of_reaches {p q : Parser} (h : p.Reaches n q.toCursor) (r : Result n q.toCursor α)
    (hr : q.next = p.next → q.pos < r.1.2.pos) : p.pos < r.1.2.pos := by
  by_cases hlt : p.pos < q.pos
  · exact Nat.lt_of_lt_of_le hlt r.2.le
  · have heq : q.pos = p.pos := Nat.le_antisymm (Nat.le_of_not_lt hlt) h.le
    exact heq ▸ hr (h.next_eq heq)

/-- One attempt at reading. After a failure it skips to where the next attempt is to be made, for which it
gives `none`, and fails if there is no such place. -/
def attempt (conts stops : List Kind) (x : Walk n α) : Walk n (Option α) := fun p =>
  match hread : x.run p with
  | (some a, q) => .since (reaches_of_run hread) (.ok q (some a))
  | (none, q) => .since (reaches_of_run hread) ((skip conts stops q).map fun _ => none)

theorem pos_lt_attempt (conts : List Kind) {stops : List Kind} {x : Walk n α} {p : Parser} (hx : (x p).Takes)
    (hp : p.before stops) : p.pos < (attempt conts stops x p).1.2.pos := by
  rw [attempt]
  split
  · rename_i hread
    exact pos_lt_of_run hx hread
  · rename_i q hread
    refine pos_lt_of_reaches (reaches_of_run hread) (skip conts stops q) fun hnext => pos_lt_skip ?_
    rwa [Cursor.before, hnext]

theorem before_of_attempt {conts stops : List Kind} {x : Walk n α} {p : Parser}
    (h : (attempt conts stops x p).1.1 = some none) : (attempt conts stops x p).1.2.before stops := by
  revert h
  rw [attempt]
  split
  · exact nofun
  · rename_i q hread
    intro h
    cases hskip : ((skip conts stops : Walk n _).run q).1 with
    | none =>
      change ((skip conts stops : Walk n _).run q).1.map _ = some none at h
      rw [hskip] at h
      cases h
    | some u => exact before_of_skip (Prod.ext hskip rfl)

/-- Reads again and again, until an attempt succeeds or no further one can be made. -/
def synchronize (conts stops : List Kind) (x : Walk 0 α) (hx : ∀ p, (x p).Takes) (p : Parser)
    (hp : p.before stops) : Result 1 p.toCursor α :=
  let r := attempt conts stops x p
  let q := r.1.2.record .attempts p.pos
  have hlt : p.pos < r.1.2.pos := pos_lt_attempt conts (hx p) hp
  .since (r.2.record hlt rfl) <|
    match h : r.1.1 with
    | some (some a) => .ok q a
    | some none =>
      have : q.left < p.left := r.2.left_lt (Cursor.kind_ne_of_before hp) hlt
      synchronize conts stops x hx q (before_of_attempt h)
    | none => .stop q
termination_by p.left

theorem pos_lt_synchronize {conts stops : List Kind} {x : Walk 0 α} (hx : ∀ p, (x p).Takes) {p : Parser}
    (hp : p.before stops) : p.pos < (synchronize conts stops x hx p hp).1.2.pos := by
  rw [synchronize]
  refine Nat.lt_of_lt_of_le (pos_lt_attempt conts (hx p) hp) ?_
  show ((attempt conts stops x p).1.2.record .attempts p.pos).pos ≤ _
  exact Result.pos_le_since _ _

/-- The statements of a body, up to the brace that closes it. -/
def statements : Walk 2 Unit := fun p =>
  if hp : p.before [.mark .rbrace] then
    let r := synchronize [.mark .semicolon] [.mark .rbrace] statement statement_takes p hp
    have hlt : p.pos < r.1.2.pos := pos_lt_synchronize _ hp
    have : (r.1.2.record .statements p.pos).left < p.left := r.2.left_lt (Cursor.kind_ne_of_before hp) hlt
    .since (r.2.record hlt rfl) <| statements (r.1.2.record .statements p.pos)
  else .ok p ()
termination_by p => p.left

/-- Packs variables, given with the places of their declarations. -/
def pack (chosen : List (VarId × Span)) : Walk n Layout := fun p =>
  match packVariables p.unit.word chosen p.unit.vars with
  | .ok (layout, vars) => .ok { p with unit := { p.unit with vars } } layout
  | .error d => .stop (p.abort d)

/-- A body, with the method's other variables declared. -/
def body (result : VarId) (params : List VarId) : Walk 2 Body := fun p =>
  (statements { p with scope := { vars := p.unit.vars, result, params } }).andThen fun _ q _ =>
    let locals := q.scope.locals.toList
    let q := { q with unit := { q.unit with vars := q.scope.vars } }
    (mark .rbrace q).andThen fun _ r _ =>
      (pack (locals.map fun l => (l.id, l.span)) r).andThen fun layout s _ =>
        .ok s {
          locals := locals.map fun l => (l.name, l.id)
          statements := q.scope.statements.toList
          groupCount := layout.groupCount
          totalBits := layout.totalBits }

/-- The variable that a method returns. -/
def declareResult (d : Declarator) : Walk n VarId := fun p =>
  let var := d.toVariable .result
  let q := { p with unit := { p.unit with vars := p.unit.vars.push var }, faults := p.faults ++ d.checkedWidth.2 }
  if p.unit.word.bits < var.width then
    .stop (q.abort ⟨.unpackable d.name (.tooWide var.width p.unit.word.bits), d.span⟩)
  else .ok q p.unit.vars.size

def declareParameters (ds : List Declarator) : Walk n (List (VarId × Span)) := fun p =>
  let (vars, params, notes) := declareParams p.unit.vars [] ds
  .ok { p with unit := { p.unit with vars }, faults := p.faults ++ notes } params

/-- Keeps a method unless its name is taken. -/
def insert (m : Method) : Walk n Unit := fun p =>
  let d : Draft := (⟨p.unit, p.faults⟩ : Draft).insert m
  .ok { p with unit := d.unit, faults := d.faults } ()

/-- A method, once its heading has been read. -/
def define (h : Heading) (hasBody : Bool) : Walk 2 Unit := do
  let result ← declareResult h.result
  let params ← declareParameters h.params
  let layout ← pack params
  let body ← if hasBody then some <$> body result (params.map (·.1)) else pure none
  insert {
    name := h.result.name
    access := h.access
    params := params.map (·.1)
    paramGroups := layout.groupCount
    paramBits := layout.totalBits
    result
    variadic := h.variadic
    body
    span := h.result.span }

def method (access : Access) : Walk 2 Unit := do
  let (h, hasBody) ← heading access
  define h hasBody

def imported (name : String) (span : Span) : Walk n Unit := fun p =>
  .ok { p with unit := { p.unit with imports := p.unit.imports.push ⟨name, span⟩ } } ()

/-- An import or a method. -/
def item : Walk 2 Unit := fun p =>
  if p.next.kind = .keyword .imports then
    .since p.reaches_advance <| (importName p.advance).andThen fun (name, span) q _ => imported name span q
  else (tags .internal p).andThen fun access q _ => method access q

theorem item_takes (p : Parser) : (item p).Takes := by
  unfold item
  split
  · rename_i h
    exact Result.takes_advance _ (by simp [h])
  · exact Result.takes_andThen_right fun access q _ => takes_bind_left _ (heading_takes access q)

/-- Passes the rest of a faulty item, up to a semicolon outside braces or the brace that closes its block,
`depth` braces being open. -/
def recover (depth : Nat) : Walk n Unit := fun p =>
  if hfinish : p.next.kind = .finish then .ok p ()
  else
    have : p.advance.left < p.left := Cursor.left_advance_lt hfinish
    .since p.reaches_advance <|
      match p.next.kind with
      | .mark .semicolon => if depth = 0 then .ok p.advance () else recover depth p.advance
      | .mark .lbrace => recover (depth + 1) p.advance
      | .mark .rbrace => if depth - 1 = 0 then .ok p.advance () else recover (depth - 1) p.advance
      | _ => recover depth p.advance
termination_by p => p.left

def orRecover (x : Walk n Unit) : Walk n Unit := fun p =>
  match hread : x.run p with
  | (some (), q) => ⟨(some (), q), reaches_of_run hread⟩
  | (none, q) => .since (reaches_of_run hread) (recover 0 q)

theorem pos_lt_orRecover {x : Walk n Unit} {p : Parser} (hx : (x p).Takes) (hp : p.next.kind ≠ .finish) :
    p.pos < ((orRecover x).run p).2.pos := by
  rw [run, orRecover]
  split
  · rename_i hread
    exact pos_lt_of_run hx hread
  · rename_i q hread
    refine pos_lt_of_reaches (reaches_of_run hread) (recover 0 q) fun hnext => ?_
    have hne : q.next.kind ≠ .finish := hnext ▸ hp
    rw [recover, dif_neg hne]
    exact Result.pos_lt_of_advance hne rfl

/-- The items of a unit, up to the end of the text or a variable that cannot be packed. -/
def items : Walk 3 Unit := fun p =>
  if hp : p.before [] ∧ p.fatal = false then
    let r := orRecover item p
    have hne := Cursor.kind_ne_of_before hp.1
    have hlt : p.pos < r.1.2.pos := pos_lt_orRecover (item_takes p) hne
    have : (r.1.2.record .items p.pos).left < p.left := r.2.left_lt hne hlt
    .since (r.2.record hlt rfl) <| items (r.1.2.record .items p.pos)
  else .ok p ()
termination_by p => p.left

/-- The size and the name of the unit's object. -/
def header : Walk n Unit := fun p =>
  (objectHeader p).andThen fun (bits, name) q _ => .ok { q with unit := { q.unit with name, bits } } ()

def unit : Walk 3 Unit := fun p =>
  if p.next.kind = .keyword .object then
    .since p.reaches_advance <| (orRecover header p.advance).andThen fun _ q _ => items q
  else items (p.report ⟨.missingHeader, p.next.span⟩)

end Walk

namespace Parser

def start (word : Word) (length : Nat) (tokens : List Token) : Parser :=
  { tokens := tokens.toArray, length, unit := { word } }

/-- The parser after reading the tokens of a text, the last of which is its end. -/
def read (word : Word) (length : Nat) (tokens : List Token) : Parser :=
  (Walk.unit.run (start word length tokens)).2

end Parser
end Bitpack
