import Mathlib
import Bitpack.Proofs.Fatal

/-! Relocation. What is read from tokens keeps their places for later reports, and its variables are numbered behind
those that the unit had before. Here everything that is read is moved to other places and behind other variables, and
the items of moved tokens are seen to be the moved items. -/

namespace Bitpack

/-- A move to other places and behind other variables. -/
structure Relocation where
  /-- The variables that all others come behind. -/
  front : Array Variable
  place : Span → Span
  place_origin : place Span.origin = Span.origin
  place_join : ∀ s t, place (s.join t) = (place s).join (place t)

attribute [simp] Relocation.place_origin Relocation.place_join

section Moves

def Relocation.var (ρ : Relocation) (id : VarId) : VarId :=
  id + ρ.front.size

def Token.move (ρ : Relocation) (t : Token) : Token :=
  ⟨t.kind, ρ.place t.span⟩

def Diagnostic.move (ρ : Relocation) (d : Diagnostic) : Diagnostic :=
  ⟨d.cause, ρ.place d.span⟩

mutual

def Item.move (ρ : Relocation) : Item → Item
  | .call name args span => .call name (Expression.moveAll ρ args) (ρ.place span)
  | .var id => .var (ρ.var id)
  | .temp id width => .temp id width
  | .number value => .number value
  | .operator op => .operator op
  | .opening => .opening
  | .closing => .closing

def Expression.move (ρ : Relocation) : Expression → Expression
  | .mk items span => .mk (Item.moveAll ρ items) (ρ.place span)

def Item.moveAll (ρ : Relocation) : List Item → List Item
  | [] => []
  | i :: is => i.move ρ :: Item.moveAll ρ is

def Expression.moveAll (ρ : Relocation) : List Expression → List Expression
  | [] => []
  | e :: es => e.move ρ :: Expression.moveAll ρ es

end

def Clause.move (ρ : Relocation) (c : Clause) : Clause :=
  ⟨c.tokens.map (Token.move ρ), c.stop.move ρ⟩

def Block.move (ρ : Relocation) (b : Block) : Block :=
  ⟨b.clauses.map (Clause.move ρ), b.close.move ρ⟩

def Declarator.move (ρ : Relocation) (d : Declarator) : Declarator :=
  { d with span := ρ.place d.span }

def Heading.move (ρ : Relocation) (h : Heading) : Heading :=
  { h with result := h.result.move ρ, params := h.params.map (Declarator.move ρ) }

def Entry.move (ρ : Relocation) : Entry → Entry
  | .imported name span => .imported name (ρ.place span)
  | .method notes heading block =>
    .method (notes.map (Diagnostic.move ρ)) (heading.move ρ) (block.map (Block.move ρ))
  | .broken faults => .broken (faults.map (Diagnostic.move ρ))

end Moves

section Tokens

variable (ρ : Relocation)

@[simp] theorem Token.move_kind (t : Token) : (t.move ρ).kind = t.kind := rfl

@[simp] theorem Token.move_span (t : Token) : (t.move ρ).span = ρ.place t.span := rfl

theorem Token.move_unexpected (t : Token) (expected : String) :
    (t.move ρ).unexpected expected = (t.unexpected expected).move ρ := by
  unfold Token.unexpected
  rw [Token.move_kind]
  split <;> rfl

@[simp] theorem Clause.move_stop (c : Clause) : (c.move ρ).stop = c.stop.move ρ := rfl

@[simp] theorem Clause.move_tokens (c : Clause) : (c.move ρ).tokens = c.tokens.map (Token.move ρ) := rfl

theorem Clause.move_next (c : Clause) : (c.move ρ).next = c.next.move ρ := by
  obtain ⟨tokens, stop⟩ := c
  cases tokens <;> rfl

theorem Clause.cut_move (stops : Kind → Bool) (finish : Token) (ts : List Token) :
    Clause.cut stops (finish.move ρ) (ts.map (Token.move ρ)) =
      ((Clause.cut stops finish ts).1.move ρ, (Clause.cut stops finish ts).2.map (Token.move ρ)) := by
  induction ts with
  | nil => rfl
  | cons t ts ih =>
    rw [List.map_cons, Clause.cut, Clause.cut, Token.move_kind]
    split_ifs
    · rfl
    · rw [ih]
      rfl

theorem skipBlock_move (ts : List Token) : ∀ depth,
    skipBlock depth (ts.map (Token.move ρ)) = (skipBlock depth ts).map (Token.move ρ) := by
  induction ts with
  | nil => exact fun _ => rfl
  | cons t ts ih =>
    intro depth
    simp only [List.map_cons, skipBlock, Token.move_kind]
    split
    · exact ih _
    · cases depth with
      | zero => rfl
      | succ depth => exact ih _
    · exact ih _

theorem Clause.skip_move (c : Clause) (rest : List Token) :
    (c.move ρ).skip (rest.map (Token.move ρ)) = (c.skip rest).map (Token.move ρ) := by
  unfold Clause.skip
  rw [Clause.move_stop, Token.move_kind]
  split_ifs
  · exact skipBlock_move ρ rest 0
  · rfl

theorem Block.cons_move (t : Token) (b : Block) : (b.move ρ).cons (t.move ρ) = (b.cons t).move ρ := by
  obtain ⟨clauses, close⟩ := b
  cases clauses <;> rfl

theorem Block.split_move (finish : Token) (ts : List Token) : Block.split (finish.move ρ) (ts.map (Token.move ρ)) =
    ((Block.split finish ts).1.move ρ, (Block.split finish ts).2.map (Token.move ρ)) := by
  induction ts with
  | nil => rfl
  | cons t ts ih =>
    rw [List.map_cons, Block.split, Block.split, Token.move_kind, ih]
    split_ifs
    · rfl
    · rfl
    · simp only [Block.cons_move]

end Tokens

section Headings

variable {α β : Type} {ρ : Relocation}

/-- What reading gives, moved; `f` moves what was read. -/
def Read.movedResult (ρ : Relocation) (f : α → α) : Except Diagnostic (α × Clause) → Except Diagnostic (α × Clause)
  | .error d => .error (d.move ρ)
  | .ok (a, c) => .ok (f a, c.move ρ)

/-- From a moved clause, `x` reads what `y` reads, moved. -/
def Read.Agrees (ρ : Relocation) (f : α → α) (x y : Read α) : Prop :=
  ∀ c, x (c.move ρ) = Read.movedResult ρ f (y c)

namespace Read

theorem agrees_pure {f : α → α} (a : α) : Agrees ρ f (pure (f a)) (pure a) :=
  fun _ => rfl

theorem Agrees.bind {f : α → α} {g : β → β} {x y : Read α} {k l : α → Read β} (h : Agrees ρ f x y)
    (hk : ∀ a, Agrees ρ g (k (f a)) (l a)) : Agrees ρ g (x >>= k) (y >>= l) := by
  intro c
  change (x (c.move ρ) >>= fun p => k p.1 p.2) = movedResult ρ g (y c >>= fun p => l p.1 p.2)
  rw [h c]
  cases y c with
  | error d => rfl
  | ok p => exact hk p.1 p.2

/-- A token that is looked for and not found. -/
theorem movedResult_unexpected (f : α → α) (c : Clause) (expected : String) :
    (.error ((c.move ρ).next.unexpected expected) : Except Diagnostic (α × Clause)) =
      movedResult ρ f (.error (c.next.unexpected expected)) := by
  rw [Clause.move_next, Token.move_unexpected]
  rfl

theorem number_agrees (expected : String) : Agrees ρ id (number expected) (number expected) := by
  rintro ⟨tokens, stop⟩
  have hother := movedResult_unexpected (ρ := ρ) (id : ℕ → ℕ) ⟨tokens, stop⟩ expected
  cases tokens with
  | nil => exact hother
  | cons t ts =>
    obtain ⟨kind, span⟩ := t
    cases kind with
    | number text =>
      simp only [number, Clause.move_tokens, List.map_cons, Token.move]
      split <;> rfl
    | keyword | mark | name | stray | finish => exact hother

theorem name_agrees : Agrees ρ (fun p => (p.1, ρ.place p.2)) name name := by
  rintro ⟨tokens, stop⟩
  have hother := movedResult_unexpected (ρ := ρ) (fun p : String × Span => (p.1, ρ.place p.2)) ⟨tokens, stop⟩ "name"
  cases tokens with
  | nil => exact hother
  | cons t ts =>
    obtain ⟨kind, span⟩ := t
    cases kind with
    | name text => rfl
    | keyword | mark | number | stray | finish => exact hother

theorem mark_agrees (m : Mark) : Agrees ρ id (mark m) (mark m) := by
  rintro ⟨tokens, stop⟩
  have hother := movedResult_unexpected (ρ := ρ) (id : Unit → Unit) ⟨tokens, stop⟩ ("'" ++ m.char.toString ++ "'")
  cases tokens with
  | nil => exact hother
  | cons t ts =>
    obtain ⟨kind, span⟩ := t
    cases kind with
    | mark m' =>
      simp only [mark, Clause.move_tokens, List.map_cons, Token.move]
      split_ifs
      · rfl
      · exact hother
    | keyword | name | number | stray | finish => exact hother

theorem stop_agrees (kinds : List Kind) (expected : String) :
    Agrees ρ id (stop kinds expected) (stop kinds expected) := by
  intro c
  have hother := movedResult_unexpected (ρ := ρ) (id : Unit → Unit) c expected
  simp only [stop, Clause.move_tokens, Clause.move_stop, Token.move_kind, List.isEmpty_map]
  split_ifs
  · rfl
  · exact hother

theorem declarator_agrees : Agrees ρ (Declarator.move ρ) declarator declarator := by
  intro c
  unfold declarator
  rw [number_agrees "bit width" c]
  cases number "bit width" c with
  | error d => rfl
  | ok p =>
    obtain ⟨width, c₁⟩ := p
    simp only [movedResult, bind, Except.bind, id_eq]
    rw [name_agrees c₁]
    cases name c₁ with
    | error d => rfl
    | ok q =>
      obtain ⟨⟨first, span⟩, tokens, stop⟩ := q
      simp only [movedResult, Clause.move_tokens, Clause.move_next, Token.move_span, ← ρ.place_join]
      cases tokens with
      | nil => rfl
      | cons t ts =>
        obtain ⟨kind, span'⟩ := t
        cases kind with
        | name second => simp [Token.move, pure, Except.pure, Declarator.move, Clause.move]
        | keyword | mark | number | stray | finish => rfl

theorem ellipsis_agrees : Agrees ρ id ellipsis ellipsis :=
  (mark_agrees _).bind fun _ => (mark_agrees _).bind fun _ => mark_agrees _

theorem parameters_error {c : Clause} {d : Diagnostic} (hdot : c.next.kind ≠ .mark .dot)
    (hd : declarator c = .error d) : parameters c = .error d := by
  rw [parameters, if_neg hdot]
  split <;> simp_all

theorem parameters_rest {c : Clause} {d : Declarator} {span : Span} {rest : List Token} {stop : Token}
    (hdot : c.next.kind ≠ .mark .dot) (hd : declarator c = .ok (d, ⟨⟨.mark .comma, span⟩ :: rest, stop⟩)) :
    parameters c = do
      let ((ds, variadic), c') ← parameters ⟨rest, stop⟩
      return ((d :: ds, variadic), c') := by
  rw [parameters, if_neg hdot]
  split
  · simp_all
  · rename_i d' c₁ hd'
    rw [hd] at hd'
    cases hd'
    rfl

theorem parameters_agrees :
    Agrees ρ (fun p : List Declarator × Bool => (p.1.map (Declarator.move ρ), p.2)) parameters parameters := by
  intro c
  have hnext : ∀ c : Clause, (c.move ρ).next.kind = c.next.kind := fun c => by rw [Clause.move_next]; rfl
  fun_induction parameters c with
  | case1 c hdot =>
    rw [parameters, if_pos ((hnext c).trans hdot), ellipsis_agrees c]
    cases ellipsis c <;> rfl
  | case2 c hdot d hd =>
    have hmoved := declarator_agrees (ρ := ρ) c
    rw [hd] at hmoved
    exact parameters_error (by rwa [hnext]) hmoved
  | case3 c hdot d c' hd span rest hcomma _ ih =>
    have hmoved := declarator_agrees (ρ := ρ) c
    obtain ⟨_, stop⟩ := c'
    obtain rfl := hcomma
    rw [hd] at hmoved
    rw [parameters_rest (by rwa [hnext]) hmoved]
    change (parameters (Clause.move ρ ⟨rest, stop⟩) >>= _) = _
    rw [ih]
    cases parameters ⟨rest, stop⟩ <;> rfl
  | case4 c hdot d c' hd hcomma =>
    have hmoved := declarator_agrees (ρ := ρ) c
    rw [hd] at hmoved
    refine parameters_last (by rwa [hnext]) hmoved ?_
    intro span hhead
    obtain ⟨tokens, stop⟩ := c'
    cases tokens with
    | nil => cases hhead
    | cons t ts =>
      obtain ⟨kind, place⟩ := t
      cases hhead
      exact hcomma place ts rfl

theorem heading_agrees (access : Access) : Agrees ρ (Heading.move ρ) (heading access) (heading access) := by
  have hend : ∀ result params variadic, Agrees ρ (Heading.move ρ) (do
      mark .rparen
      stop [.mark .semicolon, .mark .lbrace] "';' or '\x7b'"
      return ⟨access, result.move ρ, params.map (Declarator.move ρ), variadic⟩) (do
      mark .rparen
      stop [.mark .semicolon, .mark .lbrace] "';' or '\x7b'"
      return ⟨access, result, params, variadic⟩) := fun result params variadic =>
    (mark_agrees _).bind fun _ => (stop_agrees _ _).bind fun _ =>
      agrees_pure (⟨access, result, params, variadic⟩ : Heading)
  refine declarator_agrees.bind fun result => (mark_agrees _).bind fun _ => ?_
  have hget : Agrees ρ (Clause.move ρ) get get := fun _ => rfl
  refine hget.bind fun c => ?_
  dsimp only
  rw [Clause.move_next, Token.move_kind]
  split_ifs
  · have hnone : Agrees ρ (fun p : List Declarator × Bool => (p.1.map (Declarator.move ρ), p.2)) (pure ([], false))
        (pure ([], false)) := agrees_pure ([], false)
    exact hnone.bind fun ps => hend result ps.1 ps.2
  · exact parameters_agrees.bind fun ps => hend result ps.1 ps.2

theorem importName_agrees : Agrees ρ (fun p => (p.1, ρ.place p.2)) importName importName :=
  name_agrees.bind fun p => (stop_agrees _ _).bind fun _ => agrees_pure p

theorem objectHeader_agrees : Agrees ρ id objectHeader objectHeader :=
  (number_agrees _).bind fun n => name_agrees.bind fun p => (stop_agrees _ _).bind fun _ =>
    agrees_pure (f := id) (n, p.1)

end Read

/-- What reading annotations gives, moved. -/
def movedTags (ρ : Relocation) : Except Diagnostic (Access × List Token) → Except Diagnostic (Access × List Token)
  | .error d => .error (d.move ρ)
  | .ok (access, rest) => .ok (access, rest.map (Token.move ρ))

theorem readTags_move (ρ : Relocation) (stop : Token) (access : Access) (ts : List Token) :
    readTags (stop.move ρ) access (ts.map (Token.move ρ)) =
      ((readTags stop access ts).1.map (Diagnostic.move ρ), movedTags ρ (readTags stop access ts).2) := by
  fun_induction readTags stop access ts with
  | case1 access s₁ text s₂ rest access' htag ih =>
    simp only [List.map_cons, Token.move, readTags, htag]
    exact ih
  | case2 access s₁ text s₂ rest htag notes result heq ih =>
    simp only [List.map_cons, Token.move, readTags, htag]
    rw [heq] at ih
    exact congrArg (fun p => (_ :: p.1, p.2)) ih
  | case3 access s₁ rest hname =>
    have hfail : ([], .error ((List.headD (rest.map (Token.move ρ)) (stop.move ρ)).unexpected "name")) =
        (List.map (Diagnostic.move ρ) [], movedTags ρ (.error ((rest.headD stop).unexpected "name"))) := by
      rw [show (rest.map (Token.move ρ)).headD (stop.move ρ) = (rest.headD stop).move ρ by cases rest <;> rfl,
        Token.move_unexpected]
      rfl
    cases rest with
    | nil => exact hfail
    | cons t ts =>
      obtain ⟨kind, span⟩ := t
      cases kind with
      | name text => exact absurd rfl (hname text span ts)
      | keyword | mark | number | stray | finish => exact hfail
  | case4 access ts htags hat =>
    cases ts with
    | nil => rfl
    | cons t ts =>
      obtain ⟨kind, span⟩ := t
      cases kind with
      | mark m =>
        cases m with
        | atSign => exact absurd rfl (hat span ts)
        | _ => rfl
      | _ => rfl

namespace Entry

/-- The item of a run that begins with `import`, given what was read behind that. -/
def ofImport : Except Diagnostic ((String × Span) × Clause) → Entry
  | .ok ((name, span), _) => .imported name span
  | .error d => .broken [d]

/-- The item of any other run, given what was read of its annotations. -/
def ofTags (stop : Token) (notes : List Diagnostic) : Except Diagnostic (Access × List Token) → Entry
  | .error d => .broken (notes ++ [d])
  | .ok (access, rest) =>
    match Read.heading access ⟨rest, stop⟩ with
    | .ok (heading, _) => .method notes heading none
    | .error d => .broken (notes ++ [d])

theorem ofTags_move (ρ : Relocation) (stop : Token) (notes : List Diagnostic)
    (r : Except Diagnostic (Access × List Token)) :
    ofTags (stop.move ρ) (notes.map (Diagnostic.move ρ)) (movedTags ρ r) = (ofTags stop notes r).move ρ := by
  cases r with
  | error d => simp [ofTags, movedTags, move]
  | ok p =>
    obtain ⟨access, rest⟩ := p
    have hheading : Read.heading access ⟨rest.map (Token.move ρ), stop.move ρ⟩ =
        Read.movedResult ρ (Heading.move ρ) (Read.heading access ⟨rest, stop⟩) :=
      Read.heading_agrees access ⟨rest, stop⟩
    simp only [ofTags, movedTags, hheading]
    cases Read.heading access ⟨rest, stop⟩ with
    | error d => simp [Read.movedResult, move]
    | ok q => rfl

theorem ofClause_move (ρ : Relocation) (c : Clause) : ofClause (c.move ρ) = (ofClause c).move ρ := by
  obtain ⟨tokens, stop⟩ := c
  have hmethod : ofTags (stop.move ρ) (readTags (stop.move ρ) .internal (tokens.map (Token.move ρ))).1
      (readTags (stop.move ρ) .internal (tokens.map (Token.move ρ))).2 =
      (ofTags stop (readTags stop .internal tokens).1 (readTags stop .internal tokens).2).move ρ := by
    rw [readTags_move]
    exact ofTags_move _ _ _ _
  cases tokens with
  | nil => exact hmethod
  | cons t ts =>
    obtain ⟨kind, span⟩ := t
    cases kind with
    | keyword k =>
      cases k with
      | imports =>
        change ofImport (Read.importName (Clause.move ρ ⟨ts, stop⟩)) = (ofImport (Read.importName ⟨ts, stop⟩)).move ρ
        rw [Read.importName_agrees]
        cases Read.importName ⟨ts, stop⟩ <;> rfl
      | object | returns | and | or => exact hmethod
    | mark | name | number | stray | finish => exact hmethod

/-- The items of moved tokens are the moved items. -/
theorem split_move (ρ : Relocation) (finish : Token) (ts : List Token) :
    split (finish.move ρ) (ts.map (Token.move ρ)) = (split finish ts).map (move ρ) := by
  have hhead : ∀ t ts, head (finish.move ρ) (Token.move ρ t :: ts.map (Token.move ρ)) =
      ((head finish (t :: ts)).1.move ρ, (head finish (t :: ts)).2.map (Token.move ρ)) :=
    fun t ts => Clause.cut_move ρ _ finish (t :: ts)
  fun_induction split finish ts with
  | case1 => simp [split]
  | case2 t ts c name span hentry ih =>
    change ofClause (head finish (t :: ts)).1 = _ at hentry
    rw [List.map_cons, split, hhead]
    simp only [ofClause_move, hentry, move]
    rw [ih]
    rfl
  | case3 t ts c faults hentry ih =>
    change ofClause (head finish (t :: ts)).1 = _ at hentry
    rw [List.map_cons, split, hhead]
    simp only [ofClause_move, hentry, move]
    rw [Clause.skip_move, ih]
    rfl
  | case4 t ts c notes heading block hentry hstop ih =>
    change ofClause (head finish (t :: ts)).1 = _ at hentry
    change (head finish (t :: ts)).1.stop.kind = .mark .lbrace at hstop
    rw [List.map_cons, split, hhead]
    simp only [ofClause_move, hentry, move]
    rw [Clause.move_stop, Token.move_kind, if_pos hstop, Block.split_move, ih]
    rfl
  | case5 t ts c notes heading block hentry hstop ih =>
    change ofClause (head finish (t :: ts)).1 = _ at hentry
    change ¬ (head finish (t :: ts)).1.stop.kind = .mark .lbrace at hstop
    rw [List.map_cons, split, hhead]
    simp only [ofClause_move, hentry, move]
    rw [Clause.move_stop, Token.move_kind, if_neg hstop, ih]
    rfl

end Entry
end Headings
end Bitpack
