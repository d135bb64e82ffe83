import Mathlib
import Bitpack.Proofs.Rereading

/-! Places do not matter to what is read. Tokens without their places give the same unit and the same problems, without
their places, so the kinds of tokens are all that counts. -/

namespace Bitpack

section Bare

/-- Everything moves to the start of the text, and variables stay where they are. -/
def Relocation.bare : Relocation where
  front := #[]
  place _ := Span.origin
  place_origin := rfl
  place_join _ _ := rfl

mutual

def Item.bare : Item → Item
  | .call name args _ => .call name (Expression.bareAll args) Span.origin
  | .var id => .var id
  | .temp id width => .temp id width
  | .number value => .number value
  | .operator op => .operator op
  | .opening => .opening
  | .closing => .closing

def Expression.bare : Expression → Expression
  | .mk items _ => .mk (Item.bareAll items) Span.origin

def Item.bareAll : List Item → List Item
  | [] => []
  | i :: is => i.bare :: Item.bareAll is

def Expression.bareAll : List Expression → List Expression
  | [] => []
  | e :: es => e.bare :: Expression.bareAll es

end

def Statement.bare : Statement → Statement
  | .eval e => .eval e.bare
  | .ret e => .ret (e.map Expression.bare)

def Body.bare (b : Body) : Body :=
  { b with statements := b.statements.map Statement.bare }

def Method.bare (m : Method) : Method :=
  { m with body := m.body.map Body.bare, span := Span.origin }

def Import.bare (i : Import) : Import :=
  { i with span := Span.origin }

/-- The unit without the places that its text had. -/
def SourceUnit.bare (u : SourceUnit) : SourceUnit :=
  { u with methods := u.methods.map Method.bare, imports := u.imports.map Import.bare }

mutual

theorem Item.move_bare : (i : Item) → i.move .bare = i.bare
  | .call name args _ => congrArg (Item.call name · Span.origin) (Expression.moveAll_bare args)
  | .var _ => rfl
  | .temp _ _ => rfl
  | .number _ => rfl
  | .operator _ => rfl
  | .opening => rfl
  | .closing => rfl

theorem Expression.move_bare : (e : Expression) → e.move .bare = e.bare
  | .mk items _ => congrArg (Expression.mk · Span.origin) (Item.moveAll_bare items)

theorem Item.moveAll_bare : (is : List Item) → Item.moveAll .bare is = Item.bareAll is
  | [] => rfl
  | i :: is => congrArg₂ List.cons i.move_bare (Item.moveAll_bare is)

theorem Expression.moveAll_bare : (es : List Expression) → Expression.moveAll .bare es = Expression.bareAll es
  | [] => rfl
  | e :: es => congrArg₂ List.cons e.move_bare (Expression.moveAll_bare es)

end

theorem Statement.move_bare (st : Statement) : st.move .bare = st.bare := by
  cases st with
  | eval e => exact congrArg Statement.eval e.move_bare
  | ret e =>
    cases e with
    | none => rfl
    | some e => exact congrArg (fun e => Statement.ret (some e)) e.move_bare

theorem Body.move_bare (b : Body) : b.move .bare = b.bare := by
  have hlocals : b.locals.map (fun l => (l.1, Relocation.bare.var l.2)) = b.locals := List.map_id _
  have hstatements : b.statements.map (Statement.move .bare) = b.statements.map Statement.bare :=
    List.map_congr_left fun st _ => st.move_bare
  rw [Body.move, hlocals, hstatements, Body.bare]

theorem Method.move_bare (m : Method) : m.move .bare = m.bare := by
  have hparams : m.params.map Relocation.bare.var = m.params := List.map_id _
  have hbody : m.body.map (Body.move .bare) = m.body.map Body.bare := congrArg (m.body.map ·) (funext Body.move_bare)
  rw [Method.move, hparams, hbody]
  rfl

theorem readMethod_bare (word : Word) (vars : Array Variable) (heading : Heading) (block : Option Block) :
    readMethod word vars (heading.move .bare) (block.map (Block.move .bare)) =
      ⟨(readMethod word vars heading block).vars,
        (readMethod word vars heading block).faults.map (Diagnostic.move .bare),
        (readMethod word vars heading block).method.map Method.bare⟩ := by
  have hfront : ∀ vars : Array Variable, Relocation.bare.front ++ vars = vars := fun _ => Array.empty_append
  have hread := readMethod_move .bare word vars heading block
  rwa [hfront, MethodReading.move, hfront, funext Method.move_bare] at hread

end Bare

section Units

theorem SourceUnit.method?_bare (u : SourceUnit) (name : String) :
    u.bare.method? name = (u.method? name).map Method.bare := by
  simp only [SourceUnit.method?, SourceUnit.bare, Array.find?_map]
  rfl

def Draft.bare (d : Draft) : Draft :=
  ⟨d.unit.bare, d.faults.map (Diagnostic.move .bare)⟩

namespace Draft

theorem isFatal_bare (d : Draft) : d.bare.isFatal = d.isFatal :=
  List.any_map

theorem insert_bare (d : Draft) (m : Method) : d.bare.insert m.bare = (d.insert m).bare := by
  have hname : (d.unit.bare.method? m.bare.name).isSome = (d.unit.method? m.name).isSome := by
    rw [SourceUnit.method?_bare, Option.isSome_map]
    rfl
  unfold insert
  simp only [bare, hname]
  split_ifs
  · simp [Diagnostic.move, Relocation.bare, Method.bare]
  · simp [SourceUnit.bare]

theorem add_bare (d : Draft) (e : Entry) : d.bare.add (e.move .bare) = (d.add e).bare := by
  cases e with
  | imported name span => simp [add, Entry.move, Relocation.bare, bare, SourceUnit.bare, Import.bare]
  | broken faults => simp [add, Entry.move, bare]
  | method notes heading block =>
    have hread : readMethod d.bare.unit.word d.bare.unit.vars (heading.move .bare) (block.map (Block.move .bare)) = _ :=
      readMethod_bare d.unit.word d.unit.vars heading block
    simp only [add, Entry.move, hread]
    generalize readMethod d.unit.word d.unit.vars heading block = r
    have hdraft : (⟨{ d.bare.unit with vars := r.vars },
        d.bare.faults ++ notes.map (Diagnostic.move .bare) ++ r.faults.map (Diagnostic.move .bare)⟩ : Draft) =
        bare ⟨{ d.unit with vars := r.vars }, d.faults ++ notes ++ r.faults⟩ := by
      simp [bare, SourceUnit.bare]
    rw [hdraft]
    cases r.method with
    | none => rfl
    | some m => exact insert_bare _ m

theorem addAll_bare (d : Draft) (es : List Entry) : d.bare.addAll (es.map (Entry.move .bare)) = (d.addAll es).bare := by
  induction es generalizing d with
  | nil => rfl
  | cons e es ih =>
    rw [List.map_cons, addAll, addAll, isFatal_bare]
    split_ifs
    · rfl
    · rw [add_bare, ih]

theorem header_bare (word : Word) (finish : Token) (ts : List Token) :
    header word (finish.move .bare) (ts.map (Token.move .bare)) =
      ((header word finish ts).1.bare, (header word finish ts).2.map (Token.move .bare)) := by
  have hmissing : ∀ (ts : List Token) span,
      ((⟨{ word }, [⟨.missingHeader, Span.origin⟩]⟩ : Draft), ts.map (Token.move .bare)) =
      (bare ⟨{ word }, [⟨.missingHeader, span⟩]⟩, ts.map (Token.move .bare)) := by
    simp [bare, SourceUnit.bare, Diagnostic.move, Relocation.bare]
  cases ts with
  | nil => exact hmissing [] _
  | cons t ts =>
    obtain ⟨kind, span⟩ := t
    have hother := hmissing (⟨kind, span⟩ :: ts) span
    cases kind with
    | keyword k =>
      cases k with
      | object =>
        have hhead : Entry.head (finish.move .bare) (ts.map (Token.move .bare)) =
            ((Entry.head finish ts).1.move .bare, (Entry.head finish ts).2.map (Token.move .bare)) :=
          Clause.cut_move .bare _ finish ts
        change header word (finish.move .bare) (⟨.keyword .object, Span.origin⟩ :: ts.map (Token.move .bare)) = _
        simp only [header]
        rw [hhead, Read.objectHeader_agrees]
        cases Read.objectHeader (Entry.head finish ts).1 with
        | error d => simp [Read.movedResult, Clause.skip_move, bare, SourceUnit.bare]
        | ok p => simp [Read.movedResult, bare, SourceUnit.bare]
      | imports | returns | and | or => exact hother
    | mark | name | number | stray | finish => exact hother

end Draft

/-- Reading does not look at places. -/
theorem SourceUnit.ofTokens_bare (word : Word) (finish : Token) (ts : List Token) :
    ofTokens word (finish.move .bare) (ts.map (Token.move .bare)) =
      ((ofTokens word finish ts).1.bare, (ofTokens word finish ts).2.map (Diagnostic.move .bare)) := by
  unfold ofTokens
  simp only [Draft.header_bare, Entry.split_move, Draft.addAll_bare]
  rfl

/-- The kinds of tokens are all that counts. -/
theorem SourceUnit.ofTokens_of_kinds (word : Word) {ts ts' : List Token} (finish finish' : Token)
    (hfinish : finish.kind = finish'.kind) (hts : ts.map (·.kind) = ts'.map (·.kind)) :
    (ofTokens word finish ts).1.bare = (ofTokens word finish' ts').1.bare ∧
      (ofTokens word finish ts).2.map (·.cause) = (ofTokens word finish' ts').2.map (·.cause) := by
  have hbare : ∀ ts : List Token, ts.map (Token.move .bare) = (ts.map (·.kind)).map fun k => ⟨k, Span.origin⟩ := by
    intro ts
    rw [List.map_map]
    rfl
  have hcause : ∀ ds : List Diagnostic, ds.map (·.cause) = (ds.map (Diagnostic.move .bare)).map (·.cause) := by
    intro ds
    rw [List.map_map]
    rfl
  have hread : ofTokens word (finish.move .bare) (ts.map (Token.move .bare)) =
      ofTokens word (finish'.move .bare) (ts'.map (Token.move .bare)) := by
    rw [hbare, hbare, hts, Token.move, Token.move, hfinish]
    rfl
  rw [ofTokens_bare, ofTokens_bare] at hread
  obtain ⟨hunit, hfaults⟩ := Prod.mk.inj hread
  exact ⟨hunit, by rw [hcause, hfaults, ← hcause]⟩

end Units
end Bitpack
