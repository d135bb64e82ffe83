import Mathlib
import Bitpack.Proofs.Headings
import Bitpack.Proofs.Reading

/-! Statements do not get into each other's way. The clauses of a body are the runs between its semicolons
whatever stands in them, and what is wrong with one decides only whether that one is kept. -/

namespace Bitpack

/-- Problems after which a statement is still read to its end. -/
def Cause.isNote : Cause → Bool
  | .undeclared _ | .zeroWidth _ => true
  | _ => false

def Diagnostic.IsZeroWidth (d : Diagnostic) : Prop :=
  ∃ name, d.cause = .zeroWidth name

theorem isNote_unexpected (t : Token) (expected : String) : (t.unexpected expected).cause.isNote = false := by
  unfold Token.unexpected
  split <;> rfl

theorem Diagnostic.IsZeroWidth.isNote {d : Diagnostic} (h : d.IsZeroWidth) : d.cause.isNote = true := by
  obtain ⟨name, h⟩ := h
  rw [h]
  rfl

section Expressions

/-- Undeclared names are noted, and only a problem of another kind ends the reading. -/
structure Reading.Regular (r : Reading) : Prop where
  notes : ∀ d ∈ r.notes, ∃ name, d.cause = .undeclared name
  result : ∀ d, r.result = .error d → d.cause.isNote = false

theorem Reading.regular_fail {d : Diagnostic} (h : d.cause.isNote = false) : (Reading.fail d).Regular := by
  refine ⟨List.forall_mem_nil _, ?_⟩
  rintro _ ⟨⟩
  exact h

theorem readFinish_regular (stop : Token) (f : Frame) (calls : List OpenCall) : (readFinish stop f calls).Regular := by
  unfold readFinish
  split_ifs
  · exact Reading.regular_fail rfl
  · exact Reading.regular_fail rfl
  · cases calls with
    | nil => exact ⟨List.forall_mem_nil _, fun d hd => nomatch hd⟩
    | cons c outer => exact Reading.regular_fail (isNote_unexpected _ _)

theorem readInfix_regular (lookup : String → Option VarId) (stop : Token) (f : Frame) (calls : List OpenCall)
    (ts : List Token) : (readInfix lookup stop f calls ts).Regular := by
  fun_induction readInfix lookup stop f calls ts
  case case1 => exact readFinish_regular _ _ _
  case case24 ih => exact ⟨List.forall_mem_cons.2 ⟨⟨_, rfl⟩, ih.notes⟩, ih.result⟩
  case case4 ih | case7 ih | case9 ih | case13 ih | case15 ih | case18 ih | case21 ih | case22 ih | case23 ih
    | case26 ih => exact ih
  case case2 | case5 | case27 => exact Reading.regular_fail (isNote_unexpected _ _)
  all_goals exact Reading.regular_fail rfl

theorem readTargets_notes (lookup : String → Option VarId) (targets : List VarId) (ts : List Token) :
    ∀ d ∈ (readTargets lookup targets ts).1, ∃ name, d.cause = .undeclared name := by
  fun_induction readTargets lookup targets ts with
  | case1 _ _ _ _ _ _ _ ih => exact ih
  | case2 targets text span _ rest hid notes result heq ih =>
    rw [heq] at ih
    exact List.forall_mem_cons.2 ⟨⟨text, rfl⟩, ih⟩
  | case3 => exact List.forall_mem_nil _

theorem readExpression_regular (lookup : String → Option VarId) (targets : List VarId) (start : Span) (c : Clause) :
    (readExpression lookup targets start c).Regular := by
  have hvalue := readInfix_regular lookup c.stop {} [] (readTargets lookup targets c.tokens).2.2
  refine ⟨List.forall_mem_append.2 ⟨readTargets_notes lookup targets c.tokens, hvalue.notes⟩, ?_⟩
  exact fun d hd => hvalue.result d (readExpression_eq_error hd)

end Expressions

section Statements

/-- A declaration without an initial value. -/
def Clause.IsBareDeclaration (c : Clause) : Prop :=
  ∃ d : Grammar.Decl, c.tokens.map (·.kind) = d.kinds

/-- A clause that adds a statement to its body, given what is wrong with it. -/
def Clause.Contributes (c : Clause) (faults : List Diagnostic) : Prop :=
  c.tokens ≠ [] ∧ ¬ c.IsBareDeclaration ∧ ∀ d ∈ faults, d.IsZeroWidth

/-- What reading a clause may do to the statements of a scope. -/
structure Scope.Isolates (s : Scope) (c : Clause) (r : Scope × List Diagnostic) : Prop where
  once : r.2.countP (!·.cause.isNote) ≤ 1
  kept : c.Contributes r.2 → ∃ st, r.1.statements = s.statements.push st
  dropped : ¬ c.Contributes r.2 → r.1.statements = s.statements

namespace Scope

variable {s s' : Scope} {c : Clause} {notes : List Diagnostic}

theorem countP_notes (h : ∀ d ∈ notes, d.cause.isNote = true) : notes.countP (!·.cause.isNote) = 0 := by
  rw [List.countP_eq_zero]
  intro d hd
  simp [h d hd]

theorem isolates_fault (hs : s'.statements = s.statements) (hnotes : ∀ d ∈ notes, d.cause.isNote = true)
    {d : Diagnostic} (hd : d.cause.isNote = false) : s.Isolates c (s', notes ++ [d]) where
  once := by
    rw [List.countP_append, countP_notes hnotes, Nat.zero_add]
    exact List.countP_le_length
  kept := by
    rintro ⟨-, -, hzero⟩
    have hnote := (hzero d (by simp)).isNote
    rw [hd] at hnote
    cases hnote
  dropped := fun _ => hs

theorem isolates_error {d : Diagnostic} (hd : d.cause.isNote = false) : s.Isolates c (s, [d]) :=
  @isolates_fault s s c [] rfl (List.forall_mem_nil _) d hd

theorem isolates_bare (hs : s'.statements = s.statements) (hbare : c.IsBareDeclaration)
    (hnotes : ∀ d ∈ notes, d.IsZeroWidth) : s.Isolates c (s', notes) where
  once := by
    rw [countP_notes fun d hd => (hnotes d hd).isNote]
    exact Nat.zero_le 1
  kept := fun h => absurd hbare h.2.1
  dropped := fun _ => hs

/-- A statement that ends in an expression is kept if nothing but a width of zero was found before it,
and nothing in it. -/
theorem isolates_keep (hs : s'.statements = s.statements) (hc : c.tokens ≠ []) (hbare : ¬ c.IsBareDeclaration)
    (hnotes : ∀ d ∈ notes, d.IsZeroWidth) {stop : Token} (hstop : stop.kind = .mark .semicolon) {r : Reading}
    (hr : r.Regular) (statement : Expression → Statement) :
    s.Isolates c ((s'.keep stop r statement).1, notes ++ (s'.keep stop r statement).2) := by
  have hundeclared : ∀ d ∈ r.notes, d.cause.isNote = true := by
    intro d hd
    obtain ⟨name, hname⟩ := hr.notes d hd
    rw [hname]
    rfl
  have hall : ∀ d ∈ notes ++ r.notes, d.cause.isNote = true :=
    List.forall_mem_append.2 ⟨fun d hd => (hnotes d hd).isNote, hundeclared⟩
  unfold keep
  cases hresult : r.result with
  | error d =>
    rw [← List.append_assoc]
    exact isolates_fault hs hall (hr.result d hresult)
  | ok e =>
    simp only [hstop, if_true]
    by_cases hempty : r.notes = []
    · rw [hempty]
      refine ⟨?_, fun _ => ⟨statement e, ?_⟩, fun h => absurd ⟨hc, hbare, ?_⟩ h⟩
      · rw [List.append_nil, countP_notes fun d hd => (hnotes d hd).isNote]
        exact Nat.zero_le 1
      · exact congrArg (Array.push · (statement e)) hs
      · simpa using hnotes
    · rw [if_neg (by simpa using hempty)]
      refine ⟨by rw [countP_notes hall]; exact Nat.zero_le 1, ?_, fun _ => hs⟩
      rintro ⟨-, -, hzero⟩
      obtain ⟨d, hd⟩ := List.exists_mem_of_ne_nil _ hempty
      obtain ⟨name, hname⟩ := hr.notes d hd
      obtain ⟨name', hname'⟩ := hzero d (List.mem_append_right _ hd)
      rw [hname] at hname'
      cases hname'

end Scope

theorem Read.number_error {expected : String} {c : Clause} {d : Diagnostic} (h : Read.number expected c = .error d) :
    d.cause.isNote = false := by
  unfold Read.number at h
  split at h
  · split at h
    · cases h
    · cases h
      rfl
  · cases h
    exact isNote_unexpected _ _

theorem Read.name_error {c : Clause} {d : Diagnostic} (h : Read.name c = .error d) : d.cause.isNote = false := by
  unfold Read.name at h
  split at h
  · cases h
  · cases h
    exact isNote_unexpected _ _

theorem Read.declarator_error {c : Clause} {d : Diagnostic} (h : Read.declarator c = .error d) :
    d.cause.isNote = false := by
  unfold Read.declarator at h
  cases hn : Read.number "bit width" c with
  | error d' =>
    simp only [hn, bind, Except.bind] at h
    cases h
    exact Read.number_error hn
  | ok p =>
    cases hm : Read.name p.2 with
    | error d' =>
      simp only [hn, hm, bind, Except.bind] at h
      cases h
      exact Read.name_error hm
    | ok q =>
      simp only [hn, hm, bind, Except.bind] at h
      split at h <;> cases h

theorem Declarator.checkedWidth_notes (d : Declarator) : ∀ x ∈ d.checkedWidth.2, x.IsZeroWidth := by
  unfold Declarator.checkedWidth
  split_ifs
  · exact List.forall_mem_cons.2 ⟨⟨d.name, rfl⟩, List.forall_mem_nil _⟩
  · exact List.forall_mem_nil _

theorem Grammar.Decl.mark_notMem (d : Grammar.Decl) (m : Mark) : .mark m ∉ d.kinds := by
  simp [Grammar.Decl.kinds]

namespace Scope

/-- The name is declared whatever follows it, so only what follows decides about a statement. -/
theorem isolates_declaration (s : Scope) {c : Clause} (hc : c.tokens ≠ []) (hstop : c.stop.kind = .mark .semicolon) :
    s.Isolates c (s.declaration c) := by
  unfold declaration
  cases hd : Read.declarator c with
  | error d => exact isolates_error (Read.declarator_error hd)
  | ok p =>
    obtain ⟨decl, c'⟩ := p
    obtain ⟨g, front, rfl, hfront, -⟩ := Read.declarator_sound hd
    have hnotes := decl.checkedWidth_notes
    have hsame : (s.declare decl).statements = s.statements := rfl
    simp only
    split_ifs
    · exact isolates_error rfl
    · split
      · rename_i span rest htokens
        refine isolates_keep hsame hc ?_ hnotes hstop (readExpression_regular _ _ _ _) _
        rintro ⟨g', hg'⟩
        refine g'.mark_notMem .assign (hg' ▸ ?_)
        simp [htokens]
      · cases hend : Read.stop [.mark .semicolon] "';'" c' with
        | ok r =>
          obtain ⟨⟨⟩, c''⟩ := r
          obtain ⟨-, hnil, -⟩ := Read.stop_ok.1 hend
          refine isolates_bare hsame ⟨g, ?_⟩ hnotes
          simp [hnil, hfront]
        | error d =>
          refine isolates_fault hsame (fun x hx => (hnotes x hx).isNote) ?_
          unfold Read.stop at hend
          split_ifs at hend
          cases hend
          exact isNote_unexpected _ _

theorem not_isBareDeclaration {t : Token} {ts : List Token} {stop : Token} (ht : ∀ text, t.kind ≠ .number text) :
    ¬ Clause.IsBareDeclaration ⟨t :: ts, stop⟩ := by
  rintro ⟨d, hd⟩
  exact ht d.width (List.cons.inj hd).1

theorem isolates_statement (s : Scope) {c : Clause} (hstop : c.stop.kind = .mark .semicolon) :
    s.Isolates c (s.statement c) := by
  obtain ⟨tokens, stop⟩ := c
  have hkeep : ∀ {t ts r} (f : Expression → Statement), (∀ text, (t : Token).kind ≠ .number text) → r.Regular →
      s.Isolates ⟨t :: ts, stop⟩ (s.keep stop r f) :=
    fun f ht hr => @isolates_keep s s _ [] rfl (List.cons_ne_nil _ _) (not_isBareDeclaration ht)
      (List.forall_mem_nil _) stop hstop _ hr f
  unfold statement
  split
  · rename_i htokens
    obtain rfl : tokens = [] := htokens
    exact ⟨Nat.zero_le 1, fun h => absurd rfl h.1, fun _ => rfl⟩
  · rename_i span rest htokens
    obtain rfl : tokens = _ :: rest := htokens
    split_ifs
    · refine ⟨Nat.zero_le 1, fun _ => ⟨_, rfl⟩, fun h => absurd ⟨?_, ?_, List.forall_mem_nil _⟩ h⟩
      · exact List.cons_ne_nil _ _
      · exact not_isBareDeclaration fun text => by simp
    · exact hkeep _ (fun text => by simp) (readExpression_regular _ _ _ _)
  · rename_i htokens
    refine s.isolates_declaration ?_ hstop
    rw [htokens]
    exact List.cons_ne_nil _ _
  · rename_i t rest hreturn hnumber htokens
    obtain rfl : tokens = t :: rest := htokens
    refine hkeep _ ?_ (readExpression_regular _ _ _ _)
    intro text ht
    obtain ⟨_, span⟩ := t
    subst ht
    exact hnumber text span rfl

end Scope
end Statements

section Blocks

/-- A clause of a body: a run of tokens without marks that end it, and its semicolon. -/
structure Clause.IsChunk (c : Clause) : Prop where
  stop : c.stop.kind = .mark .semicolon
  tokens : ∀ t ∈ c.tokens, ¬ t.kind.endsHead

/-- The tokens of a clause with those that end it. -/
def Clause.text (c : Clause) : List Token :=
  c.tokens ++ [c.stop]

theorem Block.split_append {finish : Token} {ts rest : List Token} {b : Block} {after : List Token} {stop : Token}
    (hts : ∀ t ∈ ts, ¬ t.kind.endsHead) (hstop : stop.kind = .mark .semicolon)
    (hrest : Block.split finish rest = (b, after)) :
    Block.split finish (ts ++ stop :: rest) = (⟨⟨ts, stop⟩ :: b.clauses, b.close⟩, after) := by
  induction ts with
  | nil => simp [Block.split, hstop, hrest]
  | cons t ts ih =>
    obtain ⟨ht, hts⟩ := List.forall_mem_cons.1 hts
    have hbrace : t.kind ≠ .mark .rbrace := by
      rintro h
      exact ht (by rw [h]; rfl)
    have hsemicolon : t.kind ≠ .mark .semicolon := by
      rintro h
      exact ht (by rw [h]; rfl)
    rw [List.cons_append, Block.split, if_neg hbrace, ih hts]
    simp only [if_neg hsemicolon]
    rfl

theorem Block.split_chunks (finish : Token) {chunks : List Clause} (hchunks : ∀ c ∈ chunks, c.IsChunk) {close : Token}
    (hclose : close.kind = .mark .rbrace) (rest : List Token) :
    Block.split finish (chunks.flatMap Clause.text ++ close :: rest) = (⟨chunks, close⟩, rest) := by
  induction chunks with
  | nil => simp [Block.split, hclose]
  | cons c chunks ih =>
    obtain ⟨hc, hchunks⟩ := List.forall_mem_cons.1 hchunks
    have htext : (c :: chunks).flatMap Clause.text ++ close :: rest =
        c.tokens ++ c.stop :: (chunks.flatMap Clause.text ++ close :: rest) := by
      simp [Clause.text]
    rw [htext]
    exact Block.split_append hc.tokens hc.stop (ih hchunks)

end Blocks

theorem Scope.readAll_append (cs cs' : List Clause) (s : Scope) : s.readAll (cs ++ cs') =
    (((s.readAll cs).1.readAll cs').1, (s.readAll cs).2 ++ ((s.readAll cs).1.readAll cs').2) := by
  induction cs generalizing s with
  | nil => rfl
  | cons c cs ih => simp [Scope.readAll, ih]

theorem readBody_statements (w : Word) (start : Scope) (block : Block) :
    (start.readAll block.clauses).2 <+: (readBody w start block).2.1 ∧
      ∀ b, (readBody w start block).2.2 = some b →
        b.statements = (start.readAll block.clauses).1.statements.toList := by
  unfold readBody
  simp only
  split_ifs
  · exact ⟨List.prefix_append _ _, fun b hb => nomatch hb⟩
  · split
    · exact ⟨List.prefix_append _ _, fun b hb => nomatch hb⟩
    · refine ⟨List.prefix_refl _, ?_⟩
      rintro b ⟨⟩
      rfl

/-- A body of chunks is split at its semicolons whatever the chunks contain. Each chunk is read where those
before it have left the scope, reports at most one problem that is no note, and adds a statement behind
the others exactly if it is not empty, is no declaration without initial value and has no problem but a
width of zero. -/
theorem statements_isolated (w : Word) (finish : Token) {chunks : List Clause} (hchunks : ∀ c ∈ chunks, c.IsChunk)
    {close : Token} (hclose : close.kind = .mark .rbrace) (rest : List Token) (start : Scope) :
    Block.split finish (chunks.flatMap Clause.text ++ close :: rest) = (⟨chunks, close⟩, rest) ∧
    (start.readAll chunks).2 <+: (readBody w start ⟨chunks, close⟩).2.1 ∧
    (∀ b, (readBody w start ⟨chunks, close⟩).2.2 = some b →
      b.statements = (start.readAll chunks).1.statements.toList) ∧
    ∀ before c after, chunks = before ++ c :: after →
      start.readAll (before ++ [c]) = (((start.readAll before).1.statement c).1,
        (start.readAll before).2 ++ ((start.readAll before).1.statement c).2) ∧
      (start.readAll before).1.Isolates c ((start.readAll before).1.statement c) := by
  obtain ⟨hfaults, hbody⟩ := readBody_statements w start ⟨chunks, close⟩
  refine ⟨Block.split_chunks finish hchunks hclose rest, hfaults, hbody, ?_⟩
  rintro before c after rfl
  have hc := hchunks c (by simp)
  refine ⟨?_, Scope.isolates_statement _ hc.stop⟩
  simp [Scope.readAll_append, Scope.readAll]

/-- `)` is at fault, and `f = 1` behind it is kept. -/
theorem statements_isolated_after_paren :
    let place := Span.origin
    let broken : Clause := ⟨[⟨.mark .rparen, place⟩], ⟨.mark .semicolon, place⟩⟩
    let good : Clause := ⟨[⟨.name "f", place⟩, ⟨.mark .assign, place⟩, ⟨.number "1", place⟩], ⟨.mark .semicolon, place⟩⟩
    let start : Scope := { vars := #[{ name := "f", width := 8, storage := .result }], result := 0, params := [] }
    (∀ c ∈ [broken, good], c.IsChunk) ∧ (start.readAll [broken]).2.length = 1 ∧
      (start.readAll [broken]).1.statements.size = 0 ∧
      ∃ st, ((start.readAll [broken]).1.statement good).1.statements =
        (start.readAll [broken]).1.statements.push st := by
  intro place broken good start
  have hchunks : ∀ c ∈ [broken, good], c.IsChunk :=
    List.forall_mem_cons.2 ⟨⟨rfl, by simp [broken, Kind.endsHead]⟩,
      List.forall_mem_cons.2 ⟨⟨rfl, by simp [good, Kind.endsHead]⟩, List.forall_mem_nil _⟩⟩
  have hclose : (⟨.mark .rbrace, place⟩ : Token).kind = .mark .rbrace := rfl
  obtain ⟨-, -, -, hchunk⟩ := statements_isolated .w32 (Token.finish 0) hchunks hclose [] start
  obtain ⟨-, hgood⟩ := hchunk [broken] good [] rfl
  refine ⟨hchunks, by decide, by decide, hgood.kept ⟨by simp [good], ?_, ?_⟩⟩
  · exact Scope.not_isBareDeclaration fun text => by simp
  · have hnone : ((start.readAll [broken]).1.statement good).2 = [] := by decide
    rw [hnone]
    exact List.forall_mem_nil _

end Bitpack
