import Mathlib
import Bitpack.Proofs.Formulas

/-! The statements of a body, read by a cursor. A statement that cannot be read is skipped up to its semicolon, so what
was taken behind every attempt at one is a clause of the body, and its problems are those of the clause. -/

namespace Bitpack

/-- The parser after a statement with these problems. -/
def Parser.update (p : Parser) (s : Scope) (ds : List Diagnostic) (poisoned : Bool) : Parser :=
  { p with scope := s, faults := p.faults ++ ds, poisoned }

theorem Parser.fresh_eq {p : Parser} (h : p.poisoned = false) : { p with poisoned := false } = p := by
  rw [← h]

theorem Parser.noting_report (p : Parser) (ds : List Diagnostic) (d : Diagnostic) :
    (p.noting ds).report d = p.update p.scope (ds ++ [d]) (p.poisoned || !ds.isEmpty) := by
  simp [Parser.noting, Parser.update]

namespace Walk

variable {n : ℕ} {p : Parser}

section Statements

variable {c : Clause} {after : List Token} {s s' : Scope} {ds ds' : List Diagnostic} {b : Bool}
  {o : Option Unit × Parser}

/-- What the cursor makes of a statement agrees with what is read from its clause. -/
inductive Concludes (p : Parser) (c : Clause) (after : List Token) :
    Scope × List Diagnostic → Option Unit × Parser → Prop
  | ok {s : Scope} {ds : List Diagnostic} (hstop : c.stop.kind = .mark .semicolon) :
      Concludes p c after (s, ds) (some (), (p.facing after).update s ds false)
  | error {s : Scope} {ds : List Diagnostic} {ts : List Token} (poisoned : Bool) (h : ts <:+ c.tokens) :
      Concludes p c after (s, ds) (none, (p.facing ((⟨ts, c.stop⟩ : Clause).text ++ after)).update s ds poisoned)

theorem run_keep {st : Statement} (h : p.next.kind = .mark .semicolon) : (keep st : Walk n _).run p =
    (some (), { p.advance with scope := if p.poisoned then p.scope else p.scope.push st, poisoned := false }) := by
  obtain ⟨hq, hrun⟩ := Result.val_andThen_some (run_mark (n := n) h)
  rw [run, keep, hrun]
  rfl

theorem run_keep_other {st : Statement} (h : p.next.kind ≠ .mark .semicolon) :
    (keep st : Walk n _).run p = (none, p.report (p.next.unexpected "';'")) := by
  rw [run, keep, Result.val_andThen_none (run_mark_other (n := n) h)]
  rfl

theorem Concludes.fault {ts : List Token} (notes : List Diagnostic) (d : Diagnostic) (h : ts <:+ c.tokens) :
    Concludes p c after (p.scope, notes ++ [d])
      (none, ((p.noting notes).facing ((⟨ts, c.stop⟩ : Clause).text ++ after)).report d) := by
  have hq := (p.facing ((⟨ts, c.stop⟩ : Clause).text ++ after)).noting_report notes d
  rw [show ((p.noting notes).facing _).report d = _ from hq]
  exact .error _ h

theorem Concludes.clean (hp : p.poisoned = false) (hstop : c.stop.kind = .mark .semicolon) (s : Scope) :
    Concludes p c after (s, []) (some (), { p.facing after with scope := s }) := by
  have hq : (p.facing after).update s [] false = { p.facing after with scope := s } := by
    simp [Parser.update, ← show (p.facing after).poisoned = false from hp]
  rw [← hq]
  exact .ok hstop

theorem Concludes.fail {ts : List Token} (d : Diagnostic) (h : ts <:+ c.tokens) :
    Concludes p c after (p.scope, [d]) (none, (p.facing ((⟨ts, c.stop⟩ : Clause).text ++ after)).report d) := by
  have : Concludes p c after _ (none, ((p.noting []).facing _).report d) := .fault [] d h
  rwa [Parser.noting_nil] at this

theorem keep_concludes (h : Ahead .body p.tokens c after) (hp : p.poisoned = false) {x : Walk n Expression}
    {r : Reading} {q : Parser} (hx : Yields Whole p c after r (x.run q)) (st : Expression → Statement) :
    Concludes p c after (p.scope.keep c.stop r st) ((x >>= fun e => keep (st e)).run q) := by
  generalize hrun : x.run q = o at hx
  cases hx with
  | @ok e ts r notes hts hr =>
    obtain ⟨rfl, rfl⟩ := hr
    have hend : Ahead .body (p.noting notes).tokens _ after := h.of_suffix hts
    rw [run_bind_some hrun]
    simp only [Scope.keep, Reading.noting, List.append_nil]
    by_cases hstop : c.stop.kind = .mark .semicolon
    · have hadvance : ((p.noting notes).facing ((⟨[], c.stop⟩ : Clause).text ++ after)).advance = _ :=
        Parser.advance_facing hend.suffix (by simp [hstop])
      have hpoisoned : ((p.noting notes).facing ((⟨[], c.stop⟩ : Clause).text ++ after)).poisoned = !notes.isEmpty := by
        simp [Parser.facing, Parser.noting, hp]
      rw [run_keep (hend.next ▸ hstop), hadvance, hpoisoned, if_pos hstop]
      cases notes <;> exact .ok hstop
    · rw [run_keep_other (hend.next ▸ hstop), hend.next, if_neg hstop]
      exact .fault notes _ hts
  | @error d ts notes hts =>
    rw [run_bind_none hrun]
    simp only [Scope.keep, Reading.noting, Reading.fail, List.append_nil]
    exact .fault notes d hts

theorem semicolon_concludes (h : Ahead .body p.tokens c after) (hp : p.poisoned = false) :
    Concludes p c after
      (match Read.stop [.mark .semicolon] "';'" c with
        | .ok _ => (p.scope, [])
        | .error d => (p.scope, [d]))
      ((mark .semicolon : Walk n _).run (p.facing (c.text ++ after))) := by
  obtain ⟨ts, stop⟩ := c
  by_cases hnext : (⟨ts, stop⟩ : Clause).next.kind = .mark .semicolon
  · obtain rfl : ts = [] := h.eq_nil (hnext ▸ rfl)
    rw [run_mark (h.next ▸ hnext), h.advance_stop (by rw [show stop.kind = _ from hnext]; nofun), Read.stop,
      if_pos (by simpa [Clause.next] using hnext)]
    exact .clean hp hnext p.scope
  · rw [run_mark_other (h.next ▸ hnext), h.next, Read.stop, if_neg]
    · exact .fail _ (List.suffix_refl ts)
    · intro hstop
      simp only [Bool.and_eq_true, List.isEmpty_iff] at hstop
      obtain ⟨rfl, hstop⟩ := hstop
      exact hnext (by simpa [Clause.next] using hstop)

section Declaration

variable {d : Declarator} {q : Parser}

theorem run_declaration_none (hd : (declarator : Walk n _).run p = (none, q)) :
    (declaration : Walk n _).run p = (none, q) := by
  rw [run, declaration, Result.val_andThen_none hd]

variable (hd : (declarator : Walk n _).run p = (some d, q))
include hd

theorem run_declaration_duplicate (hname : (q.scope.lookup d.name).isSome) :
    (declaration : Walk n _).run p = (none, q.report ⟨.duplicateDeclaration d.name, d.span⟩) := by
  obtain ⟨hq, hrun⟩ := Result.val_andThen_some hd
  rw [run, declaration, hrun, if_pos hname]
  rfl

variable (hname : ¬ (q.scope.lookup d.name).isSome)
include hname

theorem run_declaration_plain (hassign : q.next.kind ≠ .mark .assign) :
    (declaration : Walk n _).run p = (some none, q.declare d) := by
  obtain ⟨hq, hrun⟩ := Result.val_andThen_some hd
  rw [run, declaration, hrun, if_neg hname]
  simp only [if_neg hassign]
  rfl

theorem run_declaration_value (hassign : q.next.kind = .mark .assign) : (declaration >>= conclude : Walk n _).run p =
    (expression [q.scope.vars.size] d.span >>= fun e => keep (.eval e) : Walk n _).run (q.declare d).advance := by
  have hdeclaration : (declaration : Walk n _).run p = (expression [q.scope.vars.size] d.span >>= fun e =>
      pure (some (.eval e)) : Walk n _).run (q.declare d).advance := by
    obtain ⟨hq, hrun⟩ := Result.val_andThen_some hd
    rw [run, declaration, hrun, if_neg hname]
    simp only [if_pos hassign]
    rfl
  rcases hvalue : (expression [q.scope.vars.size] d.span : Walk n _).run (q.declare d).advance with ⟨_ | e, r⟩
  · rw [run_bind_none (hdeclaration.trans (run_bind_none hvalue)), run_bind_none hvalue]
  · rw [run_bind_some (hdeclaration.trans (run_bind_some hvalue)), run_bind_some hvalue]
    rfl

end Declaration

theorem Concludes.of_suffix {ts : List Token} {r : Scope × List Diagnostic}
    (h : Concludes p ⟨ts, c.stop⟩ after r o) (hts : ts <:+ c.tokens) : Concludes p c after r o := by
  cases h with
  | ok hstop => exact .ok hstop
  | error poisoned h => exact .error poisoned (h.trans hts)

theorem Concludes.of_update (h : Concludes (p.update s ds b) c after (s', ds') o) :
    Concludes p c after (s', ds ++ ds') o := by
  have hupdate : ∀ q : Parser, ∀ b', (q.update s ds b).update s' ds' b' = q.update s' (ds ++ ds') b' := by
    simp [Parser.update]
  cases h with
  | ok hstop =>
    rw [show ((p.update s ds b).facing after).update s' ds' false = _ from hupdate (p.facing after) false]
    exact .ok hstop
  | error poisoned hts =>
    rw [show ((p.update s ds b).facing _).update s' ds' poisoned = _ from hupdate (p.facing _) poisoned]
    exact .error poisoned hts

theorem declaration_concludes (h : Ahead .body p.tokens c after) (hp : p.poisoned = false) :
    Concludes p c after (p.scope.declaration c)
      ((declaration >>= conclude : Walk n _).run (p.facing (c.text ++ after))) := by
  have hagrees := declarator_reads (n := n) .body p c after h
  unfold Scope.declaration
  generalize Read.declarator c = r at hagrees ⊢
  generalize hd : declarator.run _ = o at hagrees
  cases hagrees with
  | error hts =>
    rw [run_bind_none (run_declaration_none hd)]
    exact .fail _ hts
  | @ok d ts hts =>
    dsimp only
    split_ifs with hname
    · rw [run_bind_none (run_declaration_duplicate hd hname)]
      exact .fail _ hts
    · have hrest : Ahead .body (p.declare d).tokens ⟨ts, c.stop⟩ after := h.of_suffix hts
      have hnext : (p.facing ((⟨ts, c.stop⟩ : Clause).text ++ after)).next = _ := hrest.next
      refine .of_suffix ?_ hts
      split
      · rename_i span rest
        rw [run_declaration_value hd hname (h.of_suffix hts).next_kind]
        have hvalue := keep_concludes hrest.tail hp
          (expression_yields (n := n) [p.scope.vars.size] d.span hrest.tail) .eval
        rw [← hrest.advance] at hvalue
        exact .of_update (.of_suffix hvalue (List.suffix_cons _ rest))
      · rename_i hassign
        have hplain : (p.facing ((⟨ts, c.stop⟩ : Clause).text ++ after)).next.kind ≠ .mark .assign := by
          rw [hnext]
          intro hk
          obtain ⟨span, rest, _, heq⟩ := hrest.eq_cons hk rfl
          exact hassign span rest (congrArg Clause.tokens heq)
        rw [run_bind_some (run_declaration_plain hd hname hplain)]
        have hend := semicolon_concludes (n := n) hrest hp
        cases hstop : Read.stop [.mark .semicolon] "';'" ⟨ts, c.stop⟩ with
        | ok y =>
          rw [hstop] at hend
          have := Concludes.of_update (p := p) (b := p.poisoned) hend
          rwa [List.append_nil] at this
        | error e =>
          rw [hstop] at hend
          exact .of_update hend

section Equations

theorem run_statement_empty (h : p.next.kind = .mark .semicolon) :
    (statement : Walk n _).run p = (some (), ({ p with poisoned := false } : Parser).advance) := by
  rw [run, statement]
  simp only [h]
  rfl

theorem run_statement_return (h : p.next.kind = .keyword .returns) (hend : p.advance.next.kind = .mark .semicolon) :
    (statement : Walk n _).run p = (push (.ret none) : Walk n _).run
      ({ p with poisoned := false } : Parser).advance.advance := by
  rw [run, statement]
  simp only [h]
  rw [Result.val_since, if_pos (by exact hend)]
  rfl

theorem run_statement_value (h : p.next.kind = .keyword .returns) (hend : p.advance.next.kind ≠ .mark .semicolon) :
    (statement : Walk n _).run p = (expression [p.scope.result] p.next.span >>= fun e => keep (.ret (some e)) :
      Walk n _).run ({ p with poisoned := false } : Parser).advance := by
  rw [run, statement]
  simp only [h]
  rw [Result.val_since, if_neg (by exact hend)]
  rfl

theorem run_statement_declaration {text : String} (h : p.next.kind = .number text) :
    (statement : Walk n _).run p = (declaration >>= conclude : Walk n _).run { p with poisoned := false } := by
  rw [run, statement]
  simp only [h]
  rfl

theorem run_statement_expression (hempty : p.next.kind ≠ .mark .semicolon) (hreturn : p.next.kind ≠ .keyword .returns)
    (hnumber : ∀ text, p.next.kind ≠ .number text) : (statement : Walk n _).run p =
      (expression [] p.next.span >>= fun e => keep (.eval e) : Walk n _).run { p with poisoned := false } := by
  rw [run, statement]
  dsimp only
  split
  · rename_i h
    exact absurd h hempty
  · rename_i h
    exact absurd h hreturn
  · rename_i h
    exact absurd h (hnumber _)
  · rfl

end Equations

/-- What an earlier statement left of an undeclared name does not matter. -/
theorem Concludes.of_fresh {r : Scope × List Diagnostic} (h : Concludes { p with poisoned := false } c after r o) :
    Concludes p c after r o := by
  cases h with
  | ok hstop => exact .ok hstop
  | error poisoned hts => exact .error poisoned hts

theorem return_concludes {span : Span} {ts : List Token} {stop : Token} (hp : p.poisoned = false)
    (h : Ahead .body p.tokens ⟨⟨.keyword .returns, span⟩ :: ts, stop⟩ after) :
    Concludes p ⟨⟨.keyword .returns, span⟩ :: ts, stop⟩ after
      (p.scope.statement ⟨⟨.keyword .returns, span⟩ :: ts, stop⟩)
      ((statement : Walk n _).run (p.facing ((⟨⟨.keyword .returns, span⟩ :: ts, stop⟩ : Clause).text ++ after))) := by
  refine .of_suffix ?_ (List.suffix_cons _ ts)
  have hfresh := Parser.fresh_eq (p := p.facing ((⟨⟨.keyword .returns, span⟩ :: ts, stop⟩ : Clause).text ++ after)) hp
  have hend := h.tail.next_kind_iff (k := .mark .semicolon) rfl
  rw [← h.advance] at hend
  unfold Scope.statement
  dsimp only
  split_ifs with hempty
  · obtain ⟨rfl, hstop⟩ : ts = [] ∧ stop.kind = .mark .semicolon := by simpa using hempty
    rw [run_statement_return h.next_kind (hend.2 ⟨rfl, hstop⟩), hfresh, h.advance,
      h.tail.advance_stop (by rw [hstop]; nofun)]
    exact .clean hp hstop _
  · rw [run_statement_value h.next_kind (fun hk => hempty (by simpa using hend.1 hk)), h.next, hfresh, h.advance]
    exact keep_concludes h.tail hp (expression_yields (n := n) [p.scope.result] span h.tail) fun e => .ret (some e)

theorem statement_concludes (h : Ahead .body p.tokens c after) (hc : c.tokens = [] → c.stop.kind = .mark .semicolon) :
    Concludes p c after (p.scope.statement c) ((statement : Walk n _).run (p.facing (c.text ++ after))) := by
  have hq : Ahead .body ({ p with poisoned := false } : Parser).tokens c after := h
  refine .of_fresh ?_
  rcases c with ⟨_ | ⟨⟨k, span⟩, ts⟩, stop⟩
  · rw [run_statement_empty (h.next ▸ hc rfl)]
    change Concludes _ _ _ (p.scope, []) (_, (Parser.facing { p with poisoned := false } _).advance)
    rw [hq.advance_stop (by rw [hc rfl]; nofun)]
    exact .clean rfl (hc rfl) p.scope
  · by_cases hreturn : k = .keyword .returns
    · subst hreturn
      exact return_concludes rfl hq
    by_cases hnumber : ∃ text, k = .number text
    · obtain ⟨text, rfl⟩ := hnumber
      rw [run_statement_declaration h.next_kind]
      exact declaration_concludes hq rfl
    · have hempty : k ≠ .mark .semicolon := by
        rintro rfl
        cases h.tokens _ List.mem_cons_self
      rw [run_statement_expression (by rwa [h.next_kind]) (by rwa [h.next_kind])
        (by rw [h.next_kind]; exact not_exists.1 hnumber), h.next]
      have hstatement : p.scope.statement ⟨⟨k, span⟩ :: ts, stop⟩ =
          p.scope.keep stop (readExpression p.scope.lookup [] span ⟨⟨k, span⟩ :: ts, stop⟩) .eval := by
        unfold Scope.statement
        split <;> rename_i heq <;> cases heq
        · exact absurd rfl hreturn
        · exact absurd ⟨_, rfl⟩ hnumber
        · rfl
      rw [hstatement]
      exact keep_concludes hq rfl (expression_yields [] span hq) .eval

end Statements
end Walk

section Bodies

/-- There is no statement left in a body. -/
def Block.isOver : List Token → Bool
  | [] => true
  | t :: _ => t.kind = .mark .rbrace

/-- The statement that tokens begin with, and what is left behind it: its semicolon is taken with it, a closing brace is
left. -/
def Clause.first (finish : Token) : List Token → Clause × List Token
  | [] => (⟨[], finish⟩, [])
  | t :: ts =>
    if t.kind = .mark .semicolon then (⟨[], t⟩, ts)
    else if t.kind = .mark .rbrace then (⟨[], t⟩, t :: ts)
    else
      let (c, rest) := first finish ts
      (⟨t :: c.tokens, c.stop⟩, rest)

theorem Clause.first_suffix (finish : Token) (ts : List Token) : (first finish ts).2 <:+ ts := by
  induction ts with
  | nil => exact List.suffix_refl _
  | cons t ts ih =>
    rw [first]
    split_ifs
    · exact List.suffix_cons t ts
    · exact List.suffix_refl _
    · exact ih.trans (List.suffix_cons t ts)

theorem Clause.first_over {finish : Token} {ts : List Token} (h : Block.isOver ts = true) :
    first finish ts = (⟨[], ts.headD finish⟩, ts) := by
  cases ts with
  | nil => rfl
  | cons t ts =>
    have hbrace : t.kind = .mark .rbrace := by simpa [Block.isOver] using h
    simp [first, hbrace]

theorem Clause.length_first_lt (finish : Token) {ts : List Token} (h : Block.isOver ts = false) :
    (first finish ts).2.length < ts.length := by
  cases ts with
  | nil => cases h
  | cons t ts =>
    rw [first]
    split_ifs with hsemicolon hbrace
    · exact Nat.lt_succ_self _
    · simp [Block.isOver, hbrace] at h
    · exact Nat.lt_succ_of_le (first_suffix finish ts).length_le

theorem Clause.first_stop {finish : Token} {ts : List Token} (h : Block.isOver ts = false)
    (hnil : (first finish ts).1.tokens = []) : (first finish ts).1.stop.kind = .mark .semicolon := by
  cases ts with
  | nil => cases h
  | cons t ts =>
    rw [first] at hnil ⊢
    split_ifs at hnil ⊢ with hsemicolon hbrace
    · exact hsemicolon
    · simp [Block.isOver, hbrace] at h

theorem Block.split_over (finish : Token) {ts : List Token} (h : Block.isOver ts = true) :
    Block.split finish ts = (⟨[], ts.headD finish⟩, ts.tail) := by
  cases ts with
  | nil => rfl
  | cons t ts =>
    have hbrace : t.kind = .mark .rbrace := by simpa [Block.isOver] using h
    rw [Block.split, if_pos hbrace]
    rfl

/-- A body begins with its first statement, and the others follow. -/
theorem Block.split_first (finish : Token) {ts : List Token} (h : Block.isOver ts = false) :
    Block.split finish ts =
      (⟨(Clause.first finish ts).1 :: (Block.split finish (Clause.first finish ts).2).1.clauses,
        (Block.split finish (Clause.first finish ts).2).1.close⟩,
        (Block.split finish (Clause.first finish ts).2).2) := by
  induction ts with
  | nil => cases h
  | cons t ts ih =>
    have hbrace : t.kind ≠ .mark .rbrace := by simpa [Block.isOver] using h
    rw [Block.split, if_neg hbrace, Clause.first]
    by_cases hsemicolon : t.kind = .mark .semicolon
    · simp only [if_pos hsemicolon]
    · simp only [if_neg hsemicolon, if_neg hbrace]
      cases hover : Block.isOver ts with
      | true =>
        rw [Clause.first_over hover, Block.split_over finish hover]
        rfl
      | false =>
        rw [ih hover]
        rfl

theorem Kind.endsStatement_iff {k : Kind} :
    k.endsStatement = true ↔ k = .mark .semicolon ∨ k = .mark .rbrace ∨ k = .finish := by
  constructor
  · intro h
    unfold Kind.endsStatement at h
    split at h <;> simp_all
  · rintro (rfl | rfl | rfl) <;> rfl

/-- Where the cursor is to go on behind a clause of a body: its semicolon is taken with it, a brace is left. -/
def Clause.behind (c : Clause) (after : List Token) : List Token :=
  if c.stop.kind = .mark .semicolon then after else c.stop :: after

/-- Tokens in front of the end of a text. -/
structure Faces (finish : Token) (tokens : Array Token) (pos : ℕ) (ts : List Token) : Prop where
  suffix : ts ++ [finish] <:+ tokens.toList
  pos : pos + (ts.length + 1) = tokens.size
  inner : ∀ t ∈ ts, t.kind ≠ .finish
  last : finish.kind = .finish

/-- The cursor is in front of these tokens, and the end of the text behind them. -/
abbrev Parser.Faces (p : Parser) (finish : Token) (ts : List Token) : Prop :=
  Bitpack.Faces finish p.tokens p.pos ts

theorem Clause.exists_after {finish : Token} (hfinish : finish.kind = .finish) {ts : List Token}
    (h : ∀ t ∈ ts, t.kind ≠ .finish) : ∃ after, (first finish ts).1.text ++ after = ts ++ [finish] ∧
      (first finish ts).1.behind after = (first finish ts).2 ++ [finish] ∧
      (∀ t ∈ (first finish ts).1.tokens, t.kind.endsStatement = false) ∧
      (first finish ts).1.stop.kind.endsStatement = true := by
  induction ts with
  | nil => exact ⟨[], rfl, by simp [first, behind, hfinish], nofun, by rw [first, hfinish]; rfl⟩
  | cons t ts ih =>
    obtain ⟨hne, hts⟩ := List.forall_mem_cons.1 h
    rw [first]
    split_ifs with hsemicolon hbrace
    · exact ⟨ts ++ [finish], rfl, by simp [behind, hsemicolon], nofun, by rw [hsemicolon]; rfl⟩
    · exact ⟨ts ++ [finish], rfl, by simp [behind, hbrace], nofun, by rw [hbrace]; rfl⟩
    · obtain ⟨after, htext, hbehind, htokens, hstop⟩ := ih hts
      have hends : t.kind.endsStatement = false := by
        simp [Bool.eq_false_iff, Kind.endsStatement_iff, hsemicolon, hbrace, hne]
      exact ⟨after, congrArg (t :: ·) htext, hbehind, List.forall_mem_cons.2 ⟨hends, htokens⟩, hstop⟩

namespace Faces

variable {finish : Token} {p : Parser} {ts rest : List Token}

theorem facing (h : p.Faces finish ts) : p.facing (ts ++ [finish]) = p := by
  have hpos : p.tokens.size - (ts ++ [finish]).length = p.pos := by
    rw [← h.pos, List.length_append, List.length_singleton, Nat.add_sub_cancel]
  rw [Parser.facing, hpos]

theorem of_suffix (h : p.Faces finish ts) (hrest : rest <:+ ts) : (p.facing (rest ++ [finish])).Faces finish rest where
  suffix := by
    obtain ⟨front, rfl⟩ := hrest
    exact (List.append_assoc front rest [finish] ▸ List.suffix_append front _).trans h.suffix
  pos := by
    have hpos := h.pos
    have hle := hrest.length_le
    simp only [Parser.facing, List.length_append, List.length_singleton]
    omega
  inner t ht := h.inner t (hrest.subset ht)
  last := h.last

theorem next (h : p.Faces finish ts) : p.next = ts.headD finish := by
  rw [← h.facing]
  cases ts with
  | nil => exact p.next_facing h.suffix
  | cons t ts => exact p.next_facing h.suffix

theorem advance_eq {t : Token} (h : p.Faces finish (t :: ts)) : p.advance = p.facing (ts ++ [finish]) := by
  have hadvance : (p.facing (t :: ts ++ [finish])).advance = p.facing (ts ++ [finish]) :=
    p.advance_facing h.suffix (h.inner t List.mem_cons_self)
  rwa [h.facing] at hadvance

theorem advance {t : Token} (h : p.Faces finish (t :: ts)) : p.advance.Faces finish ts :=
  h.advance_eq ▸ h.of_suffix (List.suffix_cons t ts)

theorem before_iff (h : p.Faces finish ts) : p.before [.mark .rbrace] = !Block.isOver ts := by
  rw [Cursor.before, h.next]
  cases ts with
  | nil => simp [Block.isOver, h.last]
  | cons t ts => simp [Block.isOver, h.inner t List.mem_cons_self]

end Faces

namespace Walk

variable {n : ℕ} {p : Parser} {c : Clause} {after : List Token}

section Skip

variable {conts stops : List Kind}

theorem run_skip_over (h : ¬ p.before stops) : (skip conts stops : Walk n _).run p = (none, p) := by
  rw [run, skip, dif_neg h]
  rfl

theorem run_skip_token (h : p.before stops) (hcont : p.next.kind ∉ conts) :
    (skip conts stops : Walk n _).run p = (skip conts stops : Walk n _).run p.advance := by
  rw [run, skip, dif_pos h, Result.val_since, if_neg hcont]
  rfl

theorem run_skip_last (h : p.before stops) (hcont : p.next.kind ∈ conts) :
    ((skip conts stops : Walk n _).run p).2 = p.advance := by
  rw [run, skip, dif_pos h, Result.val_since, if_pos hcont]
  split_ifs <;> rfl

end Skip

/-- From wherever in a clause, its rest is skipped. -/
theorem run_skip {ts : List Token} {stop : Token} (h : Ahead .body p.tokens ⟨ts, stop⟩ after) :
    ((skip [.mark .semicolon] [.mark .rbrace] : Walk n _).run (p.facing ((⟨ts, stop⟩ : Clause).text ++ after))).2 =
      p.facing ((⟨ts, stop⟩ : Clause).behind after) := by
  induction ts with
  | nil =>
    by_cases hstop : stop.kind = .mark .semicolon
    · have hadvance := h.advance_stop (by rw [hstop]; nofun)
      have hnext : (p.facing ((⟨[], stop⟩ : Clause).text ++ after)).next = stop := h.next
      rw [run_skip_last (by simp [Cursor.before, hnext, hstop]) (by simp [hnext, hstop]), hadvance]
      simp [Clause.behind, hstop]
    · have hover : stop.kind = .mark .rbrace ∨ stop.kind = .finish :=
        (Kind.endsStatement_iff.1 h.stop).resolve_left hstop
      have hnext : (p.facing ((⟨[], stop⟩ : Clause).text ++ after)).next = stop := h.next
      rw [run_skip_over (by rcases hover with hover | hover <;> simp [Cursor.before, hnext, hover])]
      simp [Clause.behind, hstop, Clause.text]
  | cons t ts ih =>
    have hends : t.kind.endsStatement = false := h.tokens t List.mem_cons_self
    have hnext : (p.facing ((⟨t :: ts, stop⟩ : Clause).text ++ after)).next = t := h.next
    simp only [Bool.eq_false_iff, ne_eq, Kind.endsStatement_iff, not_or] at hends
    rw [run_skip_token (by simp [Cursor.before, hnext, hends.2]) (by simp [hnext, hends.1]), h.advance]
    exact ih h.tail

/-- One attempt takes one clause, whether or not a statement can be read there. -/
theorem attempt_takes (h : Ahead .body p.tokens c after) (hc : c.tokens = [] → c.stop.kind = .mark .semicolon) :
    ∃ poisoned, (attempt [.mark .semicolon] [.mark .rbrace] (statement : Walk n _) (p.facing (c.text ++ after))).1.2 =
      (p.facing (c.behind after)).update (p.scope.statement c).1 (p.scope.statement c).2 poisoned := by
  have hstatement := statement_concludes (n := n) h hc
  generalize p.scope.statement c = r at hstatement ⊢
  rw [attempt]
  split
  · rename_i a q hread
    rw [hread] at hstatement
    cases hstatement with
    | ok hstop =>
      rw [Clause.behind, if_pos hstop]
      exact ⟨false, rfl⟩
  · rename_i q hread
    rw [hread] at hstatement
    cases hstatement with
    | @error s ds ts poisoned hts =>
      have hrest : Ahead .body (p.update s ds poisoned).tokens ⟨ts, c.stop⟩ after := h.of_suffix hts
      exact ⟨poisoned, run_skip hrest⟩

/-- From `p`, which is in front of `ts`, the cursor took statements of a body and got to `q`, which is in front of
`rest`. -/
structure Took (finish : Token) (p : Parser) (ts : List Token) (cs : List Clause) (q : Parser) (rest : List Token) :
    Prop where
  faces : q.Faces finish rest
  split : Block.split finish ts =
    (⟨cs ++ (Block.split finish rest).1.clauses, (Block.split finish rest).1.close⟩, (Block.split finish rest).2)
  scope : q.scope = (p.scope.readAll cs).1
  faults : q.faults = p.faults ++ (p.scope.readAll cs).2
  unit : q.unit = p.unit
  fatal : q.fatal = p.fatal
  attempts : q.count .attempts = p.count .attempts + cs.length

namespace Took

variable {finish : Token} {q r : Parser} {ts ts' rest : List Token} {cs cs' : List Clause}

theorem refl (h : p.Faces finish ts) : Took finish p ts [] p ts where
  faces := h
  split := rfl
  scope := rfl
  faults := (List.append_nil _).symm
  unit := rfl
  fatal := rfl
  attempts := rfl

theorem trans (h : Took finish p ts cs q ts') (h' : Took finish q ts' cs' r rest) :
    Took finish p ts (cs ++ cs') r rest where
  faces := h'.faces
  split := by rw [h.split, h'.split, List.append_assoc]
  scope := by rw [h'.scope, h.scope, Scope.readAll_append]
  faults := by rw [h'.faults, h.faults, h.scope, Scope.readAll_append, List.append_assoc]
  unit := h'.unit.trans h.unit
  fatal := h'.fatal.trans h.fatal
  attempts := by rw [h'.attempts, h.attempts, List.length_append, Nat.add_assoc]

theorem record (h : Took finish p ts cs q rest) (start : ℕ) :
    Took finish p ts cs (q.record .statements start) rest where
  faces := h.faces
  split := h.split
  scope := h.scope
  faults := h.faults
  unit := h.unit
  fatal := h.fatal
  attempts := (Cursor.count_record_ne _ (by decide) start).trans h.attempts

end Took

theorem attempt_took {finish : Token} {ts : List Token} (h : p.Faces finish ts) (hover : Block.isOver ts = false) :
    ∃ rest, rest.length < ts.length ∧ Took finish p ts [(Clause.first finish ts).1]
      ((attempt [.mark .semicolon] [.mark .rbrace] (statement : Walk n _) p).1.2.record .attempts p.pos) rest := by
  obtain ⟨after, htext, hbehind, htokens, hstop⟩ := Clause.exists_after h.last h.inner
  have hahead : Ahead .body p.tokens (Clause.first finish ts).1 after := ⟨htext ▸ h.suffix, htokens, hstop⟩
  obtain ⟨poisoned, hq⟩ := attempt_takes (n := n) hahead (Clause.first_stop hover)
  rw [htext, h.facing, hbehind] at hq
  refine ⟨(Clause.first finish ts).2, Clause.length_first_lt finish hover, ?_⟩
  rw [hq]
  exact {
    faces := h.of_suffix (Clause.first_suffix finish ts)
    split := Block.split_first finish hover
    scope := rfl
    faults := by simp [Scope.readAll, Parser.update, Parser.facing]
    unit := rfl
    fatal := rfl
    attempts := Cursor.count_record_self _ _ _ }

/-- Attempts are made until one succeeds or the body is over; together they take the clauses in between. -/
theorem synchronize_took {finish : Token} {ts : List Token} (h : p.Faces finish ts) (hp : p.before [.mark .rbrace]) :
    ∃ cs rest, rest.length < ts.length ∧ Took finish p ts cs
      (synchronize [.mark .semicolon] [.mark .rbrace] statement statement_takes p hp).1.2 rest := by
  induction hlen : ts.length using Nat.strong_induction_on generalizing ts p with
  | _ len ih =>
  have hover : Block.isOver ts = false := by simpa using h.before_iff.symm.trans hp
  obtain ⟨rest, hlt, htook⟩ := attempt_took (n := 0) h hover
  rw [synchronize]
  dsimp only
  rw [Result.val_since]
  split
  · exact ⟨_, rest, hlen ▸ hlt, htook⟩
  · rename_i hretry
    obtain ⟨cs, rest', hlt', htook'⟩ := ih rest.length (hlen ▸ hlt) htook.faces (before_of_attempt hretry) rfl
    exact ⟨_, rest', hlen ▸ hlt'.trans hlt, htook.trans htook'⟩
  · exact ⟨_, rest, hlen ▸ hlt, htook⟩

/-- The statements up to the end of a body are its clauses. -/
theorem statements_took {finish : Token} {ts : List Token} (h : p.Faces finish ts) :
    (statements.run p).1 = some () ∧
      ∃ cs rest, Took finish p ts cs (statements.run p).2 rest ∧ Block.isOver rest = true := by
  induction hlen : ts.length using Nat.strong_induction_on generalizing ts p with
  | _ len ih =>
  rw [run, statements]
  by_cases hp : p.before [.mark .rbrace]
  · rw [dif_pos hp]
    obtain ⟨cs, rest, hlt, htook⟩ := synchronize_took h hp
    have htook := htook.record p.pos
    obtain ⟨hsome, cs', rest', htook', hover⟩ := ih rest.length (hlen ▸ hlt) htook.faces rfl
    exact ⟨hsome, _, rest', htook.trans htook', hover⟩
  · rw [dif_neg hp]
    exact ⟨rfl, [], ts, .refl h, by simpa using h.before_iff.symm.trans (Bool.eq_false_iff.2 hp)⟩

end Walk
end Bodies
end Bitpack
