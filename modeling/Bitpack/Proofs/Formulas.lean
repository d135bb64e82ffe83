import Mathlib
import Bitpack.Proofs.Walks

/-! Expressions, read by a cursor. Where the reader of a clause keeps the calls that are open on a stack,
the one that moves a cursor calls itself for each argument, and comes back where the other takes up the call again. -/

namespace Bitpack

/-- The parser after these undeclared names too. -/
def Parser.noting (p : Parser) (ds : List Diagnostic) : Parser :=
  { p with faults := p.faults ++ ds, poisoned := p.poisoned || !ds.isEmpty }

@[simp] theorem Parser.noting_nil (p : Parser) : p.noting [] = p := by
  simp [Parser.noting]

theorem Parser.noting_noting (p : Parser) (ds ds' : List Diagnostic) :
    (p.noting ds).noting ds' = p.noting (ds ++ ds') := by
  cases ds <;> simp [Parser.noting]

theorem Parser.noting_singleton (p : Parser) (d : Diagnostic) : p.noting [d] = p.poison d := by
  simp [Parser.noting]

theorem Kind.binary?_of_isForeign {k : Kind} (h : k.isForeign = true) : k.binary? = none := by
  cases k with
  | keyword k => cases k <;> first | rfl | cases h
  | mark m => cases m <;> first | rfl | cases h
  | _ => rfl

namespace Walk

variable {n : ℕ} {p : Parser}

section Equations

variable {ends : List Kind} {f : Frame} {t : Token} (ht : p.next = t)
include ht

theorem run_formula_end (h : t.kind.endsStatement ∨ f.depth = 0 ∧ t.kind ∈ ends) :
    (formula ends f : Walk n _).run p =
      if !f.last.allows .finish then (none, p.report (illegal f.last t))
      else if f.depth > 0 then (none, p.report ⟨.unbalancedParen, t.span⟩)
      else (some f.expression, p) := by
  subst ht
  rw [run, formula, dif_pos h]
  split_ifs <;> rfl

variable (hend : ¬ (t.kind.endsStatement ∨ f.depth = 0 ∧ t.kind ∈ ends))
include hend

theorem run_formula_opening (hk : t.kind = .mark .lparen) : (formula ends f : Walk n _).run p =
    if !f.last.allows .opening then (none, p.report (illegal f.last t))
    else (formula ends { f.push .opening .opening t.span with depth := f.depth + 1 } : Walk n _).run p.advance := by
  subst ht
  rw [run, formula, dif_neg hend]
  simp only [hk]
  split_ifs <;> rfl

theorem run_formula_closing (hk : t.kind = .mark .rparen) : (formula ends f : Walk n _).run p =
    if !f.last.allows .closing then (none, p.report (illegal f.last t))
    else if f.depth = 0 then (none, p.report ⟨.unbalancedParen, t.span⟩)
    else (formula ends { f.push .closing .closing t.span with depth := f.depth - 1 } : Walk n _).run p.advance := by
  subst ht
  rw [run, formula, dif_neg hend]
  simp only [hk]
  split_ifs <;> rfl

theorem run_formula_complement (hk : t.kind = .mark .tilde) : (formula ends f : Walk n _).run p =
    if !f.last.allows .complement then (none, p.report (illegal f.last t))
    else (formula ends (f.push .complement (.operator .not) t.span) : Walk n _).run p.advance := by
  subst ht
  rw [run, formula, dif_neg hend]
  simp only [hk]
  split_ifs <;> rfl

theorem run_formula_assign (hk : t.kind = .mark .assign) : (formula ends f : Walk n _).run p =
    (none, p.report ⟨.invalidAssignmentTarget, t.span⟩) := by
  subst ht
  rw [run, formula, dif_neg hend]
  simp only [hk]
  rfl

theorem run_formula_number {text : String} (hk : t.kind = .number text) : (formula ends f : Walk n _).run p =
    if !f.last.allows .operand then (none, p.report (illegal f.last t))
    else match Text.ofDecimal? (UInt64.size / 2) text.toList with
      | some m => (formula ends (f.push .operand (.number m) t.span) : Walk n _).run p.advance
      | none => (none, p.advance.report ⟨.badNumber text, t.span⟩) := by
  subst ht
  rw [run, formula, dif_neg hend]
  simp only [hk]
  split_ifs
  · rfl
  · cases Text.ofDecimal? (UInt64.size / 2) text.toList <;> rfl

theorem run_formula_binary {op : Operator} (hk : t.kind.binary? = some op) : (formula ends f : Walk n _).run p =
    if !f.last.allows .binary then (none, p.report (illegal f.last t))
    else (formula ends (f.push .binary (.operator op) t.span) : Walk n _).run p.advance := by
  subst ht
  rw [run, formula, dif_neg hend]
  unfold Kind.binary? at hk
  split at hk <;> cases hk <;> rename_i hkind <;> simp only [hkind, Kind.binary?] <;> split_ifs <;> rfl

theorem run_formula_foreign (hk : t.kind.isForeign = true) : (formula ends f : Walk n _).run p =
    (none, p.report (t.unexpected "expression")) := by
  subst ht
  rw [run, formula, dif_neg hend]
  dsimp only
  split
  case h_7 =>
    rw [Kind.binary?_of_isForeign hk]
    rfl
  all_goals
    rename_i hkind
    rw [hkind] at hk
    cases hk

theorem run_formula_comma (hk : t.kind = .mark .comma) : (formula ends f : Walk n _).run p =
    (none, p.report (t.unexpected "expression")) := by
  subst ht
  rw [run, formula, dif_neg hend]
  simp only [hk, Kind.binary?]
  rfl

theorem run_formula_name {text : String} (hk : t.kind = .name text) : (formula ends f : Walk n _).run p =
    if !f.last.allows .operand then (none, p.report (illegal f.last t))
    else (operand text t.span >>= fun x => formula ends (f.push .operand x.1 x.2) : Walk n _).run p.advance := by
  subst ht
  rw [run, formula, dif_neg hend]
  simp only [hk]
  split_ifs <;> rfl

end Equations

section Operand

variable {text : String} {start : Span} {q : Parser}

theorem run_operand_none (hl : p.next.kind = .mark .lparen) (hr : p.advance.next.kind ≠ .mark .rparen)
    (hargs : (arguments : Walk n _).run p.advance = (none, q)) : (operand text start : Walk n _).run p = (none, q) := by
  rw [run, operand, dif_pos hl]
  simp only [if_neg hr]
  rw [Result.val_since, Result.val_andThen_none hargs]

theorem run_operand_some {args : List Expression} (hl : p.next.kind = .mark .lparen)
    (hargs : (if p.advance.next.kind = .mark .rparen then pure [] else arguments : Walk n _).run p.advance =
      (some args, q)) :
    (operand text start : Walk n _).run p =
      Prod.map (Option.map fun _ => (.call text args (start.join q.next.span), start.join q.next.span)) id
        ((mark .rparen : Walk n _).run q) := by
  have hinside : (if p.advance.next.kind = .mark .rparen then Result.ok p.advance [] else arguments p.advance :
      Result n _ _).1 = (some args, q) := by
    split_ifs at hargs ⊢ <;> exact hargs
  obtain ⟨hq, hrun⟩ := Result.val_andThen_some hinside
  rw [run, operand, dif_pos hl, Result.val_since, hrun]
  rfl

theorem run_operand_var (hl : p.next.kind ≠ .mark .lparen) : (operand text start : Walk n _).run p =
    match p.scope.lookup text with
      | some id => (some (.var id, start), p)
      | none => (some (.number 0, start), p.poison ⟨.undeclared text, start⟩) := by
  rw [run, operand, dif_neg hl]
  cases p.scope.lookup text <;> rfl

end Operand

section Arguments

variable {q : Parser} {e : Expression}

theorem run_arguments_none (h : (formula [.mark .comma, .mark .rparen] {} : Walk n _).run p = (none, q)) :
    (arguments : Walk n _).run p = (none, q) := by
  rw [run, arguments, Result.val_andThen_none h]

theorem run_arguments_comma (h : (formula [.mark .comma, .mark .rparen] {} : Walk n _).run p = (some e, q))
    (hcomma : q.next.kind = .mark .comma) : (arguments : Walk n _).run p =
      Prod.map (Option.map (e :: ·)) id ((arguments : Walk n _).run q.advance) := by
  obtain ⟨hq, hrun⟩ := Result.val_andThen_some h
  rw [run, arguments, hrun, dif_pos hcomma]
  rfl

theorem run_arguments_last (h : (formula [.mark .comma, .mark .rparen] {} : Walk n _).run p = (some e, q))
    (hcomma : q.next.kind ≠ .mark .comma) : (arguments : Walk n _).run p = (some [e], q) := by
  obtain ⟨hq, hrun⟩ := Result.val_andThen_some h
  rw [run, arguments, hrun, dif_neg hcomma]
  rfl

end Arguments

section Agreement

variable {α β : Type} {S : α → List Token → Reading → Prop} {T : β → List Token → Reading → Prop}
  {c : Clause} {after ts : List Token} {r : Reading} {o : Option α × Parser} {d : Diagnostic}

/-- What the cursor finds agrees with the reading of the clause, if that goes on as `S` says from where the cursor is
then. -/
inductive Yields (S : α → List Token → Reading → Prop) (p : Parser) (c : Clause) (after : List Token) :
    Reading → Option α × Parser → Prop
  | ok {a : α} {ts : List Token} {r : Reading} (notes : List Diagnostic) (h : ts <:+ c.tokens) (hr : S a ts r) :
      Yields S p c after (r.noting notes)
        (some a, (p.noting notes).facing ((⟨ts, c.stop⟩ : Clause).text ++ after))
  | error {d : Diagnostic} {ts : List Token} (notes : List Diagnostic) (h : ts <:+ c.tokens) :
      Yields S p c after ((Reading.fail d).noting notes)
        (none, ((p.noting notes).facing ((⟨ts, c.stop⟩ : Clause).text ++ after)).report d)

namespace Yields

theorem of_suffix (h : Yields S p ⟨ts, c.stop⟩ after r o) (hts : ts <:+ c.tokens) : Yields S p c after r o := by
  cases h with
  | ok notes h hr => exact .ok notes (h.trans hts) hr
  | error notes h => exact .error notes (h.trans hts)

theorem of_tail {t stop : Token} (h : Yields S p ⟨ts, stop⟩ after r o) : Yields S p ⟨t :: ts, stop⟩ after r o :=
  h.of_suffix (List.suffix_cons t ts)

theorem noting {ds : List Diagnostic} (h : Yields S (p.noting ds) c after r o) :
    Yields S p c after (r.noting ds) o := by
  cases h with
  | ok notes h hr =>
    rw [Reading.noting_noting, Parser.noting_noting]
    exact .ok _ h hr
  | error notes h =>
    rw [Reading.noting_noting, Parser.noting_noting]
    exact .error _ h

theorem pure {a : α} (hr : S a c.tokens r) : Yields S p c after r (some a, p.facing (c.text ++ after)) := by
  have : Yields S p c after (r.noting []) (some a, (p.noting []).facing (c.text ++ after)) :=
    .ok [] (List.suffix_refl c.tokens) hr
  rwa [Parser.noting_nil] at this

theorem poison {a : α} (hr : S a c.tokens r) :
    Yields S p c after (r.note d) (some a, (p.facing (c.text ++ after)).poison d) := by
  have : Yields S p c after (r.noting [d]) (some a, (p.noting [d]).facing (c.text ++ after)) :=
    .ok [d] (List.suffix_refl c.tokens) hr
  rwa [Parser.noting_singleton] at this

theorem fail : Yields S p c after (.fail d) (none, (p.facing (c.text ++ after)).report d) := by
  have : Yields S p c after ((Reading.fail d).noting []) (none, ((p.noting []).facing (c.text ++ after)).report d) :=
    .error [] (List.suffix_refl c.tokens)
  rwa [Parser.noting_nil] at this

theorem ite {b : Bool} (h : Yields S p c after r o) : Yields S p c after (if !b then .fail d else r)
    (if !b then (none, (p.facing (c.text ++ after)).report d) else o) := by
  split_ifs
  · exact fail
  · exact h

theorem map {g : α → β} (h : Yields S p c after r o) (hg : ∀ a ts r, S a ts r → T (g a) ts r) :
    Yields T p c after r (Prod.map (Option.map g) id o) := by
  cases h with
  | ok notes h hr => exact .ok notes h (hg _ _ _ hr)
  | error notes h => exact .error notes h

theorem bind {x : Walk n α} {f : α → Walk n β} {q : Parser} (h : Yields S p c after r (x.run q))
    (hf : ∀ a ts r notes, ts <:+ c.tokens → S a ts r → Yields T (p.noting notes) ⟨ts, c.stop⟩ after r
      ((f a).run ((p.noting notes).facing ((⟨ts, c.stop⟩ : Clause).text ++ after)))) :
    Yields T p c after r ((x >>= f).run q) := by
  generalize ho : x.run q = o at h
  cases h with
  | ok notes h hr =>
    rw [run_bind_some ho]
    exact ((hf _ _ _ notes h hr).noting).of_suffix h
  | error notes h =>
    rw [run_bind_none ho]
    exact .error notes h

end Yields

/-- What ends an expression inside these calls. -/
def closers : List OpenCall → List Kind
  | [] => [.mark .semicolon]
  | _ :: _ => [.mark .comma, .mark .rparen]

/-- How the reading of a clause goes on behind an expression inside these calls. -/
inductive Resumes (lookup : String → Option VarId) (stop : Token) :
    List OpenCall → Expression → List Token → Reading → Prop
  | whole {e : Expression} : Resumes lookup stop [] e [] ⟨[], .ok e⟩
  | unclosed {o : OpenCall} {calls : List OpenCall} {e : Expression} :
      Resumes lookup stop (o :: calls) e [] (.fail (stop.unexpected "')'"))
  | comma {o : OpenCall} {calls : List OpenCall} {e : Expression} {t : Token} {ts : List Token}
      (ht : t.kind = .mark .comma) : Resumes lookup stop (o :: calls) e (t :: ts)
        (readInfix lookup stop {} ({ o with args := e :: o.args } :: calls) ts)
  | close {o : OpenCall} {calls : List OpenCall} {e : Expression} {t : Token} {ts : List Token}
      (ht : t.kind = .mark .rparen) : Resumes lookup stop (o :: calls) e (t :: ts)
        (readInfix lookup stop (({ o with args := e :: o.args } : OpenCall).finish t.span) calls ts)

/-- How the reading of a clause goes on behind the last arguments of a call. -/
inductive Finishes (lookup : String → Option VarId) (stop : Token) (o : OpenCall) (calls : List OpenCall) :
    List Expression → List Token → Reading → Prop
  | unclosed {es : List Expression} : Finishes lookup stop o calls es [] (.fail (stop.unexpected "')'"))
  | close {es : List Expression} {t : Token} {ts : List Token} (ht : t.kind = .mark .rparen) :
      Finishes lookup stop o calls es (t :: ts)
        (readInfix lookup stop (({ o with args := es.reverse ++ o.args } : OpenCall).finish t.span) calls ts)

/-- How the reading of a clause goes on behind an operand. -/
def Continues (lookup : String → Option VarId) (stop : Token) (f : Frame) (calls : List OpenCall) (x : Item × Span)
    (ts : List Token) (r : Reading) : Prop :=
  r = readInfix lookup stop (f.push .operand x.1 x.2) calls ts

theorem Finishes.cons {lookup : String → Option VarId} {stop : Token} {o : OpenCall} {calls : List OpenCall}
    {e : Expression} {es : List Expression} (h : Finishes lookup stop { o with args := e :: o.args } calls es ts r) :
    Finishes lookup stop o calls (e :: es) ts r := by
  cases h with
  | unclosed => exact .unclosed
  | close ht =>
    rw [show es.reverse ++ e :: o.args = (e :: es).reverse ++ o.args by simp]
    exact .close ht

/-- The cursor reads an expression that begins with these tokens as it is read from the clause, inside any calls. -/
def FormulaAgrees (n : ℕ) (ts : List Token) : Prop :=
  ∀ (p : Parser) (stop : Token) (after : List Token) (f : Frame) (calls : List OpenCall),
    Ahead .body p.tokens ⟨ts, stop⟩ after →
    Yields (Resumes p.scope.lookup stop calls) p ⟨ts, stop⟩ after (readInfix p.scope.lookup stop f calls ts)
      ((formula (closers calls) f : Walk n _).run (p.facing ((⟨ts, stop⟩ : Clause).text ++ after)))

theorem arguments_yields {m : ℕ} (hm : ∀ ts : List Token, ts.length ≤ m → FormulaAgrees n ts) {stop : Token}
    (call : OpenCall) (calls : List OpenCall) (hts : ts.length ≤ m) (h : Ahead .body p.tokens ⟨ts, stop⟩ after) :
    Yields (Finishes p.scope.lookup stop call calls) p ⟨ts, stop⟩ after
      (readInfix p.scope.lookup stop {} (call :: calls) ts)
      ((arguments : Walk n _).run (p.facing ((⟨ts, stop⟩ : Clause).text ++ after))) := by
  induction hlen : ts.length using Nat.strong_induction_on generalizing ts p call with
  | _ len ih =>
  have hagrees := hm ts hts p stop after {} (call :: calls) h
  generalize readInfix p.scope.lookup stop {} (call :: calls) ts = r at hagrees ⊢
  generalize hrun : (formula (closers (call :: calls)) {}).run _ = o at hagrees
  cases hagrees with
  | error notes hrest =>
    rw [run_arguments_none hrun]
    exact .error notes hrest
  | ok notes hrest hr =>
    have hq : Ahead .body (p.noting notes).tokens _ after := h.of_suffix hrest
    cases hr with
    | unclosed =>
      rw [run_arguments_last hrun]
      · exact .ok notes hrest .unclosed
      · intro hcomma
        have hstop := h.stop
        rw [hq.next] at hcomma
        rw [show stop.kind = .mark .comma from hcomma] at hstop
        cases hstop
    | @comma _ _ e t rest ht =>
      rw [run_arguments_comma hrun (by rw [hq.next]; exact ht), hq.advance]
      have hsuffix := (List.suffix_cons t rest).trans hrest
      have hlt : rest.length < ts.length := hrest.length_le
      refine Yields.of_suffix (Yields.noting (Yields.map (ih rest.length (hlen ▸ hlt) _
        (hsuffix.length_le.trans hts) hq.tail rfl) fun es ts r hr => ?_)) hsuffix
      exact hr.cons
    | close ht =>
      rw [run_arguments_last hrun]
      · exact .ok notes hrest (.close ht)
      · intro hcomma
        rw [hq.next] at hcomma
        cases ht.symm.trans hcomma

theorem operand_yields {m : ℕ} (hm : ∀ ts : List Token, ts.length ≤ m → FormulaAgrees n ts) {t stop : Token}
    (f : Frame) (calls : List OpenCall) {text : String} (ht : t.kind = .name text) (hts : ts.length ≤ m)
    (h : Ahead .body p.tokens ⟨ts, stop⟩ after) :
    ∃ r, (readInfix p.scope.lookup stop f calls (t :: ts) =
        if !f.last.allows .operand then .fail (illegal f.last t) else r) ∧
      Yields (Continues p.scope.lookup stop f calls) p ⟨ts, stop⟩ after r
        ((operand text t.span : Walk n _).run (p.facing ((⟨ts, stop⟩ : Clause).text ++ after))) := by
  rcases call_cases ts with ⟨l, close, rest, rfl, hl, hr⟩ | ⟨l, rest, rfl, hl, hr⟩ | hother
  · refine ⟨_, readInfix_emptyCall ht hl hr, ?_⟩
    rw [run_operand_some (h.next ▸ hl) (by rw [h.advance, h.tail.next, if_pos (by exact hr)]; exact run_pure _ _),
      run_mark (h.tail.next ▸ hr), h.tail.advance, h.tail.next]
    exact .of_tail (.of_tail (.pure rfl))
  · refine ⟨_, readInfix_call ht hl hr, ?_⟩
    have hne := h.tail.next_kind_ne rfl hr
    have hagrees := arguments_yields hm ⟨text, t.span, [], f⟩ calls (Nat.le_of_succ_le hts) h.tail
    generalize readInfix p.scope.lookup stop {} (⟨text, t.span, [], f⟩ :: calls) rest = r at hagrees ⊢
    generalize hrun : arguments.run _ = o at hagrees
    cases hagrees with
    | error notes hrest =>
      rw [run_operand_none (h.next ▸ hl) (h.advance ▸ hne) (h.advance ▸ hrun)]
      exact .of_tail (.error notes hrest)
    | ok notes hrest hr =>
      have hq : Ahead .body (p.noting notes).tokens _ after := h.tail.of_suffix hrest
      rw [run_operand_some (h.next ▸ hl) (by rw [h.advance, if_neg hne]; exact hrun)]
      refine .of_tail ?_
      cases hr with
      | unclosed =>
        rw [run_mark_other (hq.next_kind_ne rfl nofun), hq.next]
        exact .error notes hrest
      | close hclose =>
        rw [run_mark (hq.next ▸ hclose), hq.advance, hq.next]
        refine .ok notes ((List.suffix_cons _ _).trans hrest) ?_
        simp [Continues, OpenCall.finish, Clause.next]
  · refine ⟨_, readInfix_var ht hother, ?_⟩
    rw [run_operand_var (h.next_kind_ne rfl hother), show (p.facing _).scope = p.scope from rfl]
    cases p.scope.lookup text with
    | some id => exact .pure rfl
    | none => exact .poison rfl

/-- Neither the end of a statement nor, outside parentheses, what ends an expression inside these calls. -/
theorem not_ends {k : Kind} {f : Frame} {calls : List OpenCall} (hk : k.endsStatement = false)
    (hcomma : k ≠ .mark .comma) (hclose : k ≠ .mark .rparen) :
    ¬ (k.endsStatement ∨ f.depth = 0 ∧ k ∈ closers calls) := by
  rintro (h | ⟨-, h⟩)
  · rw [hk] at h
    cases h
  · rcases calls with _ | ⟨o, calls⟩
    · obtain rfl : k = _ := List.mem_singleton.1 h
      cases hk
    · simp [closers, hcomma, hclose] at h

section Closers

variable {t stop : Token} {f : Frame} {calls : List OpenCall} (h : Ahead .body p.tokens ⟨t :: ts, stop⟩ after)
include h

/-- A comma ends an argument, unless parentheses are open in it. -/
theorem formula_comma_yields (hk : t.kind = .mark .comma) :
    Yields (Resumes p.scope.lookup stop calls) p ⟨t :: ts, stop⟩ after
      (readInfix p.scope.lookup stop f calls (t :: ts))
      ((formula (closers calls) f : Walk n _).run (p.facing ((⟨t :: ts, stop⟩ : Clause).text ++ after))) := by
  have hnext : (p.facing ((⟨t :: ts, stop⟩ : Clause).text ++ after)).next = t := h.next
  rcases calls with _ | ⟨o, calls⟩
  · rw [readInfix_comma_nil hk, run_formula_comma hnext (by simp [hk, closers, Kind.endsStatement]) hk]
    exact .fail
  · rw [readInfix_comma hk]
    by_cases hdepth : f.depth > 0
    · have hend : t.kind.endsStatement = false := h.tokens t List.mem_cons_self
      rw [if_pos hdepth, run_formula_comma hnext (by simp [hend, Nat.ne_of_gt hdepth]) hk]
      exact .fail
    · rw [if_neg hdepth, run_formula_end hnext (.inr ⟨by omega, by simp [hk, closers]⟩), if_neg hdepth]
      exact .ite (.pure (.comma hk))

/-- A parenthesis outside all others closes the call. -/
theorem formula_close_yields (hk : t.kind = .mark .rparen) (hdepth : ¬ f.depth > 0) :
    Yields (Resumes p.scope.lookup stop calls) p ⟨t :: ts, stop⟩ after
      (readInfix p.scope.lookup stop f calls (t :: ts))
      ((formula (closers calls) f : Walk n _).run (p.facing ((⟨t :: ts, stop⟩ : Clause).text ++ after))) := by
  have hnext : (p.facing ((⟨t :: ts, stop⟩ : Clause).text ++ after)).next = t := h.next
  rcases calls with _ | ⟨o, calls⟩
  · rw [readInfix_unopened hk hdepth, run_formula_closing hnext (by simp [hk, closers, Kind.endsStatement]) hk,
      if_pos (show f.depth = 0 by omega)]
    exact .ite .fail
  · rw [readInfix_callEnd hk hdepth, run_formula_end hnext (.inr ⟨by omega, by simp [hk, closers]⟩), if_neg hdepth]
    exact .ite (.pure (.close hk))

end Closers

-- By induction on the number of tokens: behind a call reading goes on where the reader of its arguments came back.
theorem formula_yields (ts : List Token) : FormulaAgrees n ts := by
  induction hlen : ts.length using Nat.strong_induction_on generalizing ts with
  | _ len ih =>
  intro p stop after f calls h
  rcases ts with _ | ⟨t, ts⟩
  · rw [readInfix_nil, run_formula_end h.next (.inl h.stop)]
    refine .ite ?_
    split_ifs
    · exact .fail
    · rcases calls with _ | ⟨o, calls⟩
      · exact .pure .whole
      · exact .pure .unclosed
  have hshorter : ∀ ts' : List Token, ts'.length ≤ ts.length → FormulaAgrees n ts' :=
    fun ts' hle => ih ts'.length (hlen ▸ Nat.lt_succ_of_le hle) ts' rfl
  have hrest := fun f => Yields.of_tail (t := t) (hshorter ts le_rfl p stop after f calls h.tail)
  have hnext : (p.facing ((⟨t :: ts, stop⟩ : Clause).text ++ after)).next = t := h.next
  have hends : t.kind.endsStatement = false := h.tokens t List.mem_cons_self
  have hrole := t.kind.role
  generalize hk : t.kind = k at hrole
  cases hrole with
  | comma => exact formula_comma_yields h hk
  | closing =>
    by_cases hdepth : f.depth > 0
    · rw [readInfix_closing hk hdepth, run_formula_closing hnext (by simp [hends, Nat.ne_of_gt hdepth]) hk, h.advance,
        if_neg (Nat.ne_of_gt hdepth)]
      exact .ite (hrest _)
    · exact formula_close_yields h hk hdepth
  | opening =>
    rw [readInfix_opening hk, run_formula_opening hnext (not_ends hends (by simp [hk]) (by simp [hk])) hk, h.advance]
    exact .ite (hrest _)
  | complement =>
    rw [readInfix_complement hk, run_formula_complement hnext (not_ends hends (by simp [hk]) (by simp [hk])) hk,
      h.advance]
    exact .ite (hrest _)
  | assign =>
    rw [readInfix_assign hk, run_formula_assign hnext (not_ends hends (by simp [hk]) (by simp [hk])) hk]
    exact .fail
  | number text =>
    rw [readInfix_number hk, run_formula_number hnext (not_ends hends (by simp [hk]) (by simp [hk])) hk, h.advance]
    refine .ite ?_
    cases Text.ofDecimal? (UInt64.size / 2) text.toList with
    | some m => exact hrest _
    | none => exact .of_tail .fail
  | name text =>
    obtain ⟨r, hr, hyields⟩ := operand_yields hshorter f calls hk le_rfl h.tail
    rw [hr, run_formula_name hnext (not_ends hends (by simp [hk]) (by simp [hk])) hk, h.advance]
    refine .ite (.of_tail (hyields.bind fun x rest r notes hsuffix hr => ?_))
    rw [hr]
    exact hshorter rest hsuffix.length_le (p.noting notes) stop after _ calls (h.tail.of_suffix hsuffix)
  | binary op hop =>
    subst hk
    have hcomma : t.kind ≠ .mark .comma := fun heq => by rw [heq] at hop; cases hop
    have hclose : t.kind ≠ .mark .rparen := fun heq => by rw [heq] at hop; cases hop
    rw [readInfix_binary hop, run_formula_binary hnext (not_ends hends hcomma hclose) hop, h.advance]
    exact .ite (hrest _)
  | foreign hforeign =>
    subst hk
    have hcomma : t.kind ≠ .mark .comma := fun heq => by rw [heq] at hforeign; cases hforeign
    have hclose : t.kind ≠ .mark .rparen := fun heq => by rw [heq] at hforeign; cases hforeign
    rw [readInfix_foreign hforeign, run_formula_foreign hnext (not_ends hends hcomma hclose) hforeign]
    exact .fail

end Agreement

section Expressions

variable {ids : List VarId} {stop : Token} {after ts : List Token}

theorem run_targets_assign {text : String} (hname : p.next.kind = .name text)
    (hassign : p.advance.next.kind = .mark .assign) : (targets ids : Walk n _).run p =
      match p.scope.lookup text with
      | some id => (targets (id :: ids) : Walk n _).run p.advance.advance
      | none => (targets ids : Walk n _).run (p.advance.advance.poison ⟨.undeclared text, p.next.span⟩) := by
  rw [run, targets]
  split
  · rename_i text' heq
    obtain rfl : text' = text := by simpa [hname] using heq.symm
    rw [dif_pos hassign]
    cases p.scope.lookup text' <;> rfl
  · rename_i hother
    exact absurd hname (hother text)

theorem run_targets_other (h : ∀ text, p.next.kind = .name text → p.advance.next.kind ≠ .mark .assign) :
    (targets ids : Walk n _).run p = (some ids, p) := by
  rw [run, targets]
  split
  · rename_i text hname
    rw [dif_neg (h text hname)]
    rfl
  · rfl

theorem run_targets (h : Ahead .body p.tokens ⟨ts, stop⟩ after) :
    (targets ids : Walk n _).run (p.facing ((⟨ts, stop⟩ : Clause).text ++ after)) =
      (some (readTargets p.scope.lookup ids ts).2.1, (p.noting (readTargets p.scope.lookup ids ts).1).facing
        ((⟨(readTargets p.scope.lookup ids ts).2.2, stop⟩ : Clause).text ++ after)) := by
  generalize hlookup : p.scope.lookup = lookup
  fun_induction readTargets lookup ids ts generalizing p with
  | case1 ids text span span' rest id hid ih =>
    rw [run_targets_assign h.next_kind (h.advance ▸ h.tail.next_kind), h.advance, h.tail.advance,
      show (p.facing _).scope.lookup = lookup from hlookup, hid]
    exact ih h.tail.tail hlookup
  | case2 ids text span span' rest hid notes result hrest ih =>
    rw [run_targets_assign h.next_kind (h.advance ▸ h.tail.next_kind), h.advance, h.tail.advance,
      show (p.facing _).scope.lookup = lookup from hlookup, hid, h.next]
    have hrun := ih (p := p.poison ⟨.undeclared text, span⟩) h.tail.tail hlookup
    rw [hrest, ← Parser.noting_singleton, Parser.noting_noting] at hrun
    rw [← Parser.noting_singleton]
    exact hrun
  | case3 ids ts hother =>
    rw [run_targets_other, Parser.noting_nil]
    intro text hname hassign
    rw [h.next] at hname
    obtain ⟨span, rest, _, heq⟩ := h.eq_cons hname rfl
    cases heq
    rw [h.advance, h.tail.next] at hassign
    obtain ⟨span', rest', _, heq⟩ := h.tail.eq_cons hassign rfl
    cases heq
    exact hother _ _ _ _ rfl

/-- The reading ends with this expression. -/
def Whole (e : Expression) (ts : List Token) (r : Reading) : Prop :=
  ts = [] ∧ r = ⟨[], .ok e⟩

theorem value_yields (g : Expression → Expression) (h : Ahead .body p.tokens ⟨ts, stop⟩ after) :
    Yields Whole p ⟨ts, stop⟩ after ⟨(readInfix p.scope.lookup stop {} [] ts).notes,
        (readInfix p.scope.lookup stop {} [] ts).result.map g⟩
      ((formula [.mark .semicolon] {} >>= fun e => pure (g e) : Walk n _).run
        (p.facing ((⟨ts, stop⟩ : Clause).text ++ after))) := by
  have hagrees := formula_yields (n := n) ts p stop after {} [] h
  generalize readInfix p.scope.lookup stop {} [] ts = r at hagrees ⊢
  rw [closers] at hagrees
  generalize hrun : (formula [.mark .semicolon] {}).run _ = o at hagrees
  cases hagrees with
  | ok notes hts hr =>
    cases hr
    rw [run_bind_some hrun]
    exact Yields.ok (r := ⟨[], .ok (g _)⟩) notes hts ⟨rfl, rfl⟩
  | error notes hts =>
    rw [run_bind_none hrun]
    exact .error notes hts

theorem expression_yields (ids : List VarId) (start : Span) (h : Ahead .body p.tokens ⟨ts, stop⟩ after) :
    Yields Whole p ⟨ts, stop⟩ after (readExpression p.scope.lookup ids start ⟨ts, stop⟩)
      ((expression ids start : Walk n _).run (p.facing ((⟨ts, stop⟩ : Clause).text ++ after))) := by
  obtain ⟨names, front, hfront, -⟩ := readTargets_sound p.scope.lookup ids ts
  have hsuffix : (readTargets p.scope.lookup ids ts).2.2 <:+ ts := ⟨front, hfront.symm⟩
  have hrest : Ahead .body (p.noting (readTargets p.scope.lookup ids ts).1).tokens _ after := h.of_suffix hsuffix
  rw [expression, run_bind_some (run_targets h)]
  exact .of_suffix (.noting (value_yields _ hrest)) hsuffix

end Expressions

end Walk
end Bitpack
