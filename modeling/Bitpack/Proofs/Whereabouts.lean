import Mathlib
import Bitpack.Proofs.Located

/-! Where the expressions, methods and problems of a unit stand. Their places are made from those of the tokens of the
text, and those of calls and arguments lie in that of the statement around them. Of the problems at most the last is
fatal. -/

namespace Bitpack

variable {P : Span → Prop}

theorem Span.hi_join (a b : Span) : (a.join b).hi = max a.hi b.hi := by
  simp only [join, hi]
  omega

section Expressions

def Item.isCall : Item → Bool
  | .call .. => true
  | _ => false

/-- An item in which each call and each argument of a call has a place with a property. -/
inductive Item.Located (P : Span → Prop) : Item → Prop
  | call {name : String} {args : List Expression} {span : Span} (hspan : P span) (hargs : ∀ a ∈ args, P a.span)
      (hitems : ∀ a ∈ args, ∀ i ∈ a.items, Located P i) : Located P (.call name args span)
  | other {i : Item} (h : i.isCall = false) : Located P i

structure Expression.Located (P : Span → Prop) (e : Expression) : Prop where
  span : P e.span
  items : ∀ i ∈ e.items, i.Located P

theorem Item.located_call {name : String} {args : List Expression} {span : Span} (hspan : P span)
    (hargs : ∀ a ∈ args, a.Located P) : (Item.call name args span).Located P :=
  .call hspan (fun a ha => (hargs a ha).span) fun a ha => (hargs a ha).items

theorem Item.Located.of_call {name : String} {args : List Expression} {span : Span}
    (h : (Item.call name args span).Located P) : P span ∧ ∀ a ∈ args, a.Located P := by
  cases h with
  | call hspan hargs hitems => exact ⟨hspan, fun a ha => ⟨hargs a ha, hitems a ha⟩⟩
  | other h => cases h

mutual

theorem Item.located_of_forall (h : ∀ s, P s) : (i : Item) → i.Located P
  | .var _ | .temp _ _ | .number _ | .operator _ | .opening | .closing => .other rfl
  | .call _ args _ => .call (h _) (fun _ _ => h _) (located_arguments h args)

theorem located_arguments (h : ∀ s, P s) : (args : List Expression) → ∀ a ∈ args, ∀ i ∈ a.items, i.Located P
  | [] => List.forall_mem_nil _
  | .mk is _ :: args => List.forall_mem_cons.2 ⟨located_items h is, located_arguments h args⟩

theorem located_items (h : ∀ s, P s) : (is : List Item) → ∀ i ∈ is, i.Located P
  | [] => List.forall_mem_nil _
  | i :: is => List.forall_mem_cons.2 ⟨i.located_of_forall h, located_items h is⟩

end

theorem Expression.located_of_forall (h : ∀ s, P s) (e : Expression) : e.Located P :=
  ⟨h _, located_items h e.items⟩

/-- An expression so far, whose place is known as soon as it has an item. -/
structure Frame.Located (P : Span → Prop) (f : Frame) : Prop where
  span : ∀ s ∈ f.span, P s
  start : f.span = none → f.last = .start
  items : ∀ i ∈ f.items, i.Located P

structure OpenCall.Located (P : Span → Prop) (c : OpenCall) : Prop where
  span : P c.span
  args : ∀ a ∈ c.args, a.Located P
  outer : c.outer.Located P

theorem Frame.located_empty : Frame.Located P {} :=
  ⟨by simp, fun _ => rfl, by simp⟩

theorem Frame.Located.withDepth {f : Frame} (h : f.Located P) (depth : ℕ) : Frame.Located P { f with depth } :=
  ⟨h.span, h.start, h.items⟩

theorem Frame.Located.push (hP : Span.JoinClosed P) {f : Frame} (h : f.Located P) (place : Place) {i : Item}
    (hi : i.Located P) {s : Span} (hs : P s) : (f.push place i s).Located P := by
  refine ⟨?_, by simp [Frame.push], List.forall_mem_cons.2 ⟨hi, h.items⟩⟩
  rintro _ ⟨⟩
  split
  · rename_i s' hs'
    exact hP _ _ (h.span s' hs') hs
  · exact hs

theorem Frame.Located.expression {f : Frame} (h : f.Located P) (hlast : f.last.allows .finish) :
    f.expression.Located P := by
  refine ⟨?_, fun i hi => h.items i (List.mem_reverse.1 (mem_of_mem_toPostfix hi))⟩
  cases hspan : f.span with
  | none =>
    rw [h.start hspan] at hlast
    cases hlast
  | some s =>
    change P (f.span.getD Span.origin)
    rw [hspan]
    exact h.span s hspan

theorem OpenCall.Located.finish (hP : Span.JoinClosed P) {c : OpenCall} (h : c.Located P) {close : Span}
    (hclose : P close) : (c.finish close).Located P :=
  h.outer.push hP _ (Item.located_call (hP _ _ h.span hclose) fun a ha => h.args a (List.mem_reverse.1 ha))
    (hP _ _ h.span hclose)

theorem OpenCall.Located.argument {c : OpenCall} (h : c.Located P) {e : Expression} (he : e.Located P) :
    OpenCall.Located P { c with args := e :: c.args } :=
  ⟨h.span, List.forall_mem_cons.2 ⟨he, h.args⟩, h.outer⟩

/-- All that is wrong with an expression is minor. -/
structure Reading.Minor (P : Span → Prop) (r : Reading) : Prop where
  notes : ∀ d ∈ r.notes, d.Minor P
  error : ∀ d, r.result = .error d → d.Minor P

theorem Reading.minor_fail {d : Diagnostic} (h : d.Minor P) : (Reading.fail d).Minor P := by
  refine ⟨List.forall_mem_nil _, ?_⟩
  rintro _ ⟨⟩
  exact h

theorem readFinish_minor {stop : Token} (hstop : P stop.span) (f : Frame) (calls : List OpenCall) :
    (readFinish stop f calls).Minor P := by
  unfold readFinish
  split_ifs
  · exact Reading.minor_fail ⟨rfl, hstop⟩
  · exact Reading.minor_fail ⟨rfl, hstop⟩
  · cases calls with
    | nil => exact ⟨List.forall_mem_nil _, by rintro _ ⟨⟩⟩
    | cons c outer => exact Reading.minor_fail (Token.unexpected_minor hstop _)

theorem readInfix_minor (lookup : String → Option VarId) {stop : Token} (f : Frame) (calls : List OpenCall)
    {ts : List Token} (hts : Clause.Located P ⟨ts, stop⟩) : (readInfix lookup stop f calls ts).Minor P := by
  fun_induction readInfix lookup stop f calls ts
  case case1 => exact readFinish_minor hts.stop_span _ _
  case case21 ih => exact ih hts.tail.tail.tail
  case case22 ih => exact ih hts.tail.tail
  case case24 ih =>
    obtain ⟨hnotes, herror⟩ := ih hts.tail
    exact ⟨List.forall_mem_cons.2 ⟨⟨rfl, hts.head_span⟩, hnotes⟩, herror⟩
  case case4 ih | case7 ih | case9 ih | case13 ih | case15 ih | case18 ih | case23 ih | case26 ih => exact ih hts.tail
  case case2 | case5 | case27 => exact Reading.minor_fail (Token.unexpected_minor hts.head_span _)
  all_goals exact Reading.minor_fail ⟨rfl, hts.head_span⟩

theorem readFinish_eq_ok {stop : Token} {f : Frame} {calls : List OpenCall} {e : Expression}
    (h : (readFinish stop f calls).result = .ok e) : f.last.allows .finish ∧ e = f.expression := by
  obtain ⟨hlast, hdepth, rfl⟩ := readFinish_ok h
  simp only [readFinish, hlast, hdepth] at h
  cases h
  exact ⟨hlast, rfl⟩

theorem readInfix_located (hP : Span.JoinClosed P) {lookup : String → Option VarId} {stop : Token} {f : Frame}
    (hf : f.Located P) {calls : List OpenCall} (hcalls : ∀ c ∈ calls, c.Located P) {ts : List Token}
    (hts : ∀ t ∈ ts, P t.span) {e : Expression} (h : (readInfix lookup stop f calls ts).result = .ok e) :
    e.Located P := by
  have hpush : ∀ {f : Frame} {t : Token}, f.Located P → P t.span → ∀ (place : Place) {i : Item}, i.isCall = false →
      (f.push place i t.span).Located P :=
    fun hf ht place _ hi => hf.push hP place (.other hi) ht
  fun_induction readInfix lookup stop f calls ts
  case case1 =>
    obtain ⟨hlast, rfl⟩ := readFinish_eq_ok h
    exact hf.expression hlast
  all_goals obtain ⟨ht, hrest⟩ := List.forall_mem_cons.1 hts
  case case4 hlast ih =>
    obtain ⟨hc, hcalls⟩ := List.forall_mem_cons.1 hcalls
    exact ih Frame.located_empty
      (List.forall_mem_cons.2 ⟨hc.argument (hf.expression (allows_of_not hlast)), hcalls⟩) hrest h
  case case9 hlast _ ih =>
    obtain ⟨hc, hcalls⟩ := List.forall_mem_cons.1 hcalls
    exact ih ((hc.argument (hf.expression (allows_of_not hlast))).finish hP ht) hcalls hrest h
  case case7 ih | case13 ih => exact ih ((hpush hf ht _ rfl).withDepth _) hcalls hrest h
  case case21 ih =>
    obtain ⟨hclose, hrest⟩ := List.forall_mem_cons.1 (List.forall_mem_cons.1 hrest).2
    exact ih (OpenCall.Located.finish hP ⟨ht, List.forall_mem_nil _, hf⟩ hclose) hcalls hrest h
  case case22 ih =>
    exact ih Frame.located_empty (List.forall_mem_cons.2 ⟨⟨ht, List.forall_mem_nil _, hf⟩, hcalls⟩)
      (List.forall_mem_cons.1 hrest).2 h
  case case15 ih | case18 ih | case23 ih | case24 ih | case26 ih => exact ih (hpush hf ht _ rfl) hcalls hrest h
  all_goals cases h

theorem Frame.hi_le_push (f : Frame) (place : Place) (i : Item) (s : Span) :
    s.hi ≤ ((f.push place i s).span.getD Span.origin).hi := by
  unfold Frame.push
  cases f.span with
  | none => exact le_rfl
  | some s' =>
    change s.hi ≤ (s'.join s).hi
    rw [Span.hi_join]
    exact le_max_right _ _

/-- A finished expression reaches to the end of its last token. -/
theorem readInfix_hi {lookup : String → Option VarId} {stop : Token} {f : Frame} {calls : List OpenCall}
    {ts : List Token} {e : Expression} (h : (readInfix lookup stop f calls ts).result = .ok e) :
    (ts.getLast?.elim (f.span.getD Span.origin).hi (·.span.hi)) ≤ e.span.hi := by
  have hstep : ∀ {t : Token} {rest : List Token} {hi hi' : ℕ}, rest.getLast?.elim hi' (·.span.hi) ≤ e.span.hi →
      rest ≠ [] ∨ t.span.hi ≤ hi' → (t :: rest).getLast?.elim hi (·.span.hi) ≤ e.span.hi := by
    intro t rest hi hi' hle hreach
    cases rest with
    | nil => exact (hreach.resolve_left (by simp)).trans hle
    | cons t' rest =>
      rw [List.getLast?_cons_cons]
      rwa [List.getLast?_eq_some_getLast (List.cons_ne_nil t' rest)] at hle ⊢
  -- no expression ends inside a call
  have hopen : ∀ {c : OpenCall} {outer : List OpenCall} {rest : List Token},
      (readInfix lookup stop {} (c :: outer) rest).result = .ok e → rest ≠ [] := by
    rintro c outer rest h rfl
    exact absurd (readFinish_ok h).2.2 (List.cons_ne_nil _ _)
  have hclose : ∀ (c : OpenCall) (s : Span), s.hi ≤ ((c.finish s).span.getD Span.origin).hi := by
    intro c s
    refine le_trans ?_ (Frame.hi_le_push c.outer _ _ _)
    rw [Span.hi_join]
    exact le_max_right _ _
  fun_induction readInfix lookup stop f calls ts
  case case1 =>
    obtain ⟨-, rfl⟩ := readFinish_eq_ok h
    exact le_rfl
  case case4 ih => exact hstep (ih h) (.inl (hopen h))
  case case7 ih => exact hstep (ih h) (.inr (Frame.hi_le_push _ .closing .closing _))
  case case9 ih => exact hstep (ih h) (.inr (hclose _ _))
  case case13 ih => exact hstep (ih h) (.inr (Frame.hi_le_push _ .opening .opening _))
  case case21 ih =>
    rw [List.getLast?_cons_cons, List.getLast?_cons_cons]
    exact hstep (ih h) (.inr (hclose _ _))
  case case22 ih =>
    rw [List.getLast?_cons_cons]
    exact hstep (ih h) (.inl (hopen h))
  case case15 ih | case18 ih | case23 ih | case24 ih | case26 ih =>
    exact hstep (ih h) (.inr (Frame.hi_le_push _ _ _ _))
  all_goals cases h

theorem readTargets_suffix (lookup : String → Option VarId) (targets : List VarId) (ts : List Token) :
    (readTargets lookup targets ts).2.2 <:+ ts := by
  fun_induction readTargets lookup targets ts with
  | case1 _ _ _ _ _ _ _ ih => exact ih.trans ((List.suffix_cons _ _).trans (List.suffix_cons _ _))
  | case2 _ _ _ _ _ _ _ _ heq ih =>
    rw [heq] at ih
    exact ih.trans ((List.suffix_cons _ _).trans (List.suffix_cons _ _))
  | case3 => exact List.suffix_refl _

theorem readTargets_minor (lookup : String → Option VarId) (targets : List VarId) {ts : List Token} {stop : Token}
    (h : Clause.Located P ⟨ts, stop⟩) : ∀ d ∈ (readTargets lookup targets ts).1, d.Minor P := by
  fun_induction readTargets lookup targets ts with
  | case1 _ _ _ _ _ _ _ ih => exact ih h.tail.tail
  | case2 _ _ _ _ _ _ _ _ heq ih =>
    rw [heq] at ih
    exact List.forall_mem_cons.2 ⟨⟨rfl, h.head_span⟩, ih h.tail.tail⟩
  | case3 => exact List.forall_mem_nil _

/-- A place that lies within another. -/
def Span.Within (outer s : Span) : Prop :=
  outer.lo ≤ s.lo ∧ s.hi ≤ outer.hi

theorem Span.within_joinClosed (outer : Span) : Span.JoinClosed outer.Within := by
  rintro a b ⟨hlo, hhi⟩ ⟨hlo', hhi'⟩
  exact ⟨le_min hlo hlo', by rw [hi_join]; exact max_le hhi hhi'⟩

/-- Every call in an expression, at whatever depth, and every argument of it lies within the expression. -/
def Expression.Nested (e : Expression) : Prop :=
  ∀ i ∈ e.items, i.Located e.span.Within

theorem located_assignAll (targets : List VarId) : ∀ i ∈ assignAll targets, i.Located P := by
  intro i hi
  obtain ⟨id, -, hi⟩ := List.mem_flatMap.1 hi
  rcases List.mem_pair.1 hi with rfl | rfl <;> exact .other rfl

section Assignments

variable {lookup : String → Option VarId} {targets : List VarId} {start : Span} {c : Clause}

theorem readExpression_minor (hc : c.Located P) : (readExpression lookup targets start c).Minor P := by
  have hvalue := readInfix_minor lookup {} [] (hc.suffix (readTargets_suffix lookup targets c.tokens))
  exact ⟨List.forall_mem_append.2 ⟨readTargets_minor lookup targets hc, hvalue.notes⟩,
    fun d hd => hvalue.error d (readExpression_eq_error hd)⟩

theorem readExpression_located (hP : Span.JoinClosed P) (hc : c.Located P) (hstart : P start) {e : Expression}
    (h : (readExpression lookup targets start c).result = .ok e) : e.Located P := by
  obtain ⟨value, hvalue, rfl⟩ := readExpression_eq_ok h
  have hrest := hc.suffix (readTargets_suffix lookup targets c.tokens)
  have hvalue := readInfix_located hP Frame.located_empty (List.forall_mem_nil _)
    (List.forall_mem_append.1 hrest.span).1 hvalue
  exact ⟨hP _ _ hstart hvalue.span, List.forall_mem_append.2 ⟨hvalue.items, located_assignAll _⟩⟩

/-- An expression that begins before its tokens lies around all of them. -/
theorem readExpression_nested (hc : c.Located P) (hstart : ∀ t ∈ c.tokens, start.lo ≤ t.span.lo) {e : Expression}
    (h : (readExpression lookup targets start c).result = .ok e) : e.Nested := by
  obtain ⟨value, hvalue, rfl⟩ := readExpression_eq_ok h
  have hsuffix := readTargets_suffix lookup targets c.tokens
  have hrest : Token.Located P (readTargets lookup targets c.tokens).2.2 :=
    (hc.suffix hsuffix).sublist (List.sublist_append_left _ _)
  have hwithin : ∀ t ∈ (readTargets lookup targets c.tokens).2.2, (start.join value.span).Within t.span := by
    intro t ht
    refine ⟨(min_le_left _ _).trans (hstart t (hsuffix.subset ht)), ?_⟩
    -- the last token, which the value reaches to, is `t` or comes after it
    have hlast := readInfix_hi hvalue
    rw [List.getLast?_eq_some_getLast (List.ne_nil_of_mem ht)] at hlast
    rw [Span.hi_join]
    exact ((hrest.hi_le_getLast ht).trans hlast).trans (le_max_right _ _)
  have hitems := (readInfix_located (Span.within_joinClosed _) Frame.located_empty (List.forall_mem_nil _)
    hwithin hvalue).items
  exact List.forall_mem_append.2 ⟨hitems, located_assignAll _⟩

end Assignments
end Expressions

section Statements

/-- A statement whose expression is in place, with all calls in it within it. -/
def Statement.Located (P : Span → Prop) (st : Statement) : Prop :=
  ∀ e, st.expression? = some e → e.Located P ∧ e.Nested

namespace Scope

structure Located (P : Span → Prop) (s : Scope) : Prop where
  locals : ∀ l ∈ s.locals, P l.span
  statements : ∀ st ∈ s.statements, st.Located P

/-- What is read is in place, and all that is wrong with it is minor. -/
def Lands (P : Span → Prop) (r : Scope × List Diagnostic) : Prop :=
  r.1.Located P ∧ ∀ d ∈ r.2, d.Minor P

variable {s : Scope} {c : Clause}

theorem Located.push (h : s.Located P) {st : Statement} (hst : st.Located P) : (s.push st).Located P := by
  refine ⟨h.locals, fun st' hst' => ?_⟩
  rcases Array.mem_push.1 hst' with hst' | rfl
  · exact h.statements st' hst'
  · exact hst

theorem Located.declare (h : s.Located P) {d : Declarator} (hd : P d.span) : (s.declare d).Located P := by
  refine ⟨fun l hl => ?_, h.statements⟩
  rcases Array.mem_push.1 hl with hl | rfl
  · exact h.locals l hl
  · exact hd

theorem keep_lands (h : s.Located P) {stop : Token} (hstop : P stop.span) {r : Reading} (hr : r.Minor P)
    {f : Expression → Statement} (hf : ∀ e, r.result = .ok e → (f e).Located P) : Lands P (s.keep stop r f) := by
  unfold keep
  split
  · rename_i d hd
    exact ⟨h, List.forall_mem_append.2 ⟨hr.notes, List.forall_mem_singleton.2 (hr.error d hd)⟩⟩
  · rename_i e he
    split_ifs
    · exact ⟨h.push (hf e he), hr.notes⟩
    · exact ⟨h, hr.notes⟩
    · exact ⟨h, List.forall_mem_append.2 ⟨hr.notes, List.forall_mem_singleton.2 (Token.unexpected_minor hstop _)⟩⟩

/-- The expression of a statement begins at a place before its tokens. -/
theorem keep_readExpression_lands (hP : Span.JoinClosed P) (h : s.Located P) (hc : c.Located P) (targets : List VarId)
    {start : Span} (hstart : P start) (hbefore : ∀ t ∈ c.tokens, start.lo ≤ t.span.lo) {f : Expression → Statement}
    (hf : ∀ e, (f e).expression? = some e) :
    Lands P (s.keep c.stop (readExpression s.lookup targets start c) f) := by
  refine keep_lands h hc.stop_span (readExpression_minor hc) fun e he e' he' => ?_
  obtain rfl : e = e' := Option.some.inj ((hf e).symm.trans he')
  exact ⟨readExpression_located hP hc hstart he, readExpression_nested hc hbefore he⟩

end Scope

theorem Declarator.checkedWidth_minor {d : Declarator} (hd : P d.span) : ∀ x ∈ d.checkedWidth.2, x.Minor P := by
  unfold checkedWidth
  split_ifs
  · exact List.forall_mem_singleton.2 ⟨rfl, hd⟩
  · exact List.forall_mem_nil _

namespace Scope

variable {s : Scope} {c : Clause}

theorem declaration_lands (hP : Span.JoinClosed P) (h : s.Located P) (hc : c.Located P) :
    Lands P (s.declaration c) := by
  unfold declaration
  split
  · rename_i d hd
    exact ⟨h, List.forall_mem_singleton.2 ((Read.locates_declarator hP).error hc hd)⟩
  · rename_i d c' hd
    obtain ⟨hspan, hc'⟩ := (Read.locates_declarator hP).ok hc hd
    have hbefore := Read.declarator_lo_le hc hd
    have hwidth := d.checkedWidth_minor hspan
    simp only
    split_ifs
    · exact ⟨h, List.forall_mem_singleton.2 ⟨rfl, hspan⟩⟩
    · split
      · rename_i span rest htokens
        obtain ⟨tokens, stop⟩ := c'
        obtain rfl : tokens = _ := htokens
        obtain ⟨hs, hfaults⟩ := keep_readExpression_lands hP (h.declare hspan) hc'.tail [s.vars.size] hspan
          (List.forall_mem_cons.1 hbefore).2 (f := .eval) fun _ => rfl
        exact ⟨hs, List.forall_mem_append.2 ⟨hwidth, hfaults⟩⟩
      · split
        · exact ⟨h.declare hspan, hwidth⟩
        · rename_i d' hd'
          refine ⟨h.declare hspan, List.forall_mem_append.2 ⟨hwidth, List.forall_mem_singleton.2 ?_⟩⟩
          exact (Read.locates_stop _ _).error hc' hd'

theorem statement_lands (hP : Span.JoinClosed P) (h : s.Located P) (hc : c.Located P) : Lands P (s.statement c) := by
  obtain ⟨tokens, stop⟩ := c
  have hbefore : ∀ {t : Token} {ts : List Token}, Clause.Located P ⟨t :: ts, stop⟩ →
      ∀ t' ∈ ts, t.span.lo ≤ t'.span.lo := fun hts t' ht' =>
    (Nat.le_add_right _ _).trans ((List.pairwise_cons.1 hts.ordered).1 t' (List.mem_append_left _ ht'))
  unfold statement
  split
  · exact ⟨h, List.forall_mem_nil _⟩
  · rename_i span rest htokens
    obtain rfl : tokens = _ := htokens
    split_ifs
    · refine ⟨h.push ?_, List.forall_mem_nil _⟩
      rintro e ⟨⟩
    · exact keep_readExpression_lands hP h hc.tail _ hc.head_span (hbefore hc) fun _ => rfl
  · exact declaration_lands hP h hc
  · rename_i t rest _ _ htokens
    obtain rfl : tokens = _ := htokens
    exact keep_readExpression_lands hP h hc _ hc.head_span (List.forall_mem_cons.2 ⟨le_rfl, hbefore hc⟩) fun _ => rfl

theorem readAll_lands (hP : Span.JoinClosed P) {cs : List Clause} (hcs : ∀ c ∈ cs, c.Located P) :
    ∀ {s : Scope}, s.Located P → Lands P (s.readAll cs) := by
  induction cs with
  | nil => exact fun h => ⟨h, List.forall_mem_nil _⟩
  | cons c cs ih =>
    intro s h
    obtain ⟨hc, hcs⟩ := List.forall_mem_cons.1 hcs
    obtain ⟨hs, hfaults⟩ := statement_lands hP h hc
    obtain ⟨hs', hlater⟩ := ih hcs hs
    exact ⟨hs', List.forall_mem_append.2 ⟨hfaults, hlater⟩⟩

end Scope
end Statements

section Units

/-- The problem names a variable for which there is no room, where it is declared. -/
theorem packVariables_error {w : Word} {chosen : List (VarId × Span)} {vars : Array Variable} {d : Diagnostic}
    (h : packVariables w chosen vars = .error d) :
    (∃ name e, d.cause = .unpackable name e) ∧ ∃ v ∈ chosen, d.span = v.2 := by
  unfold packVariables at h
  simp only at h
  split at h
  · cases h
  · rename_i index e he
    cases h
    have hindex := pack_error_lt he
    rw [List.length_map] at hindex
    rw [List.getD_eq_getElem _ _ hindex]
    exact ⟨⟨_, _, rfl⟩, _, List.getElem_mem hindex, rfl⟩

/-- Minor problems, after which there may be no room for a variable. -/
def MinorButLast (P : Span → Prop) (ds : List Diagnostic) : Prop :=
  (∀ d ∈ ds, d.Minor P) ∨ ∃ front d name e, ds = front ++ [d] ∧ (∀ x ∈ front, x.Minor P) ∧
    d.cause = .unpackable name e ∧ P d.span

theorem MinorButLast.span {ds : List Diagnostic} (h : MinorButLast P ds) : ∀ d ∈ ds, P d.span := by
  rcases h with h | ⟨front, d, name, e, rfl, hfront, -, hd⟩
  · exact fun d hd => (h d hd).span
  · exact List.forall_mem_append.2 ⟨fun x hx => (hfront x hx).span, List.forall_mem_singleton.2 hd⟩

theorem minorButLast_concat {front : List Diagnostic} (hfront : ∀ x ∈ front, x.Minor P) {d : Diagnostic}
    (hcause : ∃ name e, d.cause = .unpackable name e) (hspan : P d.span) : MinorButLast P (front ++ [d]) := by
  obtain ⟨name, e, hcause⟩ := hcause
  exact .inr ⟨front, d, name, e, rfl, hfront, hcause, hspan⟩

theorem MinorButLast.append {front ds : List Diagnostic} (hfront : ∀ x ∈ front, x.Minor P) (h : MinorButLast P ds) :
    MinorButLast P (front ++ ds) := by
  rcases h with h | ⟨ds, d, name, e, rfl, hds, hcause, hspan⟩
  · exact .inl (List.forall_mem_append.2 ⟨hfront, h⟩)
  · rw [← List.append_assoc]
    exact minorButLast_concat (List.forall_mem_append.2 ⟨hfront, hds⟩) ⟨name, e, hcause⟩ hspan

/-- A body is kept if nothing is wrong with it but what is minor. -/
theorem readBody_lands (hP : Span.JoinClosed P) (w : Word) {s : Scope} (hs : s.Located P) {block : Block}
    (hblock : block.Located P) : MinorButLast P (readBody w s block).2.1 ∧
      ∀ b, (readBody w s block).2.2 = some b →
        (∀ d ∈ (readBody w s block).2.1, d.Minor P) ∧ ∀ st ∈ b.statements, st.Located P := by
  obtain ⟨hread, hfaults⟩ := Scope.readAll_lands hP hblock.clauses hs
  unfold readBody
  simp only
  split_ifs
  · refine ⟨.inl (List.forall_mem_append.2 ⟨hfaults, List.forall_mem_singleton.2 ?_⟩), by rintro _ ⟨⟩⟩
    exact Token.unexpected_minor hblock.close _
  · split
    · rename_i d hd
      obtain ⟨hcause, v, hv, hspan⟩ := packVariables_error hd
      obtain ⟨l, hl, rfl⟩ := List.mem_map.1 hv
      refine ⟨minorButLast_concat hfaults hcause ?_, by rintro _ ⟨⟩⟩
      rw [hspan]
      exact hread.locals l (Array.mem_toList_iff.1 hl)
    · refine ⟨.inl hfaults, ?_⟩
      rintro _ ⟨⟩
      exact ⟨hfaults, fun st hst => hread.statements st (Array.mem_toList_iff.1 hst)⟩

theorem declareParams_lands {ds : List Declarator} (hds : ∀ d ∈ ds, P d.span) :
    ∀ (vars : Array Variable) {declared : List (VarId × Span)}, (∀ v ∈ declared, P v.2) →
      (∀ v ∈ (declareParams vars declared ds).2.1, P v.2) ∧ ∀ x ∈ (declareParams vars declared ds).2.2, x.Minor P := by
  induction ds with
  | nil => exact fun _ _ h => ⟨fun v hv => h v (List.mem_reverse.1 hv), List.forall_mem_nil _⟩
  | cons d ds ih =>
    obtain ⟨hd, hds⟩ := List.forall_mem_cons.1 hds
    intro vars declared h
    rw [declareParams]
    split_ifs
    · obtain ⟨hparams, hnotes⟩ := ih hds vars h
      exact ⟨hparams, List.forall_mem_cons.2 ⟨⟨rfl, hd⟩, hnotes⟩⟩
    · have hdeclared : ∀ v ∈ (vars.size, d.span) :: declared, P v.2 := List.forall_mem_cons.2 ⟨hd, h⟩
      obtain ⟨hparams, hnotes⟩ := ih hds (vars.push (d.toVariable .params)) hdeclared
      exact ⟨hparams, List.forall_mem_append.2 ⟨d.checkedWidth_minor hd, hnotes⟩⟩

/-- A method whose name and statements are in place. -/
structure Method.Located (P : Span → Prop) (m : Method) : Prop where
  span : P m.span
  statements : ∀ b, m.body = some b → ∀ st ∈ b.statements, st.Located P

/-- A unit all of whose places have a property, with the calls in each statement within it. -/
structure SourceUnit.Located (P : Span → Prop) (u : SourceUnit) : Prop where
  imports : ∀ i ∈ u.imports, P i.span
  methods : ∀ m ∈ u.methods, m.Located P

theorem SourceUnit.Located.withVars {u : SourceUnit} (h : u.Located P) (vars : Array Variable) :
    SourceUnit.Located P { u with vars } :=
  ⟨h.imports, h.methods⟩

theorem readMethod_lands (hP : Span.JoinClosed P) (w : Word) (vars : Array Variable) {h : Heading} (hh : h.Located P)
    {block : Option Block} (hblock : ∀ b ∈ block, b.Located P) : MinorButLast P (readMethod w vars h block).faults ∧
      ∀ m, (readMethod w vars h block).method = some m →
        (∀ d ∈ (readMethod w vars h block).faults, d.Minor P) ∧ m.Located P := by
  have hresult := h.result.checkedWidth_minor hh.result
  unfold readMethod
  simp only
  split_ifs
  · exact ⟨minorButLast_concat hresult ⟨_, _, rfl⟩ hh.result, by rintro _ ⟨⟩⟩
  · obtain ⟨hparams, hnotes⟩ :=
      declareParams_lands hh.params (vars.push (h.result.toVariable .result)) (List.forall_mem_nil _)
    have hnotes := List.forall_mem_append.2 ⟨hresult, hnotes⟩
    split
    · rename_i d hd
      obtain ⟨hcause, v, hv, hspan⟩ := packVariables_error hd
      exact ⟨minorButLast_concat hnotes hcause (hspan ▸ hparams v hv), by rintro _ ⟨⟩⟩
    · cases block with
      | none =>
        refine ⟨.inl hnotes, ?_⟩
        rintro _ ⟨⟩
        exact ⟨hnotes, hh.result, by rintro _ ⟨⟩⟩
      | some block =>
        rename_i l packed _
        have hscope : (h.bodyScope vars packed).Located P :=
          ⟨by simp [Heading.bodyScope], by simp [Heading.bodyScope]⟩
        obtain ⟨hlast, hsome⟩ := readBody_lands hP w hscope (hblock block rfl)
        refine ⟨hlast.append hnotes, fun m hm => ?_⟩
        obtain ⟨b, hb, rfl⟩ := Option.map_eq_some_iff.1 hm
        obtain ⟨hfaults, hstatements⟩ := hsome b hb
        refine ⟨List.forall_mem_append.2 ⟨hnotes, hfaults⟩, hh.result, ?_⟩
        rintro _ ⟨⟩
        exact hstatements

namespace Draft

/-- What has been read is in place, and so are its problems. -/
structure Located (P : Span → Prop) (d : Draft) : Prop where
  unit : d.unit.Located P
  faults : MinorButLast P d.faults

variable {d : Draft}

theorem insert_located {u : SourceUnit} {faults : List Diagnostic} (hu : u.Located P)
    (hfaults : ∀ x ∈ faults, x.Minor P) {m : Method} (hm : m.Located P) : (insert ⟨u, faults⟩ m).Located P := by
  unfold insert
  split_ifs
  · exact ⟨hu, .inl (List.forall_mem_append.2 ⟨hfaults, List.forall_mem_singleton.2 ⟨rfl, hm.span⟩⟩)⟩
  · refine ⟨⟨hu.imports, fun m' hm' => ?_⟩, .inl hfaults⟩
    rcases Array.mem_push.1 hm' with hm' | rfl
    · exact hu.methods m' hm'
    · exact hm

theorem add_located (hP : Span.JoinClosed P) (hu : d.unit.Located P) (hfaults : ∀ x ∈ d.faults, x.Minor P) {e : Entry}
    (he : e.Located P) : (d.add e).Located P := by
  cases e with
  | imported name span =>
    refine ⟨⟨fun i hi => ?_, hu.methods⟩, .inl hfaults⟩
    rcases Array.mem_push.1 hi with hi | rfl
    · exact hu.imports i hi
    · exact he
  | broken faults => exact ⟨hu, .inl (List.forall_mem_append.2 ⟨hfaults, he⟩)⟩
  | method notes heading block =>
    obtain ⟨hnotes, hheading, hblock⟩ := he
    have hnotes := List.forall_mem_append.2 ⟨hfaults, hnotes⟩
    obtain ⟨hlast, hsome⟩ := readMethod_lands hP d.unit.word d.unit.vars hheading hblock
    rw [add]
    simp only
    split
    · rename_i m hm
      obtain ⟨hfaults, hm⟩ := hsome m hm
      exact insert_located (hu.withVars _) (List.forall_mem_append.2 ⟨hnotes, hfaults⟩) hm
    · exact ⟨hu.withVars _, hlast.append hnotes⟩

theorem addAll_located (hP : Span.JoinClosed P) {es : List Entry} (hes : ∀ e ∈ es, e.Located P) :
    ∀ {d : Draft}, d.Located P → (d.addAll es).Located P := by
  induction es with
  | nil => exact fun hd => hd
  | cons e es ih =>
    intro d hd
    obtain ⟨he, hes⟩ := List.forall_mem_cons.1 hes
    rw [addAll]
    split_ifs with hfatal
    · exact hd
    · rcases hd.faults with hfaults | ⟨front, x, name, error, hfaults, -, hx, -⟩
      · exact ih hes (add_located hP hd.unit hfaults he)
      · refine absurd ?_ hfatal
        simp [isFatal, hfaults, Diagnostic.isFatal, hx, Cause.isFatal, Cause.category, Category.isFatal]

theorem header_located (w : Word) {finish : Token} {ts : List Token} (h : Clause.Located P ⟨ts, finish⟩) :
    (header w finish ts).1.Located P := by
  have hempty : ∀ u : SourceUnit, u.imports = #[] → u.methods = #[] → u.Located P := by
    intro u himports hmethods
    exact ⟨by simp [himports], by simp [hmethods]⟩
  unfold header
  split
  · simp only
    split
    · exact ⟨hempty _ rfl rfl, .inl (List.forall_mem_nil _)⟩
    · rename_i d hd
      refine ⟨hempty _ rfl rfl, .inl (List.forall_mem_singleton.2 ?_)⟩
      exact Read.locates_objectHeader.error (h.tail.sublist (Clause.cut_prefix _ finish _).sublist) hd
  · exact ⟨hempty _ rfl rfl, .inl (List.forall_mem_singleton.2 ⟨rfl, h.next_span⟩)⟩

theorem header_suffix (w : Word) (finish : Token) (ts : List Token) : (header w finish ts).2 <:+ ts := by
  unfold header
  split
  · simp only
    refine List.IsSuffix.trans ?_ (List.suffix_cons _ _)
    split
    · exact Entry.head_suffix finish _
    · exact (Clause.skip_suffix _ _).trans (Entry.head_suffix finish _)
  · exact List.suffix_refl _

end Draft

theorem SourceUnit.ofTokens_located (hP : Span.JoinClosed P) (w : Word) {finish : Token} {ts : List Token}
    (h : Clause.Located P ⟨ts, finish⟩) :
    (SourceUnit.ofTokens w finish ts).1.Located P ∧ MinorButLast P (SourceUnit.ofTokens w finish ts).2 := by
  have hitems := h.suffix (Draft.header_suffix w finish ts)
  obtain ⟨hunit, hfaults⟩ := Draft.addAll_located hP (Entry.split_located hP hitems) (Draft.header_located w h)
  exact ⟨hunit, hfaults⟩

theorem SourceUnit.ofText_located (hP : Span.JoinClosed P) (horigin : P Span.origin) (w : Word) {src : String}
    (hsrc : Token.Located P (Token.scan src ++ [Token.finishOf src])) :
    (SourceUnit.ofText w src).1.Located P ∧ MinorButLast P (SourceUnit.ofText w src).2 := by
  unfold SourceUnit.ofText
  split_ifs
  · exact ⟨⟨by simp, by simp⟩, .inl (List.forall_mem_singleton.2 ⟨rfl, horigin⟩)⟩
  · exact SourceUnit.ofTokens_located hP w hsrc

end Units
end Bitpack
