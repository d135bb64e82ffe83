import Mathlib
import Bitpack.Proofs.Postfix
import Bitpack.Proofs.Recognition
import Bitpack.Proofs.Rereading
import Bitpack.Proofs.Whereabouts

/-! Arguments of calls. A run that is an expression by itself is read in the same way as an argument, whatever stands
around it, unless it begins with an assignment: the targets in front of an expression are read only where a clause
begins. -/

namespace Bitpack

/-- The reading with these problems noted before its own. -/
def Reading.noting (ds : List Diagnostic) (r : Reading) : Reading :=
  { r with notes := ds ++ r.notes }

@[simp] theorem Reading.noting_noting (ds ds' : List Diagnostic) (r : Reading) :
    (r.noting ds').noting ds = r.noting (ds ++ ds') := by
  simp [Reading.noting]

section Locality

variable {lookup : String → Option VarId} {f f' g : Frame} {calls calls' : List OpenCall} {ts ts' : List Token}
  {notes : List Diagnostic}

/-- Reading these tokens leads from `f` to `g`, out of the calls `calls`. It does so inside any other calls and in front
of any tokens but a parenthesis, which would make a call of a name in front of it. -/
structure LeadsTo (lookup : String → Option VarId) (f : Frame) (calls : List OpenCall) (ts : List Token) (g : Frame)
    (notes : List Diagnostic) : Prop where
  last : g.last.wantsOperand = false
  depth : g.depth = 0
  run : ∀ stop outer rest, (rest.map (·.kind)).head? ≠ some (.mark .lparen) →
    readInfix lookup stop f (calls ++ outer) (ts ++ rest) = (readInfix lookup stop g outer rest).noting notes

variable {e : Expression}

theorem exists_leadsTo_step (h : ∃ g, LeadsTo lookup f' calls' ts' g notes ∧ g.expression = e)
    (hstep : ∀ stop outer rest, (rest.map (·.kind)).head? ≠ some (.mark .lparen) →
      readInfix lookup stop f (calls ++ outer) (ts ++ rest) =
        readInfix lookup stop f' (calls' ++ outer) (ts' ++ rest)) :
    ∃ g, LeadsTo lookup f calls ts g notes ∧ g.expression = e := by
  obtain ⟨g, hg, he⟩ := h
  refine ⟨g, ⟨hg.last, hg.depth, fun stop outer rest hrest => ?_⟩, he⟩
  rw [hstep stop outer rest hrest, hg.run stop outer rest hrest]

theorem head?_kinds_append_ne {rest : List Token} {k : Kind} (h : ∀ span rest, ts = ⟨k, span⟩ :: rest → False)
    (hrest : (rest.map (·.kind)).head? ≠ some k) : ((ts ++ rest).map (·.kind)).head? ≠ some k := by
  rw [List.map_append]
  exact Phrase.head?_append_ne (head?_kinds_ne h) hrest

theorem ne_nil_of_readInfix {stop : Token} {c : OpenCall}
    (h : (readInfix lookup stop f (c :: calls) ts).result = .ok e) : ts ≠ [] := by
  rintro rfl
  rw [readInfix_nil] at h
  exact absurd (readFinish_ok h).2.2 (List.cons_ne_nil c calls)

theorem exists_leadsTo {stop : Token} (h : (readInfix lookup stop f calls ts).result = .ok e) :
    ∃ g, LeadsTo lookup f calls ts g (readInfix lookup stop f calls ts).notes ∧ g.expression = e := by
  fun_induction readInfix lookup stop f calls ts
  case case1 f calls =>
    obtain ⟨hlast, hdepth, rfl⟩ := readFinish_ok h
    have hwants : f.last.wantsOperand = false := by simpa [Place.allows, Place.startsOperand] using hlast
    simp only [readFinish, hlast, hdepth] at h ⊢
    exact ⟨f, ⟨hwants, hdepth, fun _ _ _ _ => rfl⟩, Except.ok.inj h⟩
  case case4 hkind _ _ hdepth hlast ih =>
    refine exists_leadsTo_step (ih h) fun stop outer rest _ => ?_
    rw [List.cons_append, List.cons_append, readInfix_comma hkind, if_neg hdepth, if_neg hlast]
    rfl
  case case7 hkind hdepth hlast ih =>
    refine exists_leadsTo_step (ih h) fun stop outer rest _ => ?_
    rw [List.cons_append, readInfix_closing hkind hdepth, if_neg hlast]
  case case9 hkind hdepth _ _ hlast _ ih =>
    refine exists_leadsTo_step (ih h) fun stop outer rest _ => ?_
    rw [List.cons_append, List.cons_append, readInfix_callEnd hkind hdepth, if_neg hlast]
  case case13 hkind hlast ih =>
    refine exists_leadsTo_step (ih h) fun stop outer rest _ => ?_
    rw [List.cons_append, readInfix_opening hkind, if_neg hlast]
  case case15 hkind hlast ih =>
    refine exists_leadsTo_step (ih h) fun stop outer rest _ => ?_
    rw [List.cons_append, readInfix_complement hkind, if_neg hlast]
  case case18 hkind hlast _ hn ih =>
    refine exists_leadsTo_step (ih h) fun stop outer rest _ => ?_
    rw [List.cons_append, readInfix_number hkind, if_neg hlast, hn]
  case case21 hkind hlast _ _ _ ih =>
    refine exists_leadsTo_step (ih h) fun stop outer rest _ => ?_
    rw [List.cons_append, List.cons_append, List.cons_append, readInfix_emptyCall hkind rfl rfl, if_neg hlast]
  case case22 t text hkind hlast _ ts hclose ih =>
    -- The parenthesis that could end the call at once would have to come from behind the run.
    obtain ⟨u, us, rfl⟩ := List.exists_cons_of_ne_nil (ne_nil_of_readInfix h)
    refine exists_leadsTo_step (ih h) fun stop outer rest _ => ?_
    have hhead : ((u :: us ++ rest).map (·.kind)).head? ≠ some (.mark .rparen) := by
      simpa using head?_kinds_ne hclose
    rw [List.cons_append, List.cons_append, readInfix_call hkind rfl hhead, if_neg hlast]
    rfl
  case case23 t text hkind hlast ts _ hopen id hid ih =>
    refine exists_leadsTo_step (ih h) fun stop outer rest hrest => ?_
    rw [List.cons_append, readInfix_var hkind (head?_kinds_append_ne hopen hrest), if_neg hlast, hid]
  case case24 t text hkind hlast ts _ hopen hid ih =>
    obtain ⟨g, hg, he⟩ := ih h
    refine ⟨g, ⟨hg.last, hg.depth, fun stop outer rest hrest => ?_⟩, he⟩
    rw [List.cons_append, readInfix_var hkind (head?_kinds_append_ne hopen hrest), if_neg hlast, hid]
    exact congrArg (Reading.note _) (hg.run stop outer rest hrest)
  case case26 hlast _ _ _ _ _ _ _ hop ih =>
    refine exists_leadsTo_step (ih h) fun stop outer rest _ => ?_
    rw [List.cons_append, readInfix_binary hop, if_neg hlast]
  all_goals cases h

end Locality

section Arguments

/-- Where the first assignment stands that a run begins with. -/
def assign? : List Token → Option Span
  | ⟨.name _, _⟩ :: ⟨.mark .assign, span⟩ :: _ => some span
  | _ => none

theorem exists_of_assign? {ts : List Token} {s : Span} (h : assign? ts = some s) :
    ∃ x span rest, ts = ⟨.name x, span⟩ :: ⟨.mark .assign, s⟩ :: rest := by
  unfold assign? at h
  split at h
  · cases h
    exact ⟨_, _, _, rfl⟩
  · cases h

theorem readTargets_of_assign?_eq_none {ts : List Token} (h : assign? ts = none) (lookup : String → Option VarId)
    (targets : List VarId) : readTargets lookup targets ts = ([], targets, ts) := by
  rw [readTargets.eq_def]
  split
  · simp [assign?] at h
  · rfl

/-- The tokens of a clause as a statement of their own that `stop` ends. -/
def Clause.asStatement (lookup : String → Option VarId) (start : Span) (stop : Token) (c : Clause) : Reading :=
  readExpression lookup [] start ⟨c.tokens, stop⟩

/-- The arguments of a call, one at least. A comma ends each of them but the last, which ends with the call. -/
structure Arguments where
  front : List Clause
  last : Clause
  comma : ∀ c ∈ front, c.stop.kind = .mark .comma
  close : last.stop.kind = .mark .rparen

namespace Arguments

def all (args : Arguments) : List Clause :=
  args.front ++ [args.last]

/-- The call of `x` with these arguments. -/
def call (args : Arguments) (x : String) (span lspan : Span) : List Token :=
  ⟨.name x, span⟩ :: ⟨.mark .lparen, lspan⟩ :: args.all.flatMap Clause.text

/-- Where the call stands whose name stands at `name`. -/
def span (args : Arguments) (name : Span) : Span :=
  name.join args.last.stop.span

end Arguments

variable {lookup : String → Option VarId} {start : Span} {stop stop' : Token} {c : Clause} {e : Expression}

theorem exists_argument (hc : assign? c.tokens = none) (h : (c.asStatement lookup start stop).result = .ok e) :
    ∃ e', (readInfix lookup stop {} [] c.tokens).result = .ok e' ∧ e'.items = e.items ∧
      (readInfix lookup stop {} [] c.tokens).notes = (c.asStatement lookup start stop).notes := by
  obtain ⟨e', he', rfl⟩ := readExpression_eq_ok h
  rw [readTargets_of_assign?_eq_none hc] at he' ⊢
  refine ⟨e', he', by simp [assignAll, Expression.items], ?_⟩
  rw [Clause.asStatement, readExpression, readTargets_of_assign?_eq_none hc]
  rfl

theorem head?_ne_rparen_of_asStatement (h : (c.asStatement lookup start stop).result = .ok e) (rest : List Token) :
    ((c.tokens ++ rest).map (·.kind)).head? ≠ some (.mark .rparen) := by
  cases hc : assign? c.tokens with
  | some s =>
    obtain ⟨x, span, ts, hts⟩ := exists_of_assign? hc
    simp [hts]
  | none =>
    obtain ⟨e', he', -⟩ := exists_argument hc h
    rw [List.map_append]
    exact (Phrase.derives_of_accepts (accepts_of_readInfix he')).head_ne_rparen (by decide) _

section Steps

variable (call : OpenCall) (calls : List OpenCall) (rest : List Token)

theorem readInfix_argument (hc : c.stop.kind = .mark .comma)
    (h : (readInfix lookup stop' {} [] c.tokens).result = .ok e) :
    readInfix lookup stop {} (call :: calls) (c.text ++ rest) =
      (readInfix lookup stop {} ({ call with args := e :: call.args } :: calls) rest).noting
        (readInfix lookup stop' {} [] c.tokens).notes := by
  obtain ⟨g, hg, rfl⟩ := exists_leadsTo h
  obtain ⟨tokens, kind, span⟩ := c
  cases hc
  rw [← Phrase.readInfix_nextArgument call calls span rest hg.last hg.depth, ← hg.run _ _ _ (by simp)]
  simp [Clause.text]

theorem readInfix_lastArgument (hc : c.stop.kind = .mark .rparen)
    (h : (readInfix lookup stop' {} [] c.tokens).result = .ok e) :
    readInfix lookup stop {} (call :: calls) (c.text ++ rest) =
      (readInfix lookup stop (({ call with args := e :: call.args } : OpenCall).finish c.stop.span) calls rest).noting
        (readInfix lookup stop' {} [] c.tokens).notes := by
  obtain ⟨g, hg, rfl⟩ := exists_leadsTo h
  obtain ⟨tokens, kind, span⟩ := c
  cases hc
  rw [← Phrase.readInfix_callClose call calls span rest hg.last hg.depth, ← hg.run _ _ _ (by simp)]
  simp [Clause.text]

theorem readInfix_assigned {f : Frame} (hf : f.last.allows .operand) (x : String) (span s : Span) :
    (readInfix lookup stop f calls (⟨.name x, span⟩ :: ⟨.mark .assign, s⟩ :: rest)).result =
      .error ⟨.invalidAssignmentTarget, s⟩ := by
  rw [readInfix_var rfl (by simp), if_neg (by simp [hf])]
  cases lookup x <;> rw [readInfix_assign rfl] <;> rfl

end Steps

theorem exists_arguments {cs : List Clause} (hstops : ∀ c ∈ cs, c.stop.kind = .mark .comma)
    (htargets : ∀ c ∈ cs, assign? c.tokens = none)
    (h : ∀ c ∈ cs, ∃ e, (c.asStatement lookup start stop').result = .ok e) (call : OpenCall) :
    ∃ es : List Expression, cs.map (fun c => (c.asStatement lookup start stop').result.map (·.items)) =
        es.map (fun e => .ok e.items) ∧
      ∀ stop calls rest, readInfix lookup stop {} (call :: calls) (cs.flatMap Clause.text ++ rest) =
        (readInfix lookup stop {} ({ call with args := es.reverse ++ call.args } :: calls) rest).noting
          (cs.flatMap fun c => (c.asStatement lookup start stop').notes) := by
  induction cs generalizing call with
  | nil => exact ⟨[], rfl, fun _ _ _ => rfl⟩
  | cons c cs ih =>
    obtain ⟨⟨e, he⟩, h⟩ := List.forall_mem_cons.1 h
    obtain ⟨hstop, hstops⟩ := List.forall_mem_cons.1 hstops
    obtain ⟨htarget, htargets⟩ := List.forall_mem_cons.1 htargets
    obtain ⟨e', he', hitems, hnotes⟩ := exists_argument htarget he
    obtain ⟨es, hes, hrun⟩ := ih hstops htargets h { call with args := e' :: call.args }
    refine ⟨e' :: es, ?_, fun stop calls rest => ?_⟩
    · rw [List.map_cons, List.map_cons, hes, he, hitems]
      rfl
    · rw [List.flatMap_cons, List.append_assoc, readInfix_argument call calls _ hstop he', hrun, hnotes]
      simp

namespace Arguments

variable (args : Arguments) {f : Frame} (hf : f.last.allows .operand) (calls : List OpenCall) (x : String)
  (span lspan : Span) (rest : List Token)
  (hargs : ∀ a ∈ args.all, ∃ e, (a.asStatement lookup start stop').result = .ok e)
include hf hargs

theorem readInfix_call : readInfix lookup stop f calls (args.call x span lspan ++ rest) =
    readInfix lookup stop {} (⟨x, span, [], f⟩ :: calls) (args.all.flatMap Clause.text ++ rest) := by
  obtain ⟨a, as, hall⟩ : ∃ a as, args.all = a :: as := List.exists_cons_of_ne_nil (by simp [all])
  obtain ⟨e, he⟩ := hargs a (hall ▸ List.mem_cons_self)
  have hhead := head?_ne_rparen_of_asStatement he (a.stop :: (as.flatMap Clause.text ++ rest))
  have htext : args.all.flatMap Clause.text ++ rest = a.tokens ++ a.stop :: (as.flatMap Clause.text ++ rest) := by
    simp [hall, Clause.text]
  rw [call, List.cons_append, List.cons_append, htext, Bitpack.readInfix_call rfl rfl hhead,
    if_neg (by simp [hf])]

theorem exists_readInfix_eq (htargets : ∀ a ∈ args.all, assign? a.tokens = none) :
    ∃ es : List Expression, args.all.map (fun a => (a.asStatement lookup start stop').result.map (·.items)) =
        es.map (fun e => .ok e.items) ∧
      readInfix lookup stop f calls (args.call x span lspan ++ rest) =
        (readInfix lookup stop (f.push .operand (.call x es (args.span span)) (args.span span)) calls rest).noting
          (args.all.flatMap fun a => (a.asStatement lookup start stop').notes) := by
  obtain ⟨hfront, hlast⟩ := List.forall_mem_append.1 hargs
  obtain ⟨e, he⟩ := hlast args.last List.mem_cons_self
  obtain ⟨hfrontTargets, hlastTarget⟩ := List.forall_mem_append.1 htargets
  obtain ⟨e', he', hitems, hnotes⟩ := exists_argument (hlastTarget args.last List.mem_cons_self) he
  obtain ⟨es, hes, hrun⟩ := exists_arguments args.comma hfrontTargets hfront ⟨x, span, [], f⟩
  refine ⟨es ++ [e'], ?_, ?_⟩
  · rw [all, List.map_append, List.map_append, hes, List.map_singleton, List.map_singleton, he, hitems]
    rfl
  · rw [args.readInfix_call hf calls x span lspan rest hargs, all, List.flatMap_append, List.flatMap_append,
      List.append_assoc, hrun, List.flatMap_singleton, List.flatMap_singleton,
      readInfix_lastArgument _ _ _ args.close he', hnotes]
    simp [OpenCall.finish, Arguments.span]

theorem readInfix_result_eq_error {s : Span} (hs : args.all.findSome? (fun a => assign? a.tokens) = some s) :
    (readInfix lookup stop f calls (args.call x span lspan ++ rest)).result = .error ⟨.invalidAssignmentTarget, s⟩ := by
  obtain ⟨before, a, after, hall, ha, hbefore⟩ := List.findSome?_eq_some_iff.1 hs
  have hfront : args.front = before ++ (a :: after).dropLast := by
    rw [← List.dropLast_append_cons, ← hall, all, List.dropLast_concat]
  have hstops : ∀ c ∈ before, c.stop.kind = .mark .comma :=
    fun c hc => args.comma c (hfront ▸ List.mem_append_left _ hc)
  have hstatements : ∀ c ∈ before, ∃ e, (c.asStatement lookup start stop').result = .ok e :=
    fun c hc => hargs c (hall ▸ List.mem_append_left _ hc)
  obtain ⟨es, -, hrun⟩ := exists_arguments hstops hbefore hstatements ⟨x, span, [], f⟩
  obtain ⟨y, yspan, ts, hts⟩ := exists_of_assign? ha
  rw [args.readInfix_call hf calls x span lspan rest hargs, hall, List.flatMap_append, List.flatMap_cons,
    List.append_assoc, hrun, Clause.text, hts]
  exact readInfix_assigned _ _ rfl y yspan s

end Arguments

end Arguments

/-- Runs that are statements of their own are read as the arguments of a call, with the same items and the same notes,
exactly if none of them begins with an assignment. Otherwise the first such assignment is refused. -/
theorem call_reads_arguments_without_targets (lookup : String → Option VarId) (start : Span) (semicolon stop : Token)
    {f : Frame} (hf : f.last.allows .operand) (calls : List OpenCall) (x : String) (span lspan : Span)
    (args : Arguments) (rest : List Token)
    (hargs : ∀ a ∈ args.all, ∃ e, (a.asStatement lookup start semicolon).result = .ok e) :
    ((∀ a ∈ args.all, assign? a.tokens = none) → ∃ es : List Expression,
      args.all.map (fun a => (a.asStatement lookup start semicolon).result.map (·.items)) =
        es.map (fun e => .ok e.items) ∧
      readInfix lookup stop f calls (args.call x span lspan ++ rest) =
        (readInfix lookup stop (f.push .operand (.call x es (args.span span)) (args.span span)) calls rest).noting
          (args.all.flatMap fun a => (a.asStatement lookup start semicolon).notes)) ∧
    ∀ s, args.all.findSome? (fun a => assign? a.tokens) = some s →
      (readInfix lookup stop f calls (args.call x span lspan ++ rest)).result =
        .error ⟨.invalidAssignmentTarget, s⟩ := by
  refine ⟨args.exists_readInfix_eq hf calls x span lspan rest hargs, fun s hs => ?_⟩
  exact args.readInfix_result_eq_error hf calls x span lspan rest hargs hs

/-- `~x, g(y)` -/
def plainArguments : Arguments where
  front := [⟨[⟨.mark .tilde, 2, 1⟩, ⟨.name "x", 3, 1⟩], ⟨.mark .comma, 4, 1⟩⟩]
  last := ⟨[⟨.name "g", 6, 1⟩, ⟨.mark .lparen, 7, 1⟩, ⟨.name "y", 8, 1⟩, ⟨.mark .rparen, 9, 1⟩], ⟨.mark .rparen, 10, 1⟩⟩
  comma := by decide
  close := rfl

/-- `y, x = 1` -/
def assigningArguments : Arguments where
  front := [⟨[⟨.name "y", 2, 1⟩], ⟨.mark .comma, 3, 1⟩⟩]
  last := ⟨[⟨.name "x", 5, 1⟩, ⟨.mark .assign, 7, 1⟩, ⟨.number "1", 9, 1⟩], ⟨.mark .rparen, 10, 1⟩⟩
  comma := by decide
  close := rfl

def semicolon : Token :=
  ⟨.mark .semicolon, 11, 1⟩

def onlyX (name : String) : Option VarId :=
  if name = "x" then some 0 else none

theorem call_reads_arguments_without_targets_of_both :
    (∀ a ∈ plainArguments.all, ∃ e, (a.asStatement onlyX Span.origin semicolon).result = .ok e) ∧
    (∀ a ∈ assigningArguments.all, ∃ e, (a.asStatement onlyX Span.origin semicolon).result = .ok e) ∧
    (∃ es : List Expression,
      [.ok [.var 0, .operator .not], .ok [.call "g" [.mk [.number 0] ⟨8, 1⟩] ⟨6, 4⟩]] =
        es.map (fun e => (.ok e.items : Except Diagnostic (List Item))) ∧
      readInfix onlyX semicolon {} [] (plainArguments.call "f" ⟨0, 1⟩ ⟨1, 1⟩ ++ []) =
        (readInfix onlyX semicolon (Frame.push {} .operand (.call "f" es ⟨0, 11⟩) ⟨0, 11⟩) [] []).noting
          [⟨.undeclared "y", 8, 1⟩]) ∧
    (readInfix onlyX semicolon {} [] (assigningArguments.call "f" ⟨0, 1⟩ ⟨1, 1⟩ ++ [])).result =
      .error ⟨.invalidAssignmentTarget, 7, 1⟩ := by
  have hplain : ∀ a ∈ plainArguments.all, ∃ e, (a.asStatement onlyX Span.origin semicolon).result = .ok e :=
    List.forall_mem_cons.2 ⟨⟨_, rfl⟩, List.forall_mem_singleton.2 ⟨_, rfl⟩⟩
  have hassigning : ∀ a ∈ assigningArguments.all, ∃ e, (a.asStatement onlyX Span.origin semicolon).result = .ok e :=
    List.forall_mem_cons.2 ⟨⟨_, rfl⟩, List.forall_mem_singleton.2 ⟨_, rfl⟩⟩
  exact ⟨hplain, hassigning,
    (call_reads_arguments_without_targets onlyX Span.origin semicolon semicolon rfl [] "f" ⟨0, 1⟩ ⟨1, 1⟩ plainArguments
      [] hplain).1 (by decide),
    (call_reads_arguments_without_targets onlyX Span.origin semicolon semicolon rfl [] "f" ⟨0, 1⟩ ⟨1, 1⟩
      assigningArguments [] hassigning).2 _ rfl⟩

/-- An assignment that is a statement of the method is refused as the argument of a call in its place. -/
theorem assignment_refused_as_argument :
    (SourceUnit.ofText .w64 "object 8 A;8 f(8 x){x=1;}").2 = [] ∧
      (SourceUnit.ofText .w64 "object 8 A;8 f(8 x){f(x=1);}").2 = [⟨.invalidAssignmentTarget, 23, 1⟩] :=
  ⟨by decide +kernel, by decide +kernel⟩

end Bitpack
