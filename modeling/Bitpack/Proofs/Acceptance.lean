import Mathlib
import Bitpack.Proofs.Statements

/-! Expressions and statements that are read without a problem are those of the grammar whose names are
known where they stand. -/

namespace Bitpack

open Grammar (Decl Expr Stmt)

section Infix

/-- A run of tokens that is read to its end as an expression, after the place `p` and with `depth` parentheses
open. Around it are calls that stand behind as many open parentheses as `outer` says. -/
inductive Accepts : Place → ℕ → List ℕ → List Kind → Prop
  | finish {p : Place} (hp : p.allows .finish) : Accepts p 0 [] []
  | comma {p : Place} {d : ℕ} {ds : List ℕ} {ks : List Kind} (hp : p.allows .finish)
      (h : Accepts .start 0 (d :: ds) ks) : Accepts p 0 (d :: ds) (.mark .comma :: ks)
  | closing {p : Place} {depth : ℕ} {ds : List ℕ} {ks : List Kind} (hp : p.allows .closing)
      (h : Accepts .closing depth ds ks) : Accepts p (depth + 1) ds (.mark .rparen :: ks)
  | callEnd {p : Place} {d : ℕ} {ds : List ℕ} {ks : List Kind} (hp : p.allows .finish)
      (h : Accepts .operand d ds ks) : Accepts p 0 (d :: ds) (.mark .rparen :: ks)
  | opening {p : Place} {depth : ℕ} {ds : List ℕ} {ks : List Kind} (hp : p.allows .opening)
      (h : Accepts .opening (depth + 1) ds ks) : Accepts p depth ds (.mark .lparen :: ks)
  | complement {p : Place} {depth : ℕ} {ds : List ℕ} {ks : List Kind} (hp : p.allows .complement)
      (h : Accepts .complement depth ds ks) : Accepts p depth ds (.mark .tilde :: ks)
  | number {p : Place} {depth : ℕ} {ds : List ℕ} {ks : List Kind} {text : String} (hp : p.allows .operand)
      (hn : (Text.ofDecimal? (2 ^ 63) text.toList).isSome) (h : Accepts .operand depth ds ks) :
      Accepts p depth ds (.number text :: ks)
  | emptyCall {p : Place} {depth : ℕ} {ds : List ℕ} {ks : List Kind} {x : String} (hp : p.allows .operand)
      (h : Accepts .operand depth ds ks) : Accepts p depth ds (.name x :: .mark .lparen :: .mark .rparen :: ks)
  | call {p : Place} {depth : ℕ} {ds : List ℕ} {ks : List Kind} {x : String} (hp : p.allows .operand)
      (hks : ks.head? ≠ some (.mark .rparen)) (h : Accepts .start 0 (depth :: ds) ks) :
      Accepts p depth ds (.name x :: .mark .lparen :: ks)
  | var {p : Place} {depth : ℕ} {ds : List ℕ} {ks : List Kind} {x : String} (hp : p.allows .operand)
      (hks : ks.head? ≠ some (.mark .lparen)) (h : Accepts .operand depth ds ks) :
      Accepts p depth ds (.name x :: ks)
  | binary {p : Place} {depth : ℕ} {ds : List ℕ} {ks : List Kind} {k : Kind} {op : Operator}
      (hp : p.allows .binary) (hop : k.binary? = some op) (h : Accepts .binary depth ds ks) :
      Accepts p depth ds (k :: ks)

theorem readFinish_ok {stop : Token} {f : Frame} {calls : List OpenCall} {e : Expression}
    (h : (readFinish stop f calls).result = .ok e) : f.last.allows .finish ∧ f.depth = 0 ∧ calls = [] := by
  unfold readFinish at h
  split_ifs at h with hlast hdepth
  · cases h
  · cases h
  · cases calls with
    | nil => exact ⟨allows_of_not hlast, by omega, rfl⟩
    | cons c outer => cases h

variable {lookup : String → Option VarId} {stop : Token} {f : Frame} {calls : List OpenCall} {ts : List Token}

theorem head?_kinds_ne {ts : List Token} {k : Kind} (h : ∀ span rest, ts = ⟨k, span⟩ :: rest → False) :
    (ts.map (·.kind)).head? ≠ some k := by
  cases ts with
  | nil => simp
  | cons t ts =>
    intro ht
    obtain ⟨_, span⟩ := t
    cases ht
    exact h span ts rfl

theorem accepts_of_readInfix {e : Expression} (h : (readInfix lookup stop f calls ts).result = .ok e) :
    Accepts f.last f.depth (calls.map (·.outer.depth)) (ts.map (·.kind)) := by
  fun_induction readInfix lookup stop f calls ts
  case case1 =>
    obtain ⟨hlast, hdepth, rfl⟩ := readFinish_ok h
    rw [hdepth]
    exact .finish hlast
  case case4 hkind c outer hdepth hlast ih =>
    simp only [List.map_cons, hkind, Nat.eq_zero_of_not_pos hdepth]
    exact .comma (allows_of_not hlast) (ih h)
  case case7 hkind hdepth hlast ih =>
    rw [List.map_cons, hkind, ← Nat.succ_pred_eq_of_pos hdepth]
    exact .closing (allows_of_not hlast) (ih h)
  case case9 hkind hdepth c outer hlast _ ih =>
    simp only [List.map_cons, hkind, Nat.eq_zero_of_not_pos hdepth]
    exact .callEnd (allows_of_not hlast) (ih h)
  case case13 hkind hlast ih =>
    rw [List.map_cons, hkind]
    exact .opening (allows_of_not hlast) (ih h)
  case case15 hkind hlast ih =>
    rw [List.map_cons, hkind]
    exact .complement (allows_of_not hlast) (ih h)
  case case18 hkind hlast n hn ih =>
    rw [List.map_cons, hkind]
    exact .number (allows_of_not hlast) (Option.isSome_of_mem hn) (ih h)
  case case21 hkind hlast _ _ _ ih =>
    rw [List.map_cons, hkind]
    exact .emptyCall (allows_of_not hlast) (ih h)
  case case22 hkind hlast _ rest hrest ih =>
    rw [List.map_cons, hkind]
    exact .call (allows_of_not hlast) (head?_kinds_ne hrest) (ih h)
  case case23 hkind hlast _ _ hrest id hid ih =>
    rw [List.map_cons, hkind]
    exact .var (allows_of_not hlast) (head?_kinds_ne hrest) (ih h)
  case case24 hkind hlast _ _ hrest hid ih =>
    rw [List.map_cons, hkind]
    exact .var (allows_of_not hlast) (head?_kinds_ne hrest) (ih h)
  case case26 hlast _ _ _ _ _ _ _ hop ih => exact .binary (allows_of_not hlast) hop (ih h)
  all_goals cases h

/-- The reading succeeds, and nothing is noted exactly if the names `names` are known. -/
def Reading.Finds (r : Reading) (lookup : String → Option VarId) (names : List String) : Prop :=
  (∃ e, r.result = .ok e) ∧ (r.notes = [] ↔ ∀ x ∈ names, (lookup x).isSome)

theorem variableNames_name {x : String} {ks : List Kind} (h : ks.head? ≠ some (.mark .lparen)) :
    Grammar.variableNames (.name x :: ks) = x :: Grammar.variableNames ks := by
  rw [Grammar.variableNames]
  rintro ks' rfl
  exact h rfl

theorem variableNames_binary {k : Kind} {op : Operator} (h : k.binary? = some op) (ks : List Kind) :
    Grammar.variableNames (k :: ks) = Grammar.variableNames ks := by
  rw [Grammar.variableNames]
  · rintro x ks' rfl
    simp [Kind.binary?] at h
  · rintro x rfl
    simp [Kind.binary?] at h

/-- A run that is accepted is read to its end, whatever its names mean. -/
theorem readInfix_of_accepts {p : Place} {depth : ℕ} {ds : List ℕ} {ks : List Kind} (h : Accepts p depth ds ks)
    (lookup : String → Option VarId) (stop : Token) : ∀ {f : Frame} {calls : List OpenCall} {ts : List Token},
      f.last = p → f.depth = depth → calls.map (·.outer.depth) = ds → ts.map (·.kind) = ks →
      (readInfix lookup stop f calls ts).Finds lookup (Grammar.variableNames ks) := by
  induction h with
  | finish hp =>
    rintro f calls ts rfl hdepth hcalls hts
    obtain rfl := List.map_eq_nil_iff.1 hcalls
    obtain rfl := List.map_eq_nil_iff.1 hts
    rw [readInfix_nil]
    simp [readFinish, hp, hdepth, Reading.Finds, Grammar.variableNames]
  | comma hp _ ih =>
    rintro f calls ts rfl hdepth hcalls hts
    obtain ⟨span, rest, rfl, hks⟩ := exists_of_kinds_cons hts
    obtain ⟨c, outer, rfl, rfl, houter⟩ := List.map_eq_cons_iff.1 hcalls
    rw [readInfix_comma rfl, if_neg (by omega), if_neg (by simp [hp])]
    exact ih rfl rfl (by rw [← houter]; rfl) hks
  | closing hp _ ih =>
    rintro f calls ts rfl hdepth hcalls hts
    obtain ⟨span, rest, rfl, hks⟩ := exists_of_kinds_cons hts
    rw [readInfix_closing rfl (by omega), if_neg (by simp [hp])]
    exact ih rfl (congrArg Nat.pred hdepth) hcalls hks
  | callEnd hp _ ih =>
    rintro f calls ts rfl hdepth hcalls hts
    obtain ⟨span, rest, rfl, hks⟩ := exists_of_kinds_cons hts
    obtain ⟨c, outer, rfl, rfl, houter⟩ := List.map_eq_cons_iff.1 hcalls
    rw [readInfix_callEnd rfl (by omega), if_neg (by simp [hp])]
    exact ih rfl rfl houter hks
  | opening hp _ ih =>
    rintro f calls ts rfl hdepth hcalls hts
    obtain ⟨span, rest, rfl, hks⟩ := exists_of_kinds_cons hts
    rw [readInfix_opening rfl, if_neg (by simp [hp])]
    exact ih rfl (congrArg (· + 1) hdepth) hcalls hks
  | complement hp _ ih =>
    rintro f calls ts rfl hdepth hcalls hts
    obtain ⟨span, rest, rfl, hks⟩ := exists_of_kinds_cons hts
    rw [readInfix_complement rfl, if_neg (by simp [hp])]
    exact ih rfl hdepth hcalls hks
  | number hp hn _ ih =>
    rintro f calls ts rfl hdepth hcalls hts
    obtain ⟨span, rest, rfl, hks⟩ := exists_of_kinds_cons hts
    obtain ⟨n, hn⟩ := Option.isSome_iff_exists.1 hn
    rw [readInfix_number rfl, if_neg (by simp [hp]), show UInt64.size / 2 = 2 ^ 63 from rfl, hn]
    exact ih rfl hdepth hcalls hks
  | emptyCall hp _ ih =>
    rintro f calls ts rfl hdepth hcalls hts
    obtain ⟨span, ts₁, rfl, hts₁⟩ := exists_of_kinds_cons hts
    obtain ⟨lspan, ts₂, rfl, hts₂⟩ := exists_of_kinds_cons hts₁
    obtain ⟨rspan, rest, rfl, hks⟩ := exists_of_kinds_cons hts₂
    rw [readInfix_emptyCall rfl rfl rfl, if_neg (by simp [hp])]
    exact ih rfl hdepth hcalls hks
  | call hp hne _ ih =>
    rintro f calls ts rfl hdepth hcalls hts
    obtain ⟨span, ts₁, rfl, hts₁⟩ := exists_of_kinds_cons hts
    obtain ⟨lspan, rest, rfl, hks⟩ := exists_of_kinds_cons hts₁
    rw [readInfix_call rfl rfl (hks ▸ hne), if_neg (by simp [hp])]
    exact ih rfl rfl (congrArg₂ List.cons hdepth hcalls) hks
  | var hp hne _ ih =>
    rintro f calls ts rfl hdepth hcalls hts
    obtain ⟨span, rest, rfl, hks⟩ := exists_of_kinds_cons hts
    rw [readInfix_var rfl (hks ▸ hne), if_neg (by simp [hp]), variableNames_name hne]
    cases hx : lookup _ with
    | some id =>
      obtain ⟨he, hnotes⟩ := ih (f := f.push .operand (.var id) span) rfl hdepth hcalls hks
      exact ⟨he, by simp [hnotes, hx]⟩
    | none =>
      obtain ⟨he, -⟩ := ih (f := f.push .operand (.number 0) span) rfl hdepth hcalls hks
      exact ⟨he, by simp [Reading.note, hx]⟩
  | binary hp hop _ ih =>
    rintro f calls ts rfl hdepth hcalls hts
    obtain ⟨span, rest, rfl, hks⟩ := exists_of_kinds_cons hts
    rw [readInfix_binary hop, if_neg (by simp [hp]), variableNames_binary hop]
    exact ih rfl hdepth hcalls hks

theorem readInfix_finds {ks : List Kind} (h : Accepts .start 0 [] ks) (lookup : String → Option VarId) (stop : Token)
    {ts : List Token} (hts : ts.map (·.kind) = ks) :
    (readInfix lookup stop {} [] ts).Finds lookup (Grammar.variableNames ks) :=
  readInfix_of_accepts h lookup stop rfl rfl rfl hts

/-- The tokens that may stand in the value of an expression. -/
def Kind.inInfix : Kind → Bool
  | .number text => (Text.ofDecimal? (2 ^ 63) text.toList).isSome
  | .name _ | .mark .comma | .mark .rparen | .mark .lparen | .mark .tilde => true
  | k => k.binary?.isSome

theorem Kind.inInfix_of_binary {k : Kind} {op : Operator} (h : k.binary? = some op) : k.inInfix := by
  unfold Kind.binary? at h
  split at h
  case h_12 => cases h
  all_goals rfl

theorem Accepts.inInfix {p : Place} {depth : ℕ} {ds : List ℕ} {ks : List Kind} (h : Accepts p depth ds ks) :
    ∀ k ∈ ks, k.inInfix := by
  induction h with
  | finish => exact List.forall_mem_nil _
  | number hp hn _ ih => exact List.forall_mem_cons.2 ⟨hn, ih⟩
  | binary hp hop _ ih => exact List.forall_mem_cons.2 ⟨Kind.inInfix_of_binary hop, ih⟩
  | emptyCall _ _ ih =>
    exact List.forall_mem_cons.2 ⟨rfl, List.forall_mem_cons.2 ⟨rfl, List.forall_mem_cons.2 ⟨rfl, ih⟩⟩⟩
  | call _ _ _ ih => exact List.forall_mem_cons.2 ⟨rfl, List.forall_mem_cons.2 ⟨rfl, ih⟩⟩
  | comma _ _ ih | closing _ _ ih | callEnd _ _ ih | opening _ _ ih | complement _ _ ih | var _ _ _ ih =>
    exact List.forall_mem_cons.2 ⟨rfl, ih⟩

theorem Grammar.isInfix_iff {ks : List Kind} : Grammar.IsInfix ks ↔ Accepts .start 0 [] ks := by
  have hkinds : (ks.map (⟨·, Span.origin⟩) : List Token).map (·.kind) = ks := by
    rw [List.map_map]
    exact List.map_id ks
  constructor
  · rintro ⟨e, he⟩
    have haccepts := accepts_of_readInfix he
    rw [hkinds] at haccepts
    exact haccepts
  · intro h
    exact (readInfix_finds h _ _ hkinds).1

theorem Grammar.IsInfix.inInfix {ks : List Kind} (h : Grammar.IsInfix ks) : ∀ k ∈ ks, k.inInfix :=
  (Grammar.isInfix_iff.1 h).inInfix

theorem Grammar.IsInfix.ne_nil {ks : List Kind} (h : Grammar.IsInfix ks) : ks ≠ [] := by
  rintro rfl
  cases Grammar.isInfix_iff.1 h with
  | finish hp => cases hp

theorem Kind.not_endsHead_of_inInfix {k : Kind} (h : k.inInfix) : ¬ k.endsHead := by
  unfold Kind.endsHead
  split <;> simp_all [Kind.inInfix, Kind.binary?]

end Infix

section Expressions

theorem readTargets_sound (lookup : String → Option VarId) (targets : List VarId) (ts : List Token) :
    ∃ (names : List String) (front : List Token), ts = front ++ (readTargets lookup targets ts).2.2 ∧
      front.map (·.kind) = Grammar.targetKinds names ∧
      ((readTargets lookup targets ts).1 = [] → ∀ x ∈ names, (lookup x).isSome) := by
  fun_induction readTargets lookup targets ts with
  | case1 targets text span aspan rest id hid ih =>
    obtain ⟨names, front, hrest, hfront, hnames⟩ := ih
    refine ⟨text :: names, ⟨.name text, span⟩ :: ⟨.mark .assign, aspan⟩ :: front, ?_, ?_, ?_⟩
    · rw [List.cons_append, List.cons_append, ← hrest]
    · simp [hfront, Grammar.targetKinds]
    · exact fun h => List.forall_mem_cons.2 ⟨by simp [hid], hnames h⟩
  | case2 targets text span aspan rest hid notes result heq ih =>
    obtain ⟨names, front, hrest, hfront, -⟩ := ih
    rw [heq] at hrest
    refine ⟨text :: names, ⟨.name text, span⟩ :: ⟨.mark .assign, aspan⟩ :: front, ?_, ?_, ?_⟩
    · rw [List.cons_append, List.cons_append, ← hrest]
    · simp [hfront, Grammar.targetKinds]
    · exact fun h => absurd h (List.cons_ne_nil _ _)
  | case3 targets ts _ => exact ⟨[], [], rfl, rfl, fun _ => List.forall_mem_nil _⟩

theorem readTargets_complete {lookup : String → Option VarId} (targets : List VarId) {names : List String}
    {front rest : List Token} (hfront : front.map (·.kind) = Grammar.targetKinds names)
    (hnames : ∀ x ∈ names, (lookup x).isSome) (hrest : .mark .assign ∉ rest.map (·.kind)) :
    ∃ targets', readTargets lookup targets (front ++ rest) = ([], targets', rest) := by
  induction names generalizing front targets with
  | nil =>
    obtain rfl := List.map_eq_nil_iff.1 hfront
    refine ⟨targets, ?_⟩
    rw [List.nil_append]
    unfold readTargets
    split
    · simp at hrest
    · rfl
  | cons x names ih =>
    obtain ⟨hx, hnames⟩ := List.forall_mem_cons.1 hnames
    obtain ⟨s₁, ts, rfl, hts⟩ := exists_of_kinds_cons hfront
    obtain ⟨s₂, others, rfl, hothers⟩ := exists_of_kinds_cons hts
    obtain ⟨id, hid⟩ := Option.isSome_iff_exists.1 hx
    obtain ⟨targets', hread⟩ := ih (id :: targets) hothers hnames
    refine ⟨targets', ?_⟩
    simp only [List.cons_append, readTargets, hid]
    exact hread

theorem readExpression_ok (lookup : String → Option VarId) (targets : List VarId) (start : Span) (c : Clause) :
    (∃ e, (readExpression lookup targets start c).result = .ok e) ↔
      ∃ e, (readInfix lookup c.stop {} [] (readTargets lookup targets c.tokens).2.2).result = .ok e := by
  cases h : (readInfix lookup c.stop {} [] (readTargets lookup targets c.tokens).2.2).result <;>
    simp [readExpression, Except.map, h]

/-- What is read without a problem is `(NAME '=')* X`, with names that are known. -/
theorem readExpression_accepts {lookup : String → Option VarId} {known : List String}
    (hknown : ∀ x, (lookup x).isSome ↔ x ∈ known) (targets : List VarId) (start : Span) (c : Clause) :
    (readExpression lookup targets start c).notes = [] ∧ (∃ e, (readExpression lookup targets start c).result = .ok e) ↔
      ∃ e : Expr, e.kinds = c.tokens.map (·.kind) ∧ e.Valid known := by
  rw [readExpression_ok]
  constructor
  · rintro ⟨hnotes, e, he⟩
    obtain ⟨hfirst, hsecond⟩ := List.append_eq_nil_iff.1 hnotes
    obtain ⟨names, front, htokens, hfront, hnames⟩ := readTargets_sound lookup targets c.tokens
    have haccepts := accepts_of_readInfix he
    obtain ⟨-, hfinds⟩ := readInfix_finds haccepts lookup c.stop rfl
    refine ⟨⟨names, _⟩, ?_, Grammar.isInfix_iff.2 haccepts, ?_, ?_⟩
    · conv_rhs => rw [htokens, List.map_append, hfront]
      rfl
    · exact fun text htext => haccepts.inInfix _ htext
    · intro x hx
      rw [← hknown]
      rcases List.mem_append.1 hx with hx | hx
      · exact hnames hfirst x hx
      · exact hfinds.1 hsecond x hx
  · rintro ⟨⟨names, value⟩, hkinds, hvalue, -, hnames⟩
    obtain ⟨front, rest, htokens, hfront, hrest⟩ := exists_of_kinds_append hkinds.symm
    have hassign : .mark .assign ∉ rest.map (·.kind) := by
      intro hmem
      cases hvalue.inInfix _ (hrest ▸ hmem)
    obtain ⟨targets', hread⟩ := readTargets_complete targets hfront
      (fun x hx => (hknown x).2 (hnames x (List.mem_append_left _ hx))) hassign
    obtain ⟨hok, hfinds⟩ := readInfix_finds (Grammar.isInfix_iff.1 hvalue) lookup c.stop hrest
    rw [readExpression, htokens, hread]
    exact ⟨hfinds.2 fun x hx => (hknown x).2 (hnames x (List.mem_append_right _ hx)), hok⟩

theorem Grammar.Expr.Valid.kinds_ne_nil {known : List String} {e : Expr} (h : e.Valid known) : e.kinds ≠ [] := by
  intro hnil
  exact h.value.ne_nil (List.append_eq_nil_iff.1 hnil).2

/-- An expression cannot be taken for a return. -/
theorem Grammar.Expr.Valid.head_ne_returns {known : List String} {e : Expr} (h : e.Valid known) {k : Kind}
    {ks : List Kind} (hk : e.kinds = k :: ks) : k ≠ .keyword .returns := by
  rintro rfl
  obtain ⟨targets, value⟩ := e
  cases targets with
  | nil =>
    obtain rfl : value = _ :: ks := hk
    cases h.value.inInfix _ List.mem_cons_self
  | cons x targets => cases hk

end Expressions

section Scopes

/-- The variable `id` is as it was declared. -/
structure Grammar.Decl.Gives (vars : Array Variable) (g : Decl) (id : VarId) : Prop where
  valid : id < vars.size
  name : (vars.getD id default).name = g.name
  width : (vars.getD id default).width = g.bits

theorem Grammar.Decl.Gives.grows {vars vars' : Array Variable} {g : Decl} {id : VarId} (h : g.Gives vars id)
    (hgrow : Grows vars vars') : g.Gives vars' id := by
  refine ⟨h.valid.trans_le hgrow.size_le, ?_, ?_⟩ <;> rw [hgrow.getD_eq id h.valid]
  · exact h.name
  · exact h.width

theorem Grammar.Decl.Declares.valid_iff {g : Decl} {d : Declarator} (h : g.Declares d) : g.Valid ↔ d.width ≠ 0 := by
  simp [Grammar.Decl.Valid, h.width]

theorem Declarator.checkedWidth_eq_nil {d : Declarator} : d.checkedWidth.2 = [] ↔ d.width ≠ 0 := by
  unfold Declarator.checkedWidth
  split_ifs with h <;> simp [h]

theorem Grammar.Decl.Declares.toVariable_width {g : Decl} {d : Declarator} (h : g.Declares d) (hvalid : g.Valid)
    (storage : Storage) : (d.toVariable storage).width = g.bits := by
  have hwidth : d.width ≠ 0 := h.valid_iff.1 hvalid
  simp [Declarator.toVariable, Declarator.checkedWidth, hwidth, Grammar.Decl.bits, h.width]

theorem Grammar.Decl.Declares.gives {g : Decl} {d : Declarator} (h : g.Declares d) (hvalid : g.Valid)
    (vars : Array Variable) (storage : Storage) : g.Gives (vars.push (d.toVariable storage)) vars.size := by
  refine ⟨by simp, ?_, ?_⟩ <;> rw [getD_push_size]
  · exact h.name.symm
  · exact h.toVariable_width hvalid storage

/-- A scope in which the names `known` can be looked up, and with the locals that have been declared. -/
structure Scope.Tracks (s : Scope) (known : List String) (locals : List Decl) : Prop where
  valid : ∀ id ∈ s.result :: s.params, id < s.vars.size
  names : ∀ x, (s.lookup x).isSome ↔ x ∈ known
  locals : List.Forall₂ (Decl.Gives s.vars) locals (s.locals.toList.map (·.id))

namespace Scope

variable {s : Scope} {known : List String} {locals : List Decl}

theorem isSome_lookup {x : String} : (s.lookup x).isSome ↔ (∃ l ∈ s.locals, l.name = x) ∨
    ∃ id ∈ s.result :: s.params, (s.vars.getD id default).name = x := by
  rw [← not_iff_not, Bool.not_eq_true, Option.isSome_eq_false_iff, Option.isNone_iff_eq_none, lookup_eq_none]
  push Not
  rfl

theorem isSome_lookup_declare (hvalid : ∀ id ∈ s.result :: s.params, id < s.vars.size) (d : Declarator)
    (x : String) : ((s.declare d).lookup x).isSome ↔ x = d.name ∨ (s.lookup x).isSome := by
  have hold : ∀ id ∈ s.result :: s.params, (s.declare d).vars.getD id default = s.vars.getD id default :=
    fun id hid => (grows_push s.vars _).getD_eq id (hvalid id hid)
  have hheads : (∃ id ∈ s.result :: s.params, ((s.declare d).vars.getD id default).name = x) ↔
      ∃ id ∈ s.result :: s.params, (s.vars.getD id default).name = x :=
    exists_congr fun id => and_congr_right fun hid => by rw [hold id hid]
  rw [isSome_lookup, isSome_lookup]
  change (∃ l ∈ s.locals.push _, _) ∨ (∃ id ∈ s.result :: s.params, _) ↔ _
  rw [hheads]
  simp [Array.mem_push, or_and_right, exists_or, or_assoc, or_comm, eq_comm]

theorem Tracks.declare (h : s.Tracks known locals) {g : Decl} {d : Declarator} (hg : g.Declares d) (hvalid : g.Valid) :
    (s.declare d).Tracks (g.name :: known) (locals ++ [g]) := by
  have hgrow : Grows s.vars (s.declare d).vars := grows_push s.vars _
  refine ⟨fun id hid => (h.valid id hid).trans_le hgrow.size_le, ?_, ?_⟩
  · intro x
    rw [isSome_lookup_declare h.valid, h.names, hg.name, List.mem_cons]
  · have hlocals : (s.declare d).locals.toList.map (·.id) = s.locals.toList.map (·.id) ++ [s.vars.size] := by
      simp [Scope.declare]
    rw [hlocals]
    refine List.rel_append (h.locals.imp fun g id hgives => hgives.grows hgrow) ?_
    exact .cons (hg.gives hvalid _ _) .nil

theorem Tracks.push (h : s.Tracks known locals) (st : Statement) : (s.push st).Tracks known locals :=
  ⟨h.valid, h.names, h.locals⟩

theorem keep_faults {stop : Token} {r : Reading} {statement : Expression → Statement} :
    (s.keep stop r statement).2 = [] ↔
      stop.kind = .mark .semicolon ∧ r.notes = [] ∧ ∃ e, r.result = .ok e := by
  unfold keep
  split
  · simp_all
  · split_ifs <;> simp_all

theorem Tracks.keep (h : s.Tracks known locals) (stop : Token) (r : Reading) (statement : Expression → Statement) :
    (s.keep stop r statement).1.Tracks known locals := by
  unfold Scope.keep
  split
  · exact h
  · split_ifs
    · exact h.push _
    · exact h
    · exact h

end Scope

/-- A statement whose tokens are those of the clause. Only an empty one may lack its semicolon. -/
structure Grammar.Stmt.Written (st : Stmt) (c : Clause) : Prop where
  kinds : st.kinds = c.tokens.map (·.kind)
  stop : c.tokens ≠ [] → c.stop.kind = .mark .semicolon

namespace Scope

variable {s : Scope} {known : List String} {locals : List Decl} {c : Clause}

theorem declaration_sound (h : s.Tracks known locals) (hf : (s.declaration c).2 = []) :
    ∃ st : Stmt, st.Written c ∧ st.Valid known := by
  unfold declaration at hf
  cases hd : Read.declarator c with
  | error d => simp [hd] at hf
  | ok p =>
    obtain ⟨decl, c'⟩ := p
    obtain ⟨g, front, rfl, hfront, hg⟩ := Read.declarator_sound hd
    simp only [hd] at hf
    split_ifs at hf with hname
    have hnew : g.name ∉ known := by
      rw [hg.name, ← h.names]
      exact hname
    split at hf
    · rename_i span rest htokens
      obtain ⟨hwidth, hkeep⟩ := List.append_eq_nil_iff.1 hf
      have hvalid : g.Valid := hg.valid_iff.2 (Declarator.checkedWidth_eq_nil.1 hwidth)
      obtain ⟨hstop, hread⟩ := keep_faults.1 hkeep
      obtain ⟨e, he, hexpr⟩ := (readExpression_accepts (h.declare hg hvalid).names _ _ _).1 hread
      refine ⟨.declare g (some e), ⟨?_, fun _ => hstop⟩, hvalid, hnew, ?_⟩
      · simp [Stmt.kinds, htokens, hfront, he]
      · rintro _ ⟨⟩
        exact hexpr
    · split at hf
      · rename_i r hend
        obtain ⟨-, hnil, hstop⟩ := Read.stop_ok.1 hend
        refine ⟨.declare g none, ⟨?_, fun _ => List.mem_singleton.1 hstop⟩, ?_, hnew, fun e he => nomatch he⟩
        · simp [Stmt.kinds, hnil, hfront]
        · exact hg.valid_iff.2 (Declarator.checkedWidth_eq_nil.1 hf)
      · simp at hf

theorem declaration_complete (h : s.Tracks known locals) {g : Decl} {init : Option Expr}
    (hkinds : (Stmt.declare g init).kinds = c.tokens.map (·.kind)) (hstop : c.stop.kind = .mark .semicolon)
    (hvalid : (Stmt.declare g init).Valid known) :
    (s.declaration c).2 = [] ∧ (s.declaration c).1.Tracks (g.name :: known) (locals ++ [g]) := by
  obtain ⟨hg, hnew, hinit⟩ := hvalid
  obtain ⟨n, hn, -⟩ := id hg
  obtain ⟨tokens, stop⟩ := c
  obtain ⟨front, rest, rfl, hfront, hrest⟩ := exists_of_kinds_append hkinds.symm
  have hends : EndsName rest := by
    intro x span hx
    obtain ⟨others, rfl⟩ := List.head?_eq_some_iff.1 hx
    cases init <;> cases hrest
  obtain ⟨d, hd, hdecl⟩ := Read.declarator_complete rest stop hfront hn hends
  have hwidth : d.checkedWidth.2 = [] := Declarator.checkedWidth_eq_nil.2 (hdecl.valid_iff.1 hg)
  have hfree : ¬ (s.lookup d.name).isSome := by
    rw [h.names, ← hdecl.name]
    exact hnew
  have htracks := h.declare hdecl hg
  unfold declaration
  simp only [hd, if_neg hfree, hwidth, List.nil_append]
  cases init with
  | none =>
    obtain rfl := List.map_eq_nil_iff.1 hrest
    have hend : Read.stop [.mark .semicolon] "';'" ⟨[], stop⟩ = .ok ((), ⟨[], stop⟩) :=
      Read.stop_ok.2 ⟨rfl, rfl, List.mem_singleton.2 hstop⟩
    simp only [hend]
    exact ⟨trivial, htracks⟩
  | some e =>
    obtain ⟨span, value, rfl, hvalue⟩ := exists_of_kinds_cons hrest
    refine ⟨keep_faults.2 ⟨hstop, ?_⟩, htracks.keep _ _ _⟩
    exact (readExpression_accepts htracks.names _ _ _).2 ⟨e, hvalue.symm, hinit e rfl⟩

theorem statement_sound (h : s.Tracks known locals) (hf : (s.statement c).2 = []) :
    ∃ st : Stmt, st.Written c ∧ st.Valid known := by
  obtain ⟨tokens, stop⟩ := c
  unfold statement at hf
  split at hf
  · rename_i htokens
    obtain rfl : tokens = [] := htokens
    exact ⟨.empty, ⟨rfl, fun hne => absurd rfl hne⟩, trivial⟩
  · rename_i span rest htokens
    obtain rfl : tokens = _ :: rest := htokens
    split_ifs at hf with hnone
    · rw [Bool.and_eq_true, List.isEmpty_iff, decide_eq_true_iff] at hnone
      obtain ⟨rfl, hstop⟩ := hnone
      exact ⟨.ret none, ⟨rfl, fun _ => hstop⟩, fun e he => nomatch he⟩
    · obtain ⟨hstop, hread⟩ := keep_faults.1 hf
      obtain ⟨e, he, hvalid⟩ := (readExpression_accepts h.names _ _ _).1 hread
      refine ⟨.ret (some e), ⟨congrArg (List.cons _) he, fun _ => hstop⟩, ?_⟩
      rintro _ ⟨⟩
      exact hvalid
  · exact declaration_sound h hf
  · rename_i t rest hreturn hnumber htokens
    obtain rfl : tokens = t :: rest := htokens
    obtain ⟨hstop, hread⟩ := keep_faults.1 hf
    obtain ⟨e, he, hvalid⟩ := (readExpression_accepts h.names _ _ _).1 hread
    refine ⟨.eval e, ⟨he, fun _ => hstop⟩, hvalid, ?_⟩
    intro text htext
    rw [he] at htext
    obtain ⟨_, span⟩ := t
    cases htext
    exact hnumber text span rfl

/-- A statement that declares nothing leaves the names and the locals as they are. -/
theorem complete_of_declares_nothing {st : Stmt} (hst : st.declared = []) (hf : (s.statement c).2 = [])
    (h : (s.statement c).1.Tracks known locals) : (s.statement c).2 = [] ∧
      (s.statement c).1.Tracks (st.declared.map (·.name) ++ known) (locals ++ st.declared) := by
  rw [hst, List.append_nil]
  exact ⟨hf, h⟩

theorem statement_complete (h : s.Tracks known locals) {st : Stmt} (hst : st.Written c) (hvalid : st.Valid known) :
    (s.statement c).2 = [] ∧
      (s.statement c).1.Tracks (st.declared.map (·.name) ++ known) (locals ++ st.declared) := by
  obtain ⟨tokens, stop⟩ := c
  obtain ⟨hkinds, hstop⟩ := hst
  cases st with
  | empty =>
    obtain rfl : tokens = [] := List.map_eq_nil_iff.1 hkinds.symm
    exact complete_of_declares_nothing rfl rfl h
  | ret e =>
    obtain ⟨span, rest, rfl, hrest⟩ := exists_of_kinds_cons hkinds.symm
    have hsemicolon : stop.kind = .mark .semicolon := hstop (List.cons_ne_nil _ _)
    refine complete_of_declares_nothing rfl ?_ ?_
    · cases e with
      | none =>
        obtain rfl := List.map_eq_nil_iff.1 hrest
        simp [statement, hsemicolon]
      | some e =>
        have hread := (readExpression_accepts h.names [s.result] span ⟨rest, stop⟩).2 ⟨e, hrest.symm, hvalid e rfl⟩
        simp only [statement]
        split_ifs
        · rfl
        · exact keep_faults.2 ⟨hsemicolon, hread⟩
    · simp only [statement]
      split_ifs
      · exact h.push _
      · exact h.keep _ _ _
  | declare g init =>
    obtain ⟨span, rest, rfl, -⟩ := exists_of_kinds_cons hkinds.symm
    exact declaration_complete h hkinds (hstop (List.cons_ne_nil _ _)) hvalid
  | eval e =>
    obtain ⟨k, ks, hk⟩ := List.exists_cons_of_ne_nil hvalid.1.kinds_ne_nil
    have hreturns := hvalid.1.head_ne_returns hk
    have hnumber : ∀ text, k ≠ .number text := by
      rintro text rfl
      exact hvalid.2 text (by rw [hk]; rfl)
    obtain ⟨span, rest, rfl, -⟩ := exists_of_kinds_cons (hkinds.symm.trans hk)
    have hread := (readExpression_accepts h.names [] span ⟨⟨k, span⟩ :: rest, stop⟩).2 ⟨e, hkinds, hvalid.1⟩
    have heq : s.statement ⟨⟨k, span⟩ :: rest, stop⟩ =
        s.keep stop (readExpression s.lookup [] span ⟨⟨k, span⟩ :: rest, stop⟩) .eval := by
      rw [statement]
      split
      · rename_i htokens
        cases htokens
      · rename_i htokens
        cases htokens
        exact absurd rfl hreturns
      · rename_i text _ _ htokens
        cases htokens
        exact absurd rfl (hnumber text)
      · rename_i htokens
        cases htokens
        rfl
    refine complete_of_declares_nothing rfl ?_ ?_ <;> rw [heq]
    · exact keep_faults.2 ⟨hstop (List.cons_ne_nil _ _), hread⟩
    · exact h.keep _ _ _

theorem readAll_sound (cs : List Clause) : ∀ {s : Scope} {known : List String} {locals : List Decl},
    s.Tracks known locals → (s.readAll cs).2 = [] →
      ∃ sts, List.Forall₂ Stmt.Written sts cs ∧ Grammar.ValidStmts known sts := by
  induction cs with
  | nil => exact fun _ _ => ⟨[], .nil, trivial⟩
  | cons c cs ih =>
    intro s known locals h hf
    obtain ⟨hfirst, hothers⟩ := List.append_eq_nil_iff.1 hf
    obtain ⟨st, hst, hvalid⟩ := statement_sound h hfirst
    obtain ⟨-, htracks⟩ := statement_complete h hst hvalid
    obtain ⟨sts, hsts, hvalids⟩ := ih htracks hothers
    exact ⟨st :: sts, .cons hst hsts, hvalid, hvalids⟩

theorem readAll_complete {sts : List Stmt} {cs : List Clause} (hsts : List.Forall₂ Stmt.Written sts cs) :
    ∀ {s : Scope} {known : List String} {locals : List Decl}, s.Tracks known locals → Grammar.ValidStmts known sts →
      (s.readAll cs).2 = [] ∧ ∃ known', (s.readAll cs).1.Tracks known' (locals ++ sts.flatMap Stmt.declared) := by
  induction hsts with
  | nil =>
    intro s known locals h _
    refine ⟨rfl, known, ?_⟩
    rw [List.flatMap_nil, List.append_nil]
    exact h
  | cons hst _ ih =>
    rintro s known locals h ⟨hvalid, hvalids⟩
    obtain ⟨hf, htracks⟩ := statement_complete h hst hvalid
    obtain ⟨hfs, known', htracks'⟩ := ih htracks hvalids
    refine ⟨List.append_eq_nil_iff.2 ⟨hf, hfs⟩, known', ?_⟩
    rw [List.flatMap_cons, ← List.append_assoc]
    exact htracks'

end Scope
end Scopes

section Blocks

/-- A body whose statements are those of the block, down to the brace that closes it. -/
structure Block.Says (sts : List Stmt) (b : Block) : Prop where
  close : b.close.kind = .mark .rbrace
  statements : List.Forall₂ Stmt.Written sts b.clauses

/-- If no clause lacks its semicolon then nothing of the text is lost in the clauses. -/
theorem Block.split_text {finish : Token} (ts : List Token) : ∀ {b : Block} {rest : List Token},
    Block.split finish ts = (b, rest) → b.close.kind = .mark .rbrace → finish.kind ≠ .mark .rbrace →
    (∀ c ∈ b.clauses, c.tokens ≠ [] → c.stop.kind = .mark .semicolon) →
      ts = b.clauses.flatMap Clause.text ++ b.close :: rest ∧ ∀ c ∈ b.clauses, c.stop.kind = .mark .semicolon := by
  induction ts with
  | nil =>
    rintro b rest ⟨⟩ hclose hfinish
    exact absurd hclose hfinish
  | cons t ts ih =>
    intro b rest hsplit hclose hfinish hstops
    cases hts : Block.split finish ts with
    | mk b' rest' =>
    rw [Block.split, hts] at hsplit
    split_ifs at hsplit with hbrace hsemicolon
    · cases hsplit
      exact ⟨rfl, List.forall_mem_nil _⟩
    · cases hsplit
      obtain ⟨htext, hall⟩ := ih hts hclose hfinish (List.forall_mem_cons.1 hstops).2
      refine ⟨?_, List.forall_mem_cons.2 ⟨hsemicolon, hall⟩⟩
      simp [Clause.text, ← htext]
    · cases hsplit
      obtain ⟨clauses, close⟩ := b'
      cases clauses with
      | nil =>
        -- The brace would have to be a semicolon.
        have hstop : close.kind = .mark .semicolon := hstops ⟨[t], close⟩ List.mem_cons_self (by simp)
        cases hstop.symm.trans hclose
      | cons c cs =>
        obtain ⟨hc, hcs⟩ := List.forall_mem_cons.1 hstops
        have hstop : c.stop.kind = .mark .semicolon := hc (List.cons_ne_nil _ _)
        obtain ⟨htext, hall⟩ := ih hts hclose hfinish (List.forall_mem_cons.2 ⟨fun _ => hstop, hcs⟩)
        refine ⟨?_, List.forall_mem_cons.2 ⟨hstop, (List.forall_mem_cons.1 hall).2⟩⟩
        simp [htext, Clause.text, Block.cons]

theorem stop_of_written {sts : List Stmt} {cs : List Clause} (h : List.Forall₂ Stmt.Written sts cs) :
    ∀ c ∈ cs, c.tokens ≠ [] → c.stop.kind = .mark .semicolon := by
  induction h with
  | nil => exact List.forall_mem_nil _
  | cons hst _ ih => exact List.forall_mem_cons.2 ⟨hst.stop, ih⟩

theorem kinds_of_written {sts : List Stmt} {cs : List Clause} (h : List.Forall₂ Stmt.Written sts cs)
    (hstops : ∀ c ∈ cs, c.stop.kind = .mark .semicolon) :
    (cs.flatMap Clause.text).map (·.kind) = sts.flatMap fun st => st.kinds ++ [.mark .semicolon] := by
  induction h with
  | nil => rfl
  | cons hst _ ih =>
    obtain ⟨hstop, hstops⟩ := List.forall_mem_cons.1 hstops
    simp [Clause.text, hst.kinds, hstop, ih hstops]

theorem Block.split_sound {finish : Token} {ts rest : List Token} {b : Block} {sts : List Stmt}
    (hsplit : Block.split finish ts = (b, rest)) (hfinish : finish.kind ≠ .mark .rbrace) (h : Block.Says sts b) :
    ts.map (·.kind) = Grammar.blockKinds sts ++ rest.map (·.kind) := by
  obtain ⟨rfl, hall⟩ := Block.split_text ts hsplit h.close hfinish (stop_of_written h.statements)
  simp [kinds_of_written h.statements hall, Grammar.blockKinds, h.close]

theorem Grammar.Decl.not_endsHead (d : Decl) : ∀ k ∈ d.kinds, ¬ k.endsHead := by
  obtain ⟨width, cast, name⟩ := d
  cases cast <;> simp [Grammar.Decl.kinds, Kind.endsHead]

theorem Grammar.Expr.Valid.not_endsHead {known : List String} {e : Expr} (h : e.Valid known) :
    ∀ k ∈ e.kinds, ¬ k.endsHead := by
  refine List.forall_mem_append.2 ⟨?_, fun k hk => Kind.not_endsHead_of_inInfix (h.value.inInfix k hk)⟩
  intro k hk
  obtain ⟨x, -, hx⟩ := List.mem_flatMap.1 hk
  rcases List.mem_pair.1 hx with rfl | rfl <;> simp [Kind.endsHead]

theorem Grammar.Stmt.Valid.not_endsHead {known : List String} {st : Stmt} (h : st.Valid known) :
    ∀ k ∈ st.kinds, ¬ k.endsHead := by
  cases st with
  | empty => exact List.forall_mem_nil _
  | ret e =>
    refine List.forall_mem_cons.2 ⟨by decide, ?_⟩
    cases e with
    | none => exact List.forall_mem_nil _
    | some e => exact (h e rfl).not_endsHead
  | declare d init =>
    refine List.forall_mem_append.2 ⟨d.not_endsHead, ?_⟩
    cases init with
    | none => exact List.forall_mem_nil _
    | some e => exact List.forall_mem_cons.2 ⟨by decide, (h.2.2 e rfl).not_endsHead⟩
  | eval e => exact h.1.not_endsHead

/-- The statements of a body, each as a clause of its own. -/
theorem exists_clauses_of_kinds {sts : List Stmt} : ∀ {known : List String} {ts : List Token},
    Grammar.ValidStmts known sts → ts.map (·.kind) = (sts.flatMap fun st => st.kinds ++ [.mark .semicolon]) →
      ∃ cs : List Clause, ts = cs.flatMap Clause.text ∧ List.Forall₂ Stmt.Written sts cs ∧ ∀ c ∈ cs, c.IsChunk := by
  induction sts with
  | nil =>
    intro known ts _ hts
    exact ⟨[], List.map_eq_nil_iff.1 hts, .nil, List.forall_mem_nil _⟩
  | cons st sts ih =>
    rintro known ts ⟨hvalid, hvalids⟩ hts
    obtain ⟨first, others, rfl, hfirst, hothers⟩ := exists_of_kinds_append hts
    obtain ⟨front, last, rfl, hfront, hlast⟩ := exists_of_kinds_append hfirst
    obtain ⟨span, nothing, rfl, hnothing⟩ := exists_of_kinds_cons hlast
    obtain rfl := List.map_eq_nil_iff.1 hnothing
    obtain ⟨cs, rfl, hcs, hchunks⟩ := ih hvalids hothers
    refine ⟨⟨front, ⟨.mark .semicolon, span⟩⟩ :: cs, by simp [Clause.text], .cons ⟨hfront.symm, fun _ => rfl⟩ hcs, ?_⟩
    refine List.forall_mem_cons.2 ⟨⟨rfl, ?_⟩, hchunks⟩
    intro t ht
    exact hvalid.not_endsHead _ (hfront ▸ List.mem_map_of_mem ht)

theorem Block.split_complete (finish : Token) {sts : List Stmt} {known : List String} {ts : List Token}
    (rest : List Token) (hvalid : Grammar.ValidStmts known sts) (hts : ts.map (·.kind) = Grammar.blockKinds sts) :
    ∃ b, Block.split finish (ts ++ rest) = (b, rest) ∧ Block.Says sts b := by
  obtain ⟨front, last, rfl, hfront, hlast⟩ := exists_of_kinds_append hts
  obtain ⟨span, nothing, rfl, hnothing⟩ := exists_of_kinds_cons hlast
  obtain rfl := List.map_eq_nil_iff.1 hnothing
  obtain ⟨cs, rfl, hcs, hchunks⟩ := exists_clauses_of_kinds hvalid hfront
  refine ⟨⟨cs, ⟨.mark .rbrace, span⟩⟩, ?_, rfl, hcs⟩
  rw [List.append_assoc]
  exact Block.split_chunks finish hchunks rfl rest

end Blocks
end Bitpack
