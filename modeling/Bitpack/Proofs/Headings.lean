import Mathlib
import Bitpack.Proofs.Grammar

/-! Declarators, parameters and headings are read from exactly the tokens of their syntax trees. -/

namespace Bitpack

open Grammar (Decl)

theorem exists_of_kinds_cons {ts : List Token} {k : Kind} {ks : List Kind} (h : ts.map (·.kind) = k :: ks) :
    ∃ span rest, ts = ⟨k, span⟩ :: rest ∧ rest.map (·.kind) = ks := by
  obtain ⟨⟨_, span⟩, rest, rfl, rfl, hrest⟩ := List.map_eq_cons_iff.1 h
  exact ⟨span, rest, rfl, hrest⟩

theorem exists_of_kinds_append {ts : List Token} {ks ks' : List Kind} (h : ts.map (·.kind) = ks ++ ks') :
    ∃ front rest, ts = front ++ rest ∧ front.map (·.kind) = ks ∧ rest.map (·.kind) = ks' :=
  List.map_eq_append_iff.1 h

theorem except_bind_ok {α β ε : Type} {x : Except ε α} {f : α → Except ε β} {b : β} :
    x >>= f = .ok b ↔ ∃ a, x = .ok a ∧ f a = .ok b := by
  cases x <;> simp [bind, Except.bind]

namespace Read

variable {α β : Type}

theorem bind_ok {x : Read α} {f : α → Read β} {c : Clause} {r : β × Clause} :
    (x >>= f) c = .ok r ↔ ∃ a c', x c = .ok (a, c') ∧ f a c' = .ok r := by
  change (x c >>= fun p => f p.1 p.2) = .ok r ↔ _
  rw [except_bind_ok]
  exact Prod.exists

theorem number_ok {expected : String} {c c' : Clause} {n : ℕ} : number expected c = .ok (n, c') ↔
    ∃ text span, c = ⟨⟨.number text, span⟩ :: c'.tokens, c'.stop⟩ ∧
      Text.ofDecimal? UInt64.size text.toList = some n := by
  obtain ⟨tokens, stop⟩ := c
  unfold number
  constructor
  · intro h
    split at h
    · rename_i text span rest htokens
      split at h
      · rename_i m hm
        cases h
        exact ⟨text, span, congrArg (Clause.mk · stop) htokens, hm⟩
      · cases h
    · cases h
  · rintro ⟨text, span, ⟨⟩, hn⟩
    simp only [hn]

theorem name_ok {c c' : Clause} {x : String} {span : Span} : name c = .ok ((x, span), c') ↔
    c = ⟨⟨.name x, span⟩ :: c'.tokens, c'.stop⟩ := by
  obtain ⟨tokens, stop⟩ := c
  unfold name
  constructor
  · intro h
    split at h
    · rename_i htokens
      cases h
      exact congrArg (Clause.mk · stop) htokens
    · cases h
  · rintro ⟨⟩
    rfl

theorem mark_ok {m : Mark} {c c' : Clause} {r : Unit} : mark m c = .ok (r, c') ↔
    ∃ span, c = ⟨⟨.mark m, span⟩ :: c'.tokens, c'.stop⟩ := by
  obtain ⟨tokens, stop⟩ := c
  unfold mark
  constructor
  · intro h
    simp only at h
    split at h
    · rename_i m' span rest
      split_ifs at h with hm
      cases h
      subst hm
      exact ⟨span, rfl⟩
    · cases h
  · rintro ⟨span, ⟨⟩⟩
    simp

theorem stop_ok {kinds : List Kind} {expected : String} {c c' : Clause} {r : Unit} :
    stop kinds expected c = .ok (r, c') ↔ c' = c ∧ c.tokens = [] ∧ c.stop.kind ∈ kinds := by
  unfold stop
  split_ifs with h
  · simp only [Bool.and_eq_true, List.isEmpty_iff, List.contains_iff_mem] at h
    simp [h, eq_comm]
  · simp only [Bool.and_eq_true, List.isEmpty_iff, List.contains_iff_mem] at h
    simp only [false_iff, not_and]
    exact fun _ ht hs => h ⟨ht, hs⟩

end Read

/-- A declarator as it is read from its syntax tree. -/
structure Grammar.Decl.Declares (g : Decl) (d : Declarator) : Prop where
  width : g.bits? = some d.width
  name : g.name = d.name

/-- The next token is no name. -/
def EndsName (rest : List Token) : Prop :=
  ∀ x span, rest.head? ≠ some ⟨.name x, span⟩

namespace Read

theorem declarator_sound {c c' : Clause} {d : Declarator} (h : declarator c = .ok (d, c')) :
    ∃ (g : Decl) (front : List Token), c = ⟨front ++ c'.tokens, c'.stop⟩ ∧ front.map (·.kind) = g.kinds ∧
      g.Declares d := by
  unfold declarator at h
  cases hn : number "bit width" c with
  | error e => simp [hn, bind, Except.bind] at h
  | ok p =>
    obtain ⟨w, c₁⟩ := p
    cases hm : name c₁ with
    | error e => simp [hn, hm, bind, Except.bind] at h
    | ok q =>
      obtain ⟨⟨first, span⟩, c₂⟩ := q
      simp only [hn, hm, bind, Except.bind] at h
      obtain ⟨text, wspan, rfl, hw⟩ := number_ok.1 hn
      obtain rfl := name_ok.1 hm
      split at h
      · rename_i second last rest htokens
        cases h
        refine ⟨⟨text, some first, second⟩, [⟨_, wspan⟩, ⟨_, span⟩, ⟨_, last⟩], ?_, rfl, hw, rfl⟩
        simp [htokens]
      · cases h
        exact ⟨⟨text, none, first⟩, [⟨_, wspan⟩, ⟨_, span⟩], rfl, rfl, hw, rfl⟩

theorem declarator_complete {g : Decl} {front : List Token} (rest : List Token) (stop : Token) {n : ℕ}
    (hfront : front.map (·.kind) = g.kinds) (hn : g.bits? = some n) (hrest : EndsName rest) :
    ∃ d, declarator ⟨front ++ rest, stop⟩ = .ok (d, ⟨rest, stop⟩) ∧ g.Declares d := by
  obtain ⟨width, cast, name⟩ := g
  obtain ⟨wspan, ts, rfl, hts⟩ := exists_of_kinds_cons hfront
  have hnumber : ∀ ts, number "bit width" ⟨⟨.number width, wspan⟩ :: ts, stop⟩ = .ok (n, ⟨ts, stop⟩) :=
    fun ts => number_ok.2 ⟨width, wspan, rfl, hn⟩
  cases cast with
  | none =>
    obtain ⟨span, ts', rfl, hnil⟩ := exists_of_kinds_cons hts
    obtain rfl := List.map_eq_nil_iff.1 hnil
    refine ⟨⟨n, none, name, wspan.join span⟩, ?_, hn, rfl⟩
    simp only [declarator, List.cons_append, List.nil_append, hnumber, Read.name, bind, Except.bind]
    split
    · rename_i second last rest'
      exact absurd rfl (hrest second last)
    · rfl
  | some first =>
    obtain ⟨span, ts', rfl, hts'⟩ := exists_of_kinds_cons hts
    obtain ⟨last, ts'', rfl, hnil⟩ := exists_of_kinds_cons hts'
    obtain rfl := List.map_eq_nil_iff.1 hnil
    refine ⟨⟨n, some first, name, wspan.join last⟩, ?_, hn, rfl⟩
    simp only [declarator, List.cons_append, List.nil_append, hnumber, Read.name, bind, Except.bind]
    rfl

theorem ellipsis_ok {c c' : Clause} {r : Unit} : ellipsis c = .ok (r, c') ↔ ∃ front,
    c = ⟨front ++ c'.tokens, c'.stop⟩ ∧ front.map (·.kind) = [.mark .dot, .mark .dot, .mark .dot] := by
  simp only [ellipsis, bind_ok, mark_ok]
  constructor
  · rintro ⟨_, c₁, ⟨s₁, rfl⟩, _, c₂, ⟨s₂, hc₂⟩, s₃, rfl⟩
    subst hc₂
    exact ⟨[⟨_, s₁⟩, ⟨_, s₂⟩, ⟨_, s₃⟩], rfl, rfl⟩
  · rintro ⟨front, rfl, hfront⟩
    obtain ⟨s₁, ts₁, rfl, h₁⟩ := exists_of_kinds_cons hfront
    obtain ⟨s₂, ts₂, rfl, h₂⟩ := exists_of_kinds_cons h₁
    obtain ⟨s₃, ts₃, rfl, h₃⟩ := exists_of_kinds_cons h₂
    obtain rfl := List.map_eq_nil_iff.1 h₃
    exact ⟨(), ⟨_, _⟩, ⟨s₁, rfl⟩, (), ⟨_, _⟩, ⟨s₂, rfl⟩, s₃, rfl⟩

theorem paramKinds_cons (g : Decl) {gs : List Decl} {variadic : Bool} (h : gs ≠ [] ∨ variadic = true) :
    Grammar.paramKinds (g :: gs) variadic = g.kinds ++ .mark .comma :: Grammar.paramKinds gs variadic := by
  cases gs with
  | nil =>
    obtain rfl := h.resolve_left (not_not_intro rfl)
    rfl
  | cons g' gs => rfl

theorem parameters_sound {c c' : Clause} {ds : List Declarator} {variadic : Bool}
    (h : parameters c = .ok ((ds, variadic), c')) :
    ∃ (gs : List Decl) (front : List Token), c = ⟨front ++ c'.tokens, c'.stop⟩ ∧
      front.map (·.kind) = Grammar.paramKinds gs variadic ∧ List.Forall₂ Decl.Declares gs ds ∧
      (gs ≠ [] ∨ variadic = true) := by
  fun_induction parameters c generalizing ds with
  | case1 c hdot =>
    obtain ⟨⟨_, c₁⟩, hdots, h⟩ := except_bind_ok.1 h
    cases h
    obtain ⟨front, rfl, hfront⟩ := ellipsis_ok.1 hdots
    exact ⟨[], front, rfl, hfront, .nil, .inr rfl⟩
  | case2 c hdot d hd => cases h
  | case3 c hdot d c₁ hd span rest hcomma _ ih =>
    obtain ⟨⟨⟨ds', variadic'⟩, c₂⟩, hrest, h⟩ := except_bind_ok.1 h
    cases h
    obtain ⟨g, first, rfl, hfirst, hg⟩ := declarator_sound hd
    obtain ⟨gs, front, hc, hfront, hgs, hsome⟩ := ih hrest
    obtain ⟨rfl, hstop⟩ := Clause.mk.inj hc
    refine ⟨g :: gs, first ++ ⟨.mark .comma, span⟩ :: front, ?_, ?_, .cons hg hgs, .inl (by simp)⟩
    · rw [hcomma, hstop]
      simp
    · rw [paramKinds_cons g hsome, List.map_append, List.map_cons, hfirst, hfront]
  | case4 c hdot d c₁ hd hcomma =>
    cases h
    obtain ⟨g, front, rfl, hfront, hg⟩ := declarator_sound hd
    exact ⟨[g], front, rfl, hfront, .cons hg .nil, .inl (by simp)⟩

theorem parameters_last {c c' : Clause} {d : Declarator} (hdot : c.next.kind ≠ .mark .dot)
    (hd : declarator c = .ok (d, c')) (hcomma : ∀ span, c'.tokens.head? ≠ some ⟨.mark .comma, span⟩) :
    parameters c = .ok (([d], false), c') := by
  rw [parameters, if_neg hdot]
  split
  · simp_all
  · rename_i d' c₁ hd'
    cases hd.symm.trans hd'
    split
    · rename_i span rest htokens
      exact absurd (congrArg List.head? htokens) (hcomma span)
    · rfl

theorem parameters_comma {c c' : Clause} {d : Declarator} {ds : List Declarator} {variadic : Bool} {span : Span}
    {rest : List Token} {stop : Token} (hdot : c.next.kind ≠ .mark .dot)
    (hd : declarator c = .ok (d, ⟨⟨.mark .comma, span⟩ :: rest, stop⟩))
    (hrest : parameters ⟨rest, stop⟩ = .ok ((ds, variadic), c')) :
    parameters c = .ok ((d :: ds, variadic), c') := by
  rw [parameters, if_neg hdot]
  split
  · simp_all
  · rename_i d' c₁ hd'
    cases hd.symm.trans hd'
    split
    · rename_i span' rest' htokens
      cases htokens
      simp only [hrest]
      rfl
    · rename_i hcomma
      exact absurd rfl (hcomma span rest)

theorem next_ne_dot {g : Decl} {front rest : List Token} {stop : Token} (h : front.map (·.kind) = g.kinds) :
    (Clause.next ⟨front ++ rest, stop⟩).kind ≠ .mark .dot := by
  obtain ⟨span, ts, rfl, -⟩ := exists_of_kinds_cons h
  simp [Clause.next]

theorem parameters_complete {gs : List Decl} {variadic : Bool} (hsome : gs ≠ [] ∨ variadic = true)
    {front rest : List Token} {stop : Token} {close : Span} (hvalid : ∀ g ∈ gs, g.Valid)
    (hfront : front.map (·.kind) = Grammar.paramKinds gs variadic) :
    ∃ ds, parameters ⟨front ++ ⟨.mark .rparen, close⟩ :: rest, stop⟩ =
      .ok ((ds, variadic), ⟨⟨.mark .rparen, close⟩ :: rest, stop⟩) ∧ List.Forall₂ Decl.Declares gs ds := by
  induction gs generalizing front with
  | nil =>
    obtain rfl := hsome.resolve_left (not_not_intro rfl)
    have hdots : ellipsis ⟨front ++ ⟨.mark .rparen, close⟩ :: rest, stop⟩ =
        .ok ((), ⟨⟨.mark .rparen, close⟩ :: rest, stop⟩) := ellipsis_ok.2 ⟨front, rfl, hfront⟩
    have hnext : (Clause.next ⟨front ++ ⟨.mark .rparen, close⟩ :: rest, stop⟩).kind = .mark .dot := by
      obtain ⟨span, ts, rfl, -⟩ := exists_of_kinds_cons hfront
      rfl
    refine ⟨[], ?_, .nil⟩
    rw [parameters, if_pos hnext, hdots]
    rfl
  | cons g gs ih =>
    obtain ⟨⟨n, hn, -⟩, hvalid⟩ := List.forall_mem_cons.1 hvalid
    by_cases hlast : gs = [] ∧ variadic = false
    · obtain ⟨rfl, rfl⟩ := hlast
      obtain ⟨d, hd, hg⟩ := declarator_complete (⟨.mark .rparen, close⟩ :: rest) stop hfront hn (by simp [EndsName])
      exact ⟨[d], parameters_last (next_ne_dot hfront) hd (by simp), .cons hg .nil⟩
    · have hmore : gs ≠ [] ∨ variadic = true := by
        rw [not_and_or, Bool.not_eq_false] at hlast
        exact hlast
      rw [paramKinds_cons g hmore] at hfront
      obtain ⟨first, ts, rfl, hfirst, hts⟩ := exists_of_kinds_append hfront
      obtain ⟨span, others, rfl, hothers⟩ := exists_of_kinds_cons hts
      obtain ⟨ds, hds, hgs⟩ := ih hmore hvalid hothers
      have happend : first ++ ⟨.mark .comma, span⟩ :: others ++ ⟨.mark .rparen, close⟩ :: rest =
          first ++ ⟨.mark .comma, span⟩ :: (others ++ ⟨.mark .rparen, close⟩ :: rest) := by simp
      rw [happend]
      obtain ⟨d, hd, hg⟩ := declarator_complete
        (⟨.mark .comma, span⟩ :: (others ++ ⟨.mark .rparen, close⟩ :: rest)) stop hfirst hn (by simp [EndsName])
      exact ⟨d :: ds, parameters_comma (next_ne_dot hfirst) hd hds, .cons hg hgs⟩

end Read

/-- A heading as it is read from its syntax tree. -/
structure Grammar.Signature.Says (g : Grammar.Signature) (h : Heading) : Prop where
  result : g.head.Declares h.result
  params : List.Forall₂ Decl.Declares g.params h.params
  variadic : g.variadic = h.variadic

namespace Read

/-- Parameters up to the parenthesis that closes around them. -/
def parameterList (c : Clause) : Except Diagnostic ((List Declarator × Bool) × Clause) :=
  if c.next.kind = .mark .rparen then .ok (([], false), c) else parameters c

theorem headingEnd_ok {h h' : Heading} {c c' : Clause} : (do
      mark .rparen
      Read.stop [.mark .semicolon, .mark .lbrace] "';' or '\x7b'"
      return h : Read Heading) c = .ok (h', c') ↔
    ∃ rspan, c = ⟨[⟨.mark .rparen, rspan⟩], c'.stop⟩ ∧ c'.tokens = [] ∧
      (c'.stop.kind = .mark .semicolon ∨ c'.stop.kind = .mark .lbrace) ∧ h' = h := by
  simp only [bind_ok, mark_ok, stop_ok]
  constructor
  · rintro ⟨-, c₁, ⟨rspan, rfl⟩, -, c₂, ⟨rfl, hnil, hstop⟩, ⟨⟩⟩
    exact ⟨rspan, by rw [hnil], hnil, by simpa using hstop, rfl⟩
  · rintro ⟨rspan, rfl, hnil, hstop, rfl⟩
    exact ⟨(), c', ⟨rspan, by rw [hnil]⟩, (), c', ⟨rfl, hnil, by simpa using hstop⟩, rfl⟩

theorem heading_ok {access : Access} {c c' : Clause} {h : Heading} : heading access c = .ok (h, c') ↔
    ∃ d c₁ lspan ds variadic rspan, declarator c = .ok (d, ⟨⟨.mark .lparen, lspan⟩ :: c₁.tokens, c₁.stop⟩) ∧
      parameterList c₁ = .ok ((ds, variadic), ⟨[⟨.mark .rparen, rspan⟩], c'.stop⟩) ∧ c'.tokens = [] ∧
      (c'.stop.kind = .mark .semicolon ∨ c'.stop.kind = .mark .lbrace) ∧ h = ⟨access, d, ds, variadic⟩ := by
  simp only [heading, bind_ok (x := declarator), bind_ok (x := mark .lparen), bind_ok (x := get), mark_ok]
  constructor
  · rintro ⟨d, _, hd, -, c₁, ⟨lspan, rfl⟩, _, _, ⟨⟩, hok⟩
    split_ifs at hok with hnext
    · obtain ⟨rspan, rfl, hrest⟩ := headingEnd_ok.1 hok
      exact ⟨d, _, lspan, [], false, rspan, hd, if_pos hnext, hrest⟩
    · obtain ⟨⟨ds, variadic⟩, _, hparams, hok⟩ := bind_ok.1 hok
      obtain ⟨rspan, rfl, hrest⟩ := headingEnd_ok.1 hok
      exact ⟨d, c₁, lspan, ds, variadic, rspan, hd, (if_neg hnext).trans hparams, hrest⟩
  · rintro ⟨d, c₁, lspan, ds, variadic, rspan, hd, hlist, hrest⟩
    refine ⟨d, _, hd, (), c₁, ⟨lspan, rfl⟩, c₁, c₁, rfl, ?_⟩
    unfold parameterList at hlist
    split_ifs at hlist ⊢ with hnext
    · cases hlist
      exact headingEnd_ok.2 ⟨rspan, rfl, hrest⟩
    · exact bind_ok.2 ⟨(ds, variadic), _, hlist, headingEnd_ok.2 ⟨rspan, rfl, hrest⟩⟩

theorem parameterList_sound {c c' : Clause} {ds : List Declarator} {variadic : Bool}
    (h : parameterList c = .ok ((ds, variadic), c')) :
    ∃ (gs : List Decl) (front : List Token), c = ⟨front ++ c'.tokens, c'.stop⟩ ∧
      front.map (·.kind) = Grammar.paramKinds gs variadic ∧ List.Forall₂ Decl.Declares gs ds := by
  unfold parameterList at h
  split_ifs at h
  · cases h
    exact ⟨[], [], rfl, rfl, .nil⟩
  · obtain ⟨gs, front, hc, hfront, hgs, -⟩ := parameters_sound h
    exact ⟨gs, front, hc, hfront, hgs⟩

theorem next_ne_rparen {gs : List Decl} {variadic : Bool} (hsome : gs ≠ [] ∨ variadic = true)
    {front rest : List Token} {stop : Token} (h : front.map (·.kind) = Grammar.paramKinds gs variadic) :
    (Clause.next ⟨front ++ rest, stop⟩).kind ≠ .mark .rparen := by
  cases gs with
  | nil =>
    obtain rfl := hsome.resolve_left (not_not_intro rfl)
    obtain ⟨span, ts, rfl, -⟩ := exists_of_kinds_cons h
    simp [Clause.next]
  | cons g gs =>
    obtain ⟨ks, hks⟩ : ∃ ks, Grammar.paramKinds (g :: gs) variadic = .number g.width :: ks := by
      by_cases hmore : gs ≠ [] ∨ variadic = true
      · exact ⟨_, paramKinds_cons g hmore⟩
      · obtain ⟨rfl, rfl⟩ : gs = [] ∧ variadic = false := by simpa using hmore
        exact ⟨_, rfl⟩
    obtain ⟨span, ts, rfl, -⟩ := exists_of_kinds_cons (h.trans hks)
    simp [Clause.next]

theorem parameterList_complete {gs : List Decl} {variadic : Bool} {front : List Token} (close : Span)
    (rest : List Token) (stop : Token) (hvalid : ∀ g ∈ gs, g.Valid)
    (hfront : front.map (·.kind) = Grammar.paramKinds gs variadic) :
    ∃ ds, parameterList ⟨front ++ ⟨.mark .rparen, close⟩ :: rest, stop⟩ =
      .ok ((ds, variadic), ⟨⟨.mark .rparen, close⟩ :: rest, stop⟩) ∧ List.Forall₂ Decl.Declares gs ds := by
  unfold parameterList
  by_cases hsome : gs ≠ [] ∨ variadic = true
  · rw [if_neg (next_ne_rparen hsome hfront)]
    exact parameters_complete hsome hvalid hfront
  · obtain ⟨rfl, rfl⟩ : gs = [] ∧ variadic = false := by simpa using hsome
    obtain rfl := List.map_eq_nil_iff.1 hfront
    exact ⟨[], if_pos rfl, .nil⟩

theorem heading_sound {access : Access} {c c' : Clause} {h : Heading} (hok : heading access c = .ok (h, c')) :
    (c.stop.kind = .mark .semicolon ∨ c.stop.kind = .mark .lbrace) ∧
      ∃ g : Grammar.Signature, c.tokens.map (·.kind) = g.kinds ∧ g.Says h := by
  obtain ⟨d, c₁, lspan, ds, variadic, rspan, hd, hlist, -, hstop, rfl⟩ := heading_ok.1 hok
  obtain ⟨g, first, rfl, hfirst, hg⟩ := declarator_sound hd
  obtain ⟨gs, front, rfl, hfront, hgs⟩ := parameterList_sound hlist
  refine ⟨hstop, ⟨g, gs, variadic⟩, ?_, hg, hgs, rfl⟩
  simp [hfirst, hfront, Grammar.Signature.kinds]

theorem heading_complete (access : Access) {g : Grammar.Signature} {c : Clause}
    (hkinds : c.tokens.map (·.kind) = g.kinds)
    (hstop : c.stop.kind = .mark .semicolon ∨ c.stop.kind = .mark .lbrace) (hhead : g.head.Valid)
    (hparams : ∀ d ∈ g.params, d.Valid) : ∃ h, heading access c = .ok (h, ⟨[], c.stop⟩) ∧ g.Says h := by
  obtain ⟨tokens, stop⟩ := c
  obtain ⟨n, hn, -⟩ := hhead
  obtain ⟨first, ts, rfl, hfirst, hts⟩ := exists_of_kinds_append hkinds
  obtain ⟨lspan, ts', rfl, hts'⟩ := exists_of_kinds_cons hts
  obtain ⟨front, last, rfl, hfront, hlast⟩ := exists_of_kinds_append hts'
  obtain ⟨rspan, after, rfl, hafter⟩ := exists_of_kinds_cons hlast
  obtain rfl := List.map_eq_nil_iff.1 hafter
  obtain ⟨d, hd, hg⟩ := declarator_complete
    (⟨.mark .lparen, lspan⟩ :: (front ++ [⟨.mark .rparen, rspan⟩])) stop hfirst hn (by simp [EndsName])
  obtain ⟨ds, hds, hgs⟩ := parameterList_complete rspan [] stop hparams hfront
  exact ⟨⟨access, d, ds, g.variadic⟩, heading_ok.2 ⟨d, _, lspan, ds, g.variadic, rspan, hd, hds, rfl, hstop, rfl⟩,
    hg, hgs, rfl⟩

theorem importName_ok {c c' : Clause} {x : String} {span : Span} : importName c = .ok ((x, span), c') ↔
    c = ⟨[⟨.name x, span⟩], c'.stop⟩ ∧ c'.tokens = [] ∧ c'.stop.kind = .mark .semicolon := by
  simp only [importName, bind_ok, stop_ok, List.mem_singleton]
  constructor
  · rintro ⟨⟨_, _⟩, c₁, hname, -, c₂, ⟨rfl, hnil, hstop⟩, ⟨⟩⟩
    rw [name_ok] at hname
    exact ⟨by rw [hname, hnil], hnil, hstop⟩
  · rintro ⟨rfl, hnil, hstop⟩
    exact ⟨(x, span), c', name_ok.2 (by rw [hnil]), (), c', ⟨rfl, hnil, hstop⟩, rfl⟩

theorem objectHeader_ok {c c' : Clause} {n : ℕ} {x : String} : objectHeader c = .ok ((n, x), c') ↔
    ∃ text s₁ s₂, c = ⟨[⟨.number text, s₁⟩, ⟨.name x, s₂⟩], c'.stop⟩ ∧
      Text.ofDecimal? UInt64.size text.toList = some n ∧ c'.tokens = [] ∧ c'.stop.kind = .mark .semicolon := by
  simp only [objectHeader, bind_ok, stop_ok, List.mem_singleton]
  constructor
  · rintro ⟨_, c₁, hnumber, ⟨y, s₂⟩, c₂, hname, -, c₃, ⟨rfl, hnil, hstop⟩, ⟨⟩⟩
    obtain ⟨text, s₁, rfl, hn⟩ := number_ok.1 hnumber
    rw [name_ok] at hname
    exact ⟨text, s₁, s₂, by rw [hname, hnil], hn, hnil, hstop⟩
  · rintro ⟨text, s₁, s₂, rfl, hn, hnil, hstop⟩
    exact ⟨n, ⟨[⟨.name x, s₂⟩], c'.stop⟩, number_ok.2 ⟨text, s₁, rfl, hn⟩, (x, s₂), c',
      name_ok.2 (by rw [hnil]), (), c', ⟨rfl, hnil, hstop⟩, rfl⟩

end Read

section Entries

theorem Access.ofTag?_isSome {tag : String} :
    (Access.ofTag? tag).isSome ↔ tag ∈ ["public", "private", "ignore"] := by
  unfold Access.ofTag?
  split <;> simp_all

theorem readTags_sound {stop : Token} {access access' : Access} {ts rest : List Token}
    (h : readTags stop access ts = ([], .ok (access', rest))) :
    ∃ (tags : List String) (front : List Token), ts = front ++ rest ∧ front.map (·.kind) = Grammar.tagKinds tags ∧
      ∀ tag ∈ tags, tag ∈ ["public", "private", "ignore"] := by
  fun_induction readTags stop access ts with
  | case1 access s₁ text s₂ ts access₁ htag ih =>
    obtain ⟨tags, front, rfl, hfront, htags⟩ := ih h
    refine ⟨text :: tags, ⟨_, s₁⟩ :: ⟨_, s₂⟩ :: front, rfl, ?_, List.forall_mem_cons.2 ⟨?_, htags⟩⟩
    · simp [hfront, Grammar.tagKinds]
    · exact Access.ofTag?_isSome.1 (by simp [htag])
  | case2 => cases h
  | case3 => cases h
  | case4 =>
    cases h
    exact ⟨[], [], rfl, rfl, List.forall_mem_nil _⟩

theorem readTags_complete (stop : Token) (access : Access) {tags : List String} {front : List Token}
    (rest : List Token) (hfront : front.map (·.kind) = Grammar.tagKinds tags)
    (htags : ∀ tag ∈ tags, tag ∈ ["public", "private", "ignore"])
    (hrest : ∀ span, rest.head? ≠ some ⟨.mark .atSign, span⟩) :
    ∃ access', readTags stop access (front ++ rest) = ([], .ok (access', rest)) := by
  induction tags generalizing front access with
  | nil =>
    obtain rfl := List.map_eq_nil_iff.1 hfront
    refine ⟨access, ?_⟩
    rw [List.nil_append]
    unfold readTags
    split
    · exact absurd rfl (hrest _)
    · exact absurd rfl (hrest _)
    · rfl
  | cons tag tags ih =>
    obtain ⟨htag, htags⟩ := List.forall_mem_cons.1 htags
    obtain ⟨s₁, ts, rfl, hts⟩ := exists_of_kinds_cons hfront
    obtain ⟨s₂, others, rfl, hothers⟩ := exists_of_kinds_cons hts
    obtain ⟨access₁, haccess⟩ := Option.isSome_iff_exists.1 (Access.ofTag?_isSome.2 htag)
    obtain ⟨access', hread⟩ := ih access₁ hothers htags
    refine ⟨access', ?_⟩
    simp only [List.cons_append, readTags, haccess]
    exact hread

/-- The head of an item that was read without any problem. -/
inductive Entry.HeadOf (c : Clause) : Entry → Prop
  | imported {x : String} {span : Span} (hkinds : c.tokens.map (·.kind) = [.keyword .imports, .name x])
      (hstop : c.stop.kind = .mark .semicolon) : HeadOf c (.imported x span)
  | method {tags : List String} {g : Grammar.Signature} {h : Heading}
      (hkinds : c.tokens.map (·.kind) = Grammar.tagKinds tags ++ g.kinds)
      (htags : ∀ tag ∈ tags, tag ∈ ["public", "private", "ignore"])
      (hstop : c.stop.kind = .mark .semicolon ∨ c.stop.kind = .mark .lbrace) (hg : g.Says h) :
      HeadOf c (.method [] h none)

/-- What is wrong with the first run of an item. -/
def Entry.faults : Entry → List Diagnostic
  | .imported .. => []
  | .method notes .. => notes
  | .broken faults => faults

theorem Entry.broken_of_ofClause {c : Clause} {faults : List Diagnostic} (h : ofClause c = .broken faults) :
    faults ≠ [] := by
  unfold ofClause at h
  split at h
  · split at h
    · cases h
    · cases h
      simp
  · simp only at h
    split at h
    · cases h
      simp
    · split at h
      · cases h
      · cases h
        simp

theorem Entry.ofClause_sound {c : Clause} (h : (ofClause c).faults = []) : HeadOf c (ofClause c) := by
  obtain ⟨tokens, stop⟩ := c
  cases hentry : ofClause ⟨tokens, stop⟩ with
  | broken faults =>
    rw [hentry] at h
    exact absurd h (broken_of_ofClause hentry)
  | imported x span =>
    unfold ofClause at hentry
    split at hentry
    · rename_i kspan rest htokens
      split at hentry
      · rename_i y yspan c' hname
        cases hentry
        obtain ⟨hc, hnil, hstop⟩ := Read.importName_ok.1 hname
        obtain ⟨rfl, rfl⟩ := Clause.mk.inj hc
        refine .imported ?_ hstop
        rw [htokens]
        rfl
      · cases hentry
    · simp only at hentry
      split at hentry
      · cases hentry
      · split at hentry <;> cases hentry
  | method notes heading block =>
    rw [hentry] at h
    obtain rfl : notes = [] := h
    unfold ofClause at hentry
    split at hentry
    · split at hentry <;> cases hentry
    · simp only at hentry
      split at hentry
      · cases hentry
      · rename_i access rest hresult
        split at hentry
        · rename_i heading' c' hheading
          obtain ⟨hnotes, rfl, rfl⟩ := Entry.method.inj hentry
          have htags : readTags stop .internal tokens = ([], .ok (access, rest)) := Prod.ext hnotes hresult
          obtain ⟨tags, front, rfl, hfront, hknown⟩ := readTags_sound htags
          obtain ⟨hstop, g, hg, hsays⟩ := Read.heading_sound hheading
          refine .method ?_ hknown hstop hsays
          rw [List.map_append, hfront, hg]
        · cases hentry

theorem Entry.ofClause_imported {c : Clause} {x : String}
    (hkinds : c.tokens.map (·.kind) = [.keyword .imports, .name x]) (hstop : c.stop.kind = .mark .semicolon) :
    ∃ span, ofClause c = .imported x span := by
  obtain ⟨tokens, stop⟩ := c
  obtain ⟨s₁, ts, rfl, hts⟩ := exists_of_kinds_cons hkinds
  obtain ⟨s₂, ts', rfl, hnil⟩ := exists_of_kinds_cons hts
  obtain rfl := List.map_eq_nil_iff.1 hnil
  have hname : Read.importName ⟨[⟨.name x, s₂⟩], stop⟩ = .ok ((x, s₂), ⟨[], stop⟩) :=
    Read.importName_ok.2 ⟨rfl, rfl, hstop⟩
  refine ⟨s₂, ?_⟩
  simp only [ofClause, hname]

theorem Entry.ofClause_method {c : Clause} {tags : List String} {g : Grammar.Signature}
    (hkinds : c.tokens.map (·.kind) = Grammar.tagKinds tags ++ g.kinds)
    (htags : ∀ tag ∈ tags, tag ∈ ["public", "private", "ignore"])
    (hstop : c.stop.kind = .mark .semicolon ∨ c.stop.kind = .mark .lbrace) (hhead : g.head.Valid)
    (hparams : ∀ d ∈ g.params, d.Valid) : ∃ h, ofClause c = .method [] h none ∧ g.Says h := by
  obtain ⟨tokens, stop⟩ := c
  obtain ⟨front, rest, rfl, hfront, hrest⟩ := exists_of_kinds_append hkinds
  obtain ⟨wspan, ts, rfl, -⟩ := exists_of_kinds_cons hrest
  obtain ⟨access, hread⟩ := readTags_complete stop .internal (⟨.number g.head.width, wspan⟩ :: ts) hfront htags
    (by simp)
  obtain ⟨h, hheading, hsays⟩ := Read.heading_complete access (c := ⟨_, stop⟩) hrest hstop hhead hparams
  refine ⟨h, ?_, hsays⟩
  unfold ofClause
  split
  · rename_i kspan rest' htokens
    rw [htokens] at hkinds
    cases tags <;> simp [Grammar.tagKinds, Grammar.Signature.kinds, Grammar.Decl.kinds] at hkinds
  · simp only [hread, hheading]

end Entries
end Bitpack
