import Mathlib
import Bitpack.Proofs.Places
import Bitpack.Proofs.Synchronization

/-! The items of a unit, read by a cursor. An item that cannot be read is skipped up to its semicolon or behind its
block, so the cursor takes the items of the unit one after the other, and does to the draft what they say. -/

namespace Bitpack

section Mild

theorem Clause.bare_located (c : Clause) : (c.move .bare).Located fun _ => True where
  span _ _ := trivial
  ordered := by
    have hbare : (c.move .bare).tokens ++ [(c.move .bare).stop] = (c.tokens ++ [c.stop]).map (Token.move .bare) := by
      simp [Clause.move]
    rw [hbare, List.pairwise_map]
    exact List.pairwise_of_forall fun _ _ => le_rfl

theorem mild_of_move {ds : List Diagnostic} (h : ∀ d ∈ ds.map (Diagnostic.move .bare), d.Minor fun _ => True) :
    Mild ds :=
  fun _ hd => (h _ (List.mem_map_of_mem hd)).isFatal

/-- Nothing that is wrong with the statements of a body is fatal. -/
theorem Scope.readAll_mild (vars : Array Variable) (result : VarId) (params : List VarId) (cs : List Clause) :
    Mild (({ vars, result, params } : Scope).readAll cs).2 := by
  have hcs : ∀ c ∈ cs.map (Clause.move .bare), c.Located fun _ => True := by
    intro c hc
    obtain ⟨c, -, rfl⟩ := List.mem_map.1 hc
    exact c.bare_located
  have hscope : (({ vars, result, params } : Scope).move .bare).Located fun _ => True :=
    ⟨by simp [Scope.move], by simp [Scope.move]⟩
  have hlands := Scope.readAll_lands (fun _ _ _ _ => trivial) hcs hscope
  rw [Scope.readAll_move] at hlands
  exact mild_of_move hlands.2

/-- What is noted about an item before its body is read. -/
def Entry.notes : Entry → List Diagnostic
  | .imported _ _ => []
  | .method notes _ _ => notes
  | .broken faults => faults

theorem Entry.ofClause_mild (c : Clause) : Mild (ofClause c).notes := by
  have hentry := ofClause_located (fun _ _ _ _ => trivial) c.bare_located
  rw [ofClause_move] at hentry
  cases hc : ofClause c with
  | imported name span => exact mild_nil
  | method notes h block =>
    rw [hc] at hentry
    exact mild_of_move hentry.1
  | broken faults =>
    rw [hc] at hentry
    exact mild_of_move hentry

theorem Entry.ofClause_other {c : Clause} (h : c.next.kind ≠ .keyword .imports) : ofClause c =
    match readTags c.stop .internal c.tokens with
    | (notes, .error d) => .broken (notes ++ [d])
    | (notes, .ok (access, rest)) =>
      match Read.heading access ⟨rest, c.stop⟩ with
      | .ok (heading, _) => .method notes heading none
      | .error d => .broken (notes ++ [d]) := by
  unfold ofClause
  split
  · rename_i htokens
    exact absurd (by rw [Clause.next, htokens]; rfl) h
  · rcases readTags c.stop .internal c.tokens with ⟨notes, d | ⟨access, rest⟩⟩ <;> rfl

theorem Read.objectHeader_mild {c : Clause} {d : Diagnostic} (h : Read.objectHeader c = .error d) :
    d.isFatal = false := by
  have hlands := Read.locates_objectHeader _ c.bare_located
  rw [Read.objectHeader_agrees, h] at hlands
  exact hlands.isFatal

/-- The statements of an item. -/
def Entry.clauses : Entry → List Clause
  | .method _ _ (some block) => block.clauses
  | _ => []

theorem Diagnostic.isFatal_unpackable (name : String) (e : PackError) (span : Span) :
    (⟨.unpackable name e, span⟩ : Diagnostic).isFatal = true :=
  rfl

theorem packVariables_isFatal {w : Word} {chosen : List (VarId × Span)} {vars : Array Variable} {d : Diagnostic}
    (h : packVariables w chosen vars = .error d) : d.isFatal = true := by
  obtain ⟨⟨name, e, hcause⟩, -⟩ := packVariables_error h
  rw [Diagnostic.isFatal, hcause]
  rfl

end Mild

section Headings

/-- The method with this heading among the variables `vars`. -/
def Heading.toMethod (h : Heading) (vars : Array Variable) (layout : Layout) (body : Option Body) : Method where
  name := h.result.name
  access := h.access
  params := (h.declared vars).2.1.map (·.1)
  paramGroups := layout.groupCount
  paramBits := layout.totalBits
  result := vars.size
  variadic := h.variadic
  body := body
  span := h.result.span

/-- The parser after the result and the parameters of a method. -/
def Parser.declared (p : Parser) (h : Heading) : Parser :=
  { p with
    unit := { p.unit with vars := (h.declared p.unit.vars).1 }
    faults := p.faults ++ (h.result.checkedWidth.2 ++ (h.declared p.unit.vars).2.2) }

theorem Heading.notes_mild (h : Heading) (vars : Array Variable) :
    Mild (h.result.checkedWidth.2 ++ (h.declared vars).2.2) := by
  have hresult := h.result.checkedWidth_minor (P := fun _ => True) trivial
  have hparams : ∀ d ∈ (h.declared vars).2.2, d.Minor fun _ => True :=
    (declareParams_lands (fun _ _ => trivial) _ (List.forall_mem_nil _)).2
  exact Mild.append (fun d hd => (hresult d hd).isFatal) fun d hd => (hparams d hd).isFatal

variable {w : Word} {vars vars' : Array Variable} {h : Heading} {block : Option Block} {d : Diagnostic}
  {layout : Layout}

theorem readMethod_wide (hwide : w.bits < (h.result.toVariable .result).width) : readMethod w vars h block =
    ⟨vars.push (h.result.toVariable .result), h.result.checkedWidth.2 ++
      [⟨.unpackable h.result.name (.tooWide (h.result.toVariable .result).width w.bits), h.result.span⟩], none⟩ := by
  unfold readMethod
  simp only [if_pos hwide]

variable (hfits : ¬ w.bits < (h.result.toVariable .result).width)
include hfits

theorem readMethod_crowded (hpack : packVariables w (h.declared vars).2.1 (h.declared vars).1 = .error d) :
    readMethod w vars h block =
      ⟨(h.declared vars).1, h.result.checkedWidth.2 ++ (h.declared vars).2.2 ++ [d], none⟩ := by
  unfold Heading.declared at hpack ⊢
  unfold readMethod
  simp only [if_neg hfits, hpack]

variable (hpack : packVariables w (h.declared vars).2.1 (h.declared vars).1 = .ok (layout, vars'))
include hpack

theorem readMethod_bodiless : readMethod w vars h none =
    ⟨vars', h.result.checkedWidth.2 ++ (h.declared vars).2.2, some (h.toMethod vars layout none)⟩ := by
  unfold Heading.toMethod
  unfold Heading.declared at hpack ⊢
  unfold readMethod
  simp only [if_neg hfits, hpack]

theorem readMethod_body (b : Block) : readMethod w vars h (some b) =
    ⟨(readBody w (h.bodyScope vars vars') b).1,
      h.result.checkedWidth.2 ++ (h.declared vars).2.2 ++ (readBody w (h.bodyScope vars vars') b).2.1,
      (readBody w (h.bodyScope vars vars') b).2.2.map fun body => h.toMethod vars layout (some body)⟩ := by
  unfold Heading.bodyScope Heading.toMethod
  unfold Heading.declared at hpack ⊢
  unfold readMethod
  simp only [if_neg hfits, hpack]

end Headings

section Dropped

theorem readBody_none {w : Word} {s : Scope} {b : Block} (h : (readBody w s b).2.2 = none) :
    (readBody w s b).2.1.any Diagnostic.isFatal ∨ b.close.kind ≠ .mark .rbrace := by
  unfold readBody at h ⊢
  simp only at h ⊢
  split_ifs at h ⊢ with hclose
  · exact .inr hclose
  · split at h
    · rename_i d hd
      simp [packVariables_isFatal hd]
    · cases h

/-- A method is dropped only if that ends the unit or its body is not closed. -/
theorem readMethod_dropped {w : Word} {vars : Array Variable} {h : Heading} {block : Option Block}
    (hm : (readMethod w vars h block).method = none) (hmild : Mild (readMethod w vars h block).faults) :
    ∃ b, block = some b ∧ b.close.kind ≠ .mark .rbrace := by
  have hany := hmild.any_eq_false
  by_cases hwide : w.bits < (h.result.toVariable .result).width
  · rw [readMethod_wide hwide] at hany
    simp [Diagnostic.isFatal_unpackable] at hany
  cases hpack : packVariables w (h.declared vars).2.1 (h.declared vars).1 with
  | error d =>
    rw [readMethod_crowded hwide hpack] at hany
    simp [packVariables_isFatal hpack] at hany
  | ok r =>
    cases block with
    | none =>
      rw [readMethod_bodiless hwide hpack] at hm
      cases hm
    | some b =>
      rw [readMethod_body hwide hpack] at hm hany
      refine ⟨b, rfl, (readBody_none (Option.map_eq_none_iff.1 hm)).resolve_left fun hfatal => ?_⟩
      simp [hfatal] at hany

theorem Block.split_open {finish : Token} {ts : List Token}
    (h : (Block.split finish ts).1.close.kind ≠ .mark .rbrace) : (Block.split finish ts).2 = [] := by
  induction ts with
  | nil => rfl
  | cons t ts ih =>
    simp only [split] at h ⊢
    split_ifs at h ⊢ with hbrace hsemicolon
    · exact absurd hbrace h
    · exact ih h
    · refine ih ?_
      unfold cons at h
      split at h <;> exact h

end Dropped

theorem Kind.endsHead_eq_false {k : Kind} (hsemicolon : k ≠ .mark .semicolon) (hlbrace : k ≠ .mark .lbrace)
    (hrbrace : k ≠ .mark .rbrace) : k.endsHead = false := by
  unfold Kind.endsHead
  split
  · exact absurd rfl hsemicolon
  · exact absurd rfl hlbrace
  · exact absurd rfl hrbrace
  · rfl

/-- Where the cursor is behind the head of an item; the end of the text is not passed. -/
def Clause.past (c : Clause) (after : List Token) : List Token :=
  if c.stop.kind = .finish then c.stop :: after else after

theorem Entry.exists_after {finish : Token} (hfinish : finish.kind = .finish) {ts : List Token}
    (h : ∀ t ∈ ts, t.kind ≠ .finish) : ∃ after, (head finish ts).1.text ++ after = ts ++ [finish] ∧
      (head finish ts).1.past after = (head finish ts).2 ++ [finish] ∧
      (∀ t ∈ (head finish ts).1.tokens, Region.item.ends t.kind = false) ∧
      Region.item.ends (head finish ts).1.stop.kind = true := by
  unfold head
  induction ts with
  | nil =>
    exact ⟨[], rfl, by simp [Clause.cut, Clause.past, hfinish], List.forall_mem_nil _,
      by simp [Clause.cut, hfinish, Region.ends]⟩
  | cons t ts ih =>
    obtain ⟨hne, hts⟩ := List.forall_mem_cons.1 h
    rw [Clause.cut]
    split_ifs with hends
    · exact ⟨ts ++ [finish], rfl, by simp [Clause.past, hne], List.forall_mem_nil _, by simp [Region.ends, hends]⟩
    · obtain ⟨after, htext, hpast, htokens, hstop⟩ := ih hts
      exact ⟨after, congrArg (t :: ·) htext, hpast, List.forall_mem_cons.2 ⟨by simp [Region.ends, hends, hne], htokens⟩,
        hstop⟩

/-- What a parser has read. -/
def Parser.draft (p : Parser) : Draft := ⟨p.unit, p.faults⟩

namespace Walk

variable {n : ℕ} {finish : Token} {p q : Parser} {ts rest : List Token}

section Methods

/-- The parser `q` has gone on from `p` to the tokens `rest`, with these variables and problems, unless one is fatal. -/
structure Settles (finish : Token) (p : Parser) (rest : List Token) (clauses : ℕ) (vars : Array Variable)
    (ds : List Diagnostic) (q : Parser) : Prop where
  unit : q.unit = { p.unit with vars }
  faults : q.faults = p.faults ++ ds
  outcome : q.fatal = true ∧ ds.any Diagnostic.isFatal = true ∨
    q.fatal = p.fatal ∧ Mild ds ∧ q.Faces finish rest ∧ q.count .attempts = p.count .attempts + clauses

theorem Settles.of_declared {r : Parser} {clauses : ℕ} {vars : Array Variable} {notes ds : List Diagnostic}
    (h : Settles finish r rest clauses vars ds q) (hunit : ({ r.unit with vars } : SourceUnit) = { p.unit with vars })
    (hfaults : r.faults = p.faults ++ notes) (hfatal : r.fatal = p.fatal)
    (hcount : r.count .attempts = p.count .attempts) (hnotes : Mild notes) :
    Settles finish p rest clauses vars (notes ++ ds) q where
  unit := h.unit.trans hunit
  faults := by rw [h.faults, hfaults, List.append_assoc]
  outcome := by
    rcases h.outcome with ⟨hq, hds⟩ | ⟨hq, hds, hfaces, hattempts⟩
    · exact .inl ⟨hq, by simp [hds]⟩
    · exact .inr ⟨hq.trans hfatal, hnotes.append hds, hfaces, hcount ▸ hattempts⟩

section Pack

variable {chosen : List (VarId × Span)} {d : Diagnostic} {layout : Layout} {vars : Array Variable}

theorem run_pack_ok (h : packVariables p.unit.word chosen p.unit.vars = .ok (layout, vars)) :
    (pack chosen : Walk n _).run p = (some layout, { p with unit := { p.unit with vars } }) := by
  rw [run, pack, h]
  rfl

theorem run_pack_error (h : packVariables p.unit.word chosen p.unit.vars = .error d) :
    (pack chosen : Walk n _).run p = (none, p.abort d) := by
  rw [run, pack, h]
  rfl

end Pack

theorem run_body {result : VarId} {params : List VarId}
    (h : statements.run { p with scope := { vars := p.unit.vars, result, params } } = (some (), q)) :
    (body result params).run p =
      (mark .rbrace >>= fun _ => pack (q.scope.locals.toList.map fun l => (l.id, l.span)) >>= fun layout => pure {
        locals := q.scope.locals.toList.map fun l => (l.name, l.id)
        statements := q.scope.statements.toList
        groupCount := layout.groupCount
        totalBits := layout.totalBits } : Walk 2 Body).run
        { q with unit := { q.unit with vars := q.scope.vars } } := by
  obtain ⟨hq, hrun⟩ := Result.val_andThen_some h
  rw [run, body, hrun]
  rfl

theorem body_settles (h : p.Faces finish ts) (result : VarId) (params : List VarId) :
    ((body result params).run p).1 =
        (readBody p.unit.word { vars := p.unit.vars, result, params } (Block.split finish ts).1).2.2 ∧
      Settles finish p (Block.split finish ts).2 (Block.split finish ts).1.clauses.length
        (readBody p.unit.word { vars := p.unit.vars, result, params } (Block.split finish ts).1).1
        (readBody p.unit.word { vars := p.unit.vars, result, params } (Block.split finish ts).1).2.1
        ((body result params).run p).2 := by
  have hstart : ({ p with scope := { vars := p.unit.vars, result, params } } : Parser).Faces finish ts := h
  obtain ⟨hsome, cs, rest, htook, hover⟩ := statements_took hstart
  obtain ⟨q, hq⟩ : ∃ q, statements.run { p with scope := { vars := p.unit.vars, result, params } } = (some (), q) :=
    ⟨_, Prod.ext hsome rfl⟩
  rw [run_body hq]
  rw [hq] at htook
  have hsplit := htook.split
  rw [Block.split_over finish hover, List.append_nil] at hsplit
  have hscope : q.scope = (({ vars := p.unit.vars, result, params } : Scope).readAll cs).1 := htook.scope
  have hfaults : q.faults = p.faults ++ (({ vars := p.unit.vars, result, params } : Scope).readAll cs).2 := htook.faults
  have hmild := Scope.readAll_mild p.unit.vars result params cs
  have hunit : q.unit = p.unit := htook.unit
  rw [hsplit]
  simp only [readBody, ← hscope]
  generalize (({ vars := p.unit.vars, result, params } : Scope).readAll cs).2 = ds at hfaults hmild ⊢
  rcases rest with _ | ⟨t, rest⟩
  · have hnext : ({ q with unit := { q.unit with vars := q.scope.vars } } : Parser).next = finish := htook.faces.next
    rw [if_pos (by simp [htook.faces.last]), run_bind_none (run_mark_other (by simp [hnext, htook.faces.last])), hnext]
    exact ⟨rfl, {
      unit := by rw [← hunit]
      faults := by
        rw [← List.append_assoc, ← hfaults]
        rfl
      outcome := .inr ⟨htook.fatal,
        hmild.append (List.forall_mem_singleton.2 (Token.unexpected_minor (P := fun _ => True) trivial _).isFatal),
        htook.faces, htook.attempts⟩ }⟩
  · have hbrace : t.kind = .mark .rbrace := by simpa [Block.isOver] using hover
    have hnext : ({ q with unit := { q.unit with vars := q.scope.vars } } : Parser).next = t := htook.faces.next
    have hfaces : ({ q with unit := { q.unit with vars := q.scope.vars } } : Parser).advance.Faces finish rest :=
      Faces.advance htook.faces
    rw [if_neg (by simp [hbrace]), run_bind_some (run_mark (by rw [hnext, hbrace]))]
    generalize hvars : packVariables p.unit.word _ q.scope.vars = o
    rw [← hunit] at hvars
    cases o with
    | error d =>
      rw [run_bind_none (run_pack_error hvars)]
      exact ⟨rfl, {
        unit := by rw [← hunit]; rfl
        faults := by
          rw [← List.append_assoc, ← hfaults]
          rfl
        outcome := .inl ⟨rfl, by simp [packVariables_isFatal hvars]⟩ }⟩
    | ok r =>
      rw [run_bind_some (run_pack_ok hvars)]
      exact ⟨rfl, {
        unit := by rw [← hunit]; rfl
        faults := hfaults
        outcome := .inr ⟨htook.fatal, hmild, hfaces, (q.count_advance .attempts).trans htook.attempts⟩ }⟩

section Define

variable {h : Heading} {d : Diagnostic} {layout : Layout} {vars : Array Variable}

theorem run_define_wide (hwide : p.unit.word.bits < (h.result.toVariable .result).width) (hasBody : Bool) :
    (define h hasBody).run p = (none, ({ p with
      unit := { p.unit with vars := p.unit.vars.push (h.result.toVariable .result) }
      faults := p.faults ++ h.result.checkedWidth.2 } : Parser).abort
        ⟨.unpackable h.result.name (.tooWide (h.result.toVariable .result).width p.unit.word.bits),
          h.result.span⟩) := by
  refine run_bind_none ?_
  rw [run, declareResult]
  simp only [if_pos hwide]
  rfl

variable (hfits : ¬ p.unit.word.bits < (h.result.toVariable .result).width)
include hfits

theorem run_define (hasBody : Bool) : (define h hasBody).run p =
    (pack (h.declared p.unit.vars).2.1 >>= fun layout =>
      (if hasBody then some <$> body p.unit.vars.size ((h.declared p.unit.vars).2.1.map (·.1)) else pure none) >>=
        fun b => insert (h.toMethod p.unit.vars layout b) : Walk 2 Unit).run (p.declared h) := by
  have hresult : (declareResult h.result : Walk 2 _).run p = (some p.unit.vars.size, { p with
      unit := { p.unit with vars := p.unit.vars.push (h.result.toVariable .result) }
      faults := p.faults ++ h.result.checkedWidth.2 }) := by
    rw [run, declareResult]
    simp only [if_neg hfits]
    rfl
  have hparams : (declareParameters h.params : Walk 2 _).run { p with
      unit := { p.unit with vars := p.unit.vars.push (h.result.toVariable .result) }
      faults := p.faults ++ h.result.checkedWidth.2 } = (some (h.declared p.unit.vars).2.1, p.declared h) := by
    rw [Parser.declared, ← List.append_assoc]
    rfl
  rw [define, run_bind_some hresult, run_bind_some hparams]
  cases hasBody <;> rfl

end Define

/-- The walk that keeps a method, if there is one. -/
def insert? : Option Method → Walk n Unit
  | some m => insert m
  | none => fun p => .stop p

theorem run_insert_body {x : Walk n Body} {g : Option Body → Method} : (some <$> x >>= fun b => insert (g b)).run p =
    (insert? ((x.run p).1.map fun b => g (some b)) : Walk n _).run (x.run p).2 := by
  rcases hx : x.run p with ⟨_ | b, q⟩
  · have hmap : (some <$> x).run p = (none, q) := run_bind_none hx
    rw [run_bind_none hmap]
    rfl
  · have hmap : (some <$> x).run p = (some (some b), q) := run_bind_some hx
    rw [run_bind_some hmap]
    rfl

theorem define_settles (hp : p.Faces finish ts) (notes : List Diagnostic) (h : Heading) (hasBody : Bool)
    {block : Option Block} (hblock : block = if hasBody then some (Block.split finish ts).1 else none)
    (hrest : rest = if hasBody then (Block.split finish ts).2 else ts) :
    ∃ q, Settles finish p rest (Entry.method notes h block).clauses.length
        (readMethod p.unit.word p.unit.vars h block).vars (readMethod p.unit.word p.unit.vars h block).faults q ∧
      (define h hasBody).run p = (insert? (readMethod p.unit.word p.unit.vars h block).method : Walk 2 _).run q := by
  by_cases hwide : p.unit.word.bits < (h.result.toVariable .result).width
  · rw [readMethod_wide hwide, run_define_wide hwide]
    refine ⟨_, ⟨rfl, List.append_assoc _ _ _, .inl ⟨rfl, ?_⟩⟩, rfl⟩
    simp [Diagnostic.isFatal_unpackable]
  rw [run_define hwide]
  have hnotes := h.notes_mild p.unit.vars
  cases hpack : packVariables p.unit.word (h.declared p.unit.vars).2.1 (h.declared p.unit.vars).1 with
  | error d =>
    rw [readMethod_crowded hwide hpack, run_bind_none (run_pack_error hpack)]
    exact ⟨_, ⟨rfl, List.append_assoc _ _ _, .inl ⟨rfl, by simp [packVariables_isFatal hpack]⟩⟩, rfl⟩
  | ok r =>
    obtain ⟨layout, vars⟩ := r
    rw [run_bind_some (run_pack_ok hpack)]
    cases hasBody with
    | false =>
      obtain rfl : block = none := hblock
      obtain rfl : rest = ts := hrest
      rw [readMethod_bodiless hwide hpack]
      exact ⟨{ p.declared h with unit := { (p.declared h).unit with vars } },
        ⟨rfl, rfl, .inr ⟨rfl, hnotes, hp, rfl⟩⟩, rfl⟩
    | true =>
      obtain rfl : block = some (Block.split finish ts).1 := hblock
      obtain rfl : rest = (Block.split finish ts).2 := hrest
      rw [readMethod_body hwide hpack]
      obtain ⟨hbody, hsettles⟩ := body_settles (p := { p.declared h with unit := { (p.declared h).unit with vars } }) hp
        p.unit.vars.size ((h.declared p.unit.vars).2.1.map (·.1))
      refine ⟨_, hsettles.of_declared rfl rfl rfl rfl hnotes, ?_⟩
      rw [if_pos rfl, run_insert_body]
      exact congrArg (fun o => (insert? (Option.map _ o) : Walk 2 _).run _) hbody

end Methods

section Skipping

variable {depth : ℕ}

theorem run_recover_finish (h : p.next.kind = .finish) : (recover depth : Walk n _).run p = (some (), p) := by
  rw [run, recover, dif_pos h]
  rfl

variable {t : Token} (ht : p.next = t)
include ht

theorem run_recover_semicolon (hk : t.kind = .mark .semicolon) : (recover depth : Walk n _).run p =
    if depth = 0 then (some (), p.advance) else (recover depth : Walk n _).run p.advance := by
  subst ht
  rw [run, recover, dif_neg (by simp [hk]), Result.val_since]
  simp only [hk]
  split_ifs <;> rfl

theorem run_recover_lbrace (hk : t.kind = .mark .lbrace) : (recover depth : Walk n _).run p =
    (recover (depth + 1) : Walk n _).run p.advance := by
  subst ht
  rw [run, recover, dif_neg (by simp [hk]), Result.val_since]
  simp only [hk]
  rfl

theorem run_recover_rbrace (hk : t.kind = .mark .rbrace) : (recover depth : Walk n _).run p =
    if depth - 1 = 0 then (some (), p.advance) else (recover (depth - 1) : Walk n _).run p.advance := by
  subst ht
  rw [run, recover, dif_neg (by simp [hk]), Result.val_since]
  simp only [hk]
  split_ifs <;> rfl

theorem run_recover_other (hk : t.kind.endsHead = false) (hfinish : t.kind ≠ .finish) :
    (recover depth : Walk n _).run p = (recover depth : Walk n _).run p.advance := by
  subst ht
  rw [run, recover, dif_neg hfinish, Result.val_since]
  split
  case h_4 => rfl
  all_goals
    rename_i hkind
    rw [hkind] at hk
    cases hk

omit ht

theorem recover_draft (depth : ℕ) (p : Parser) : ((recover depth : Walk n _).run p).2.draft = p.draft ∧
    ((recover depth : Walk n _).run p).2.fatal = p.fatal := by
  unfold run
  fun_induction recover depth p with
  | case1 => exact ⟨rfl, rfl⟩
  | case2 depth p hfinish _ hsame hlbrace hrbrace =>
    rw [Result.val_since]
    split
    · split_ifs
      · exact ⟨rfl, rfl⟩
      · exact hsame
    · exact hlbrace
    · split_ifs
      · exact ⟨rfl, rfl⟩
      · exact hrbrace
    · exact hsame

/-- The rest of a block is skipped, up to the brace that closes it. -/
theorem run_recover_block (h : p.Faces finish ts) (depth : ℕ) : (recover (depth + 1) : Walk n _).run p =
    (some (), p.facing (skipBlock depth ts ++ [finish])) := by
  induction ts generalizing p depth with
  | nil =>
    rw [run_recover_finish (by rw [h.next]; exact h.last), skipBlock, h.facing]
  | cons t ts ih =>
    have hnext : p.next = t := h.next
    have hadvance := h.advance
    rw [h.advance_eq] at hadvance
    simp only [skipBlock]
    split
    · rename_i hkind
      rw [run_recover_lbrace hnext hkind, h.advance_eq, ih hadvance]
      rfl
    · rename_i hkind
      rw [run_recover_rbrace hnext hkind, h.advance_eq, Nat.add_sub_cancel]
      cases depth with
      | zero => rfl
      | succ outer =>
        rw [if_neg (Nat.succ_ne_zero outer), ih hadvance]
        rfl
    · rename_i hlbrace hrbrace
      by_cases hkind : t.kind = .mark .semicolon
      · rw [run_recover_semicolon hnext hkind, h.advance_eq, if_neg (Nat.succ_ne_zero depth), ih hadvance]
        rfl
      · rw [run_recover_other hnext (Kind.endsHead_eq_false hkind hlbrace hrbrace) (h.inner t List.mem_cons_self),
          h.advance_eq, ih hadvance]
        rfl

/-- From wherever in the head of an item, the rest of the item is skipped. -/
theorem run_recover_item {after : List Token} {stop : Token} (h : Ahead .item p.tokens ⟨ts, stop⟩ after)
    (hpast : (⟨ts, stop⟩ : Clause).past after = rest ++ [finish])
    (hrest : (p.facing (rest ++ [finish])).Faces finish rest) :
    (recover 0 : Walk n _).run (p.facing ((⟨ts, stop⟩ : Clause).text ++ after)) =
      (some (), p.facing ((⟨ts, stop⟩ : Clause).skip rest ++ [finish])) := by
  induction ts with
  | nil =>
    rw [Clause.past] at hpast
    rw [Clause.skip]
    have hnext : (p.facing ((⟨[], stop⟩ : Clause).text ++ after)).next = stop := h.next
    have hstop : Region.item.ends stop.kind = true := h.stop
    rcases Region.ends_cases .item hstop with hk | hk | hk | hk
    · rw [if_neg (by simp [hk])] at hpast
      rw [run_recover_semicolon hnext hk, if_pos rfl, h.advance_stop (by simp [hk]), hpast, if_neg (by simp [hk])]
    · rw [if_neg (by simp [hk])] at hpast
      rw [run_recover_lbrace hnext hk, h.advance_stop (by simp [hk]), hpast, if_pos hk, run_recover_block hrest]
      rfl
    · rw [if_neg (by simp [hk])] at hpast
      rw [run_recover_rbrace hnext hk, if_pos rfl, h.advance_stop (by simp [hk]), hpast, if_neg (by simp [hk])]
    · rw [if_pos hk] at hpast
      rw [run_recover_finish (hnext ▸ hk), if_neg (by simp [hk]), ← hpast]
      rfl
  | cons t ts ih =>
    have hends : Region.item.ends t.kind = false := h.tokens t List.mem_cons_self
    simp only [Region.ends, Bool.or_eq_false_iff, decide_eq_false_iff_not] at hends
    rw [run_recover_other h.next hends.1 hends.2, h.advance]
    exact ih h.tail hpast

end Skipping

section Items

/-- The parser is in front of an item with the head `c`, behind which there is `rest`. -/
structure Heads (finish : Token) (p : Parser) (ts : List Token) (c : Clause) (rest after : List Token) : Prop where
  head : Entry.head finish ts = (c, rest)
  ahead : Ahead .item p.tokens c after
  past : c.past after = rest ++ [finish]
  facing : p.facing (c.text ++ after) = p
  rest : (p.facing (rest ++ [finish])).Faces finish rest

theorem exists_heads (h : p.Faces finish ts) : ∃ c rest after, Heads finish p ts c rest after := by
  obtain ⟨after, htext, hpast, htokens, hstop⟩ := Entry.exists_after h.last h.inner
  exact ⟨_, _, after, rfl, ⟨htext ▸ h.suffix, htokens, hstop⟩, hpast,
    (congrArg p.facing htext).trans h.facing, h.of_suffix (Entry.head_suffix finish ts)⟩

/-- From `p`, which is in front of `ts`, the parser took up the item `e` and got to `q`, which is in front of `rest`
unless the item is fatal. -/
structure Adds (finish : Token) (p : Parser) (ts : List Token) (e : Entry) (q : Parser) (rest : List Token) : Prop where
  split : Entry.split finish ts = e :: Entry.split finish rest
  draft : q.draft = p.draft.add e
  outcome : q.fatal = true ∧ q.draft.isFatal = true ∨ q.fatal = false ∧ q.draft.isFatal = false ∧
    q.Faces finish rest ∧ q.count .attempts = p.count .attempts + e.clauses.length

theorem run_orRecover_some {x : Walk n Unit} (h : x.run p = (some (), q)) : (orRecover x).run p = (some (), q) := by
  rw [run, orRecover]
  split
  · rename_i hread
    cases h.symm.trans hread
    rfl
  · rename_i hread
    cases h.symm.trans hread

theorem run_orRecover_none {x : Walk n Unit} (h : x.run p = (none, q)) :
    (orRecover x).run p = (recover 0 : Walk n _).run q := by
  rw [run, orRecover]
  split
  · rename_i hread
    cases h.symm.trans hread
  · rename_i hread
    cases h.symm.trans hread
    rfl

theorem run_item_import (h : p.next.kind = .keyword .imports) :
    item.run p = (importName >>= fun x => imported x.1 x.2 : Walk 2 _).run p.advance := by
  rw [run, item, if_pos h]
  rfl

theorem run_item_method (h : p.next.kind ≠ .keyword .imports) :
    item.run p = (tags .internal >>= method : Walk 2 _).run p := by
  rw [run, item, if_neg h]
  rfl

theorem Heads.behind {c : Clause} {after : List Token} (hh : Heads finish p ts c rest after)
    (hstop : c.stop.kind ≠ .finish) : after = rest ++ [finish] := by
  rw [← hh.past, Clause.past, if_neg hstop]

theorem Heads.next {c : Clause} {after : List Token} (hh : Heads finish p ts c rest after) : p.next = c.next :=
  (congrArg (fun q : Parser => q.next) hh.facing).symm.trans hh.ahead.next

theorem report_facing (p : Parser) (notes : List Diagnostic) (ts : List Token) (d : Diagnostic) :
    ((p.reportAll notes).facing ts).report d = (p.reportAll (notes ++ [d])).facing ts := by
  simp [Parser.reportAll, Parser.facing]

theorem Draft.isFatal_insert (d : Draft) (m : Method) : (d.insert m).isFatal = d.isFatal := by
  unfold Draft.insert Draft.isFatal
  split_ifs
  · simp [Diagnostic.isFatal, Cause.isFatal, Cause.category, Category.isFatal]
  · rfl

/-- A method is taken up once it has been read. If it was dropped, recovery finds nothing to skip. -/
theorem settled_adds {notes : List Diagnostic} {h : Heading} {block : Option Block} {ts' : List Token}
    (hsplit : Entry.split finish ts = .method notes h block :: Entry.split finish rest)
    (hfatal : p.fatal = false) (hmild : Mild p.faults) (hnotes : Mild notes)
    (hsettles : Settles finish ((p.reportAll notes).facing ts') rest (Entry.method notes h block).clauses.length
      (readMethod p.unit.word p.unit.vars h block).vars (readMethod p.unit.word p.unit.vars h block).faults q)
    (hrun : item.run p = (insert? (readMethod p.unit.word p.unit.vars h block).method : Walk 2 _).run q)
    (hdropped : (readMethod p.unit.word p.unit.vars h block).method = none →
      Mild (readMethod p.unit.word p.unit.vars h block).faults → rest = []) :
    Adds finish p ts (.method notes h block) ((orRecover item).run p).2 rest := by
  have hdraft : q.draft = ⟨{ p.unit with vars := (readMethod p.unit.word p.unit.vars h block).vars },
      p.faults ++ notes ++ (readMethod p.unit.word p.unit.vars h block).faults⟩ := by
    rw [Parser.draft, hsettles.unit, hsettles.faults]
    rfl
  have houtcome : q.fatal = true ∧ q.draft.isFatal = true ∨ q.fatal = false ∧ q.draft.isFatal = false ∧
      Mild (readMethod p.unit.word p.unit.vars h block).faults ∧ q.Faces finish rest ∧
        q.count .attempts = p.count .attempts + (Entry.method notes h block).clauses.length := by
    rw [hdraft]
    rcases hsettles.outcome with ⟨hq, hds⟩ | ⟨hq, hds, hfaces, hattempts⟩
    · exact .inl ⟨hq, by simp only [Draft.isFatal, List.any_append, hds, Bool.or_true]⟩
    · exact .inr ⟨hq.trans hfatal, ((hmild.append hnotes).append hds).any_eq_false, hds, hfaces, hattempts⟩
  have hadd : p.draft.add (.method notes h block) =
      match (readMethod p.unit.word p.unit.vars h block).method with
      | some m => q.draft.insert m
      | none => q.draft := by
    rw [hdraft]
    rfl
  cases hm : (readMethod p.unit.word p.unit.vars h block).method with
  | some m =>
    rw [hm] at hrun hadd
    rw [run_orRecover_some hrun]
    refine ⟨hsplit, hadd.symm, ?_⟩
    change _ ∧ (q.draft.insert m).isFatal = true ∨ _ ∧ (q.draft.insert m).isFatal = false ∧ _
    rw [Draft.isFatal_insert]
    rcases houtcome with hout | ⟨hq, hd, -, hfaces, hattempts⟩
    · exact .inl hout
    · exact .inr ⟨hq, hd, hfaces, hattempts⟩
  | none =>
    rw [hm] at hrun hadd
    rw [run_orRecover_none hrun]
    rcases houtcome with hout | ⟨hq, hd, hds, hfaces, hattempts⟩
    · obtain ⟨hsame, hfatal'⟩ := recover_draft (n := 2) 0 q
      exact ⟨hsplit, hsame.trans hadd.symm, .inl ⟨hfatal'.trans hout.1, hsame ▸ hout.2⟩⟩
    · obtain rfl := hdropped hm hds
      rw [run_recover_finish (by rw [hfaces.next]; exact hfaces.last)]
      exact ⟨hsplit, hadd.symm, .inr ⟨hq, hd, hfaces, hattempts⟩⟩

section Adds

variable {c : Clause} {after : List Token} (hts : ts ≠ []) (hh : Heads finish p ts c rest after)
  (hfatal : p.fatal = false) (hmild : Mild p.faults)
include hts hh hfatal hmild

theorem broken_adds {faults : List Diagnostic} {ts' : List Token} (hentry : Entry.ofClause c = .broken faults)
    (hts' : ts' <:+ c.tokens)
    (hrun : item.run p = (none, (p.reportAll faults).facing ((⟨ts', c.stop⟩ : Clause).text ++ after))) :
    ∃ e rest, Adds finish p ts e ((orRecover item).run p).2 rest := by
  have hahead : Ahead .item (p.reportAll faults).tokens ⟨ts', c.stop⟩ after := hh.ahead.of_suffix hts'
  rw [run_orRecover_none hrun, run_recover_item hahead hh.past hh.rest]
  refine ⟨_, _, Entry.split_broken hts hh.head hentry, rfl,
    .inr ⟨hfatal, ?_, hh.rest.of_suffix (c.skip_suffix rest), rfl⟩⟩
  have hnotes := Entry.ofClause_mild c
  rw [hentry] at hnotes
  exact (hmild.append hnotes).any_eq_false

theorem imported_adds {name : String} {span : Span} (hentry : Entry.ofClause c = .imported name span)
    (hrun : item.run p = (imported name span : Walk 2 _).run (p.facing (rest ++ [finish]))) :
    ∃ e rest, Adds finish p ts e ((orRecover item).run p).2 rest := by
  rw [run_orRecover_some hrun]
  exact ⟨_, _, Entry.split_imported hts hh.head hentry, rfl, .inr ⟨hfatal, hmild.any_eq_false, hh.rest, rfl⟩⟩

theorem method_adds {notes : List Diagnostic} {h : Heading} (hentry : Entry.ofClause c = .method notes h none)
    (hstop : c.stop.kind = .mark .semicolon ∨ c.stop.kind = .mark .lbrace)
    (hrun : item.run p = (define h (decide (c.stop.kind = .mark .lbrace))).run
      ((p.reportAll notes).facing (rest ++ [finish]))) :
    ∃ e rest, Adds finish p ts e ((orRecover item).run p).2 rest := by
  obtain ⟨block, rest', hblock, hrest', hsplit⟩ : ∃ block rest',
      (block = if decide (c.stop.kind = .mark .lbrace) then some (Block.split finish rest).1 else none) ∧
      (rest' = if decide (c.stop.kind = .mark .lbrace) then (Block.split finish rest).2 else rest) ∧
      Entry.split finish ts = .method notes h block :: Entry.split finish rest' := by
    refine ⟨_, _, rfl, rfl, ?_⟩
    rcases hstop with hstop | hstop
    · rw [Entry.split_method hts hh.head hentry hstop]
      simp [hstop]
    · rw [Entry.split_block hts hh.head hentry hstop rfl]
      simp [hstop]
  have hbegin : ((p.reportAll notes).facing (rest ++ [finish])).Faces finish rest := hh.rest
  obtain ⟨q, hsettles, hq⟩ := define_settles hbegin notes h _ hblock hrest'
  have hnotes := Entry.ofClause_mild c
  rw [hentry] at hnotes
  refine ⟨_, _, settled_adds hsplit hfatal hmild hnotes hsettles (hrun.trans hq) fun hm hds => ?_⟩
  obtain ⟨b, rfl, hclose⟩ := readMethod_dropped hm hds
  split_ifs at hblock hrest'
  cases hblock
  rw [hrest', Block.split_open hclose]

theorem item_import_adds (himports : c.next.kind = .keyword .imports) :
    ∃ e rest, Adds finish p ts e ((orRecover item).run p).2 rest := by
  have hitem := run_item_import (hh.next ▸ himports)
  obtain ⟨s, ts', stop, rfl⟩ := hh.ahead.eq_cons himports (by simp [Region.ends, Kind.endsHead])
  rw [← hh.facing, hh.ahead.advance, hh.facing] at hitem
  have hname := importName_ends (n := 2) .item p ⟨ts', stop⟩ after hh.ahead.tail
  generalize hread : Read.importName ⟨ts', stop⟩ = r at hname
  generalize hrun : importName.run _ = o at hname
  cases hname with
  | @ok y hstop =>
    obtain ⟨⟨name, span⟩, c'⟩ := y
    obtain rfl : c'.stop = stop := hstop
    obtain ⟨-, -, hsemicolon⟩ := Read.importName_ok.1 hread
    have hentry : Entry.ofClause ⟨⟨.keyword .imports, s⟩ :: ts', c'.stop⟩ = .imported name span := by
      simp [Entry.ofClause, hread]
    refine imported_adds hts hh hfatal hmild hentry ?_
    rw [hitem, run_bind_some hrun, hh.behind (by simp [hsemicolon])]
  | @error d ts'' hsuffix =>
    have hentry : Entry.ofClause ⟨⟨.keyword .imports, s⟩ :: ts', stop⟩ = .broken [d] := by
      simp [Entry.ofClause, hread]
    refine broken_adds hts hh hfatal hmild hentry (hsuffix.trans (List.suffix_cons _ _)) ?_
    rw [hitem, run_bind_none hrun]
    rfl

/-- Behind its annotations, a method is taken up if its heading can be read. -/
theorem item_heading_adds {notes : List Diagnostic} {access : Access} {ts' : List Token} (hsuffix : ts' <:+ c.tokens)
    (hentry : Entry.ofClause c = match Read.heading access ⟨ts', c.stop⟩ with
      | .ok (heading, _) => .method notes heading none
      | .error d => .broken (notes ++ [d]))
    (hitem : item.run p = (method access).run ((p.reportAll notes).facing ((⟨ts', c.stop⟩ : Clause).text ++ after))) :
    ∃ e rest, Adds finish p ts e ((orRecover item).run p).2 rest := by
  have hheading := heading_ends (n := 2) access (p.reportAll notes) ⟨ts', c.stop⟩ after (hh.ahead.of_suffix hsuffix)
  generalize hread : Read.heading access ⟨ts', c.stop⟩ = r at hentry hheading
  generalize hrun : (heading access).run _ = o at hheading
  cases hheading with
  | @ok y hstop =>
    obtain ⟨h, c'⟩ := y
    obtain ⟨-, -, -, -, -, -, -, -, -, hends, -⟩ := Read.heading_ok.1 hread
    rw [show c'.stop = c.stop from hstop] at hends
    refine method_adds hts hh hfatal hmild hentry hends ?_
    rw [hitem, method, run_bind_some hrun, ← hh.behind (by rcases hends with h | h <;> simp [h])]
    exact congrArg (fun t : Token => (define h (decide (t.kind = .mark .lbrace))).run _) hstop
  | @error d ts'' hsuffix' =>
    refine broken_adds hts hh hfatal hmild hentry (hsuffix'.trans hsuffix) ?_
    rw [hitem, method, run_bind_none hrun, report_facing]

theorem item_method_adds (himports : c.next.kind ≠ .keyword .imports) :
    ∃ e rest, Adds finish p ts e ((orRecover item).run p).2 rest := by
  have hitem := run_item_method (hh.next ▸ himports)
  have hentry := Entry.ofClause_other himports
  have htags := tags_agrees (n := 2) .internal hh.ahead
  rw [hh.facing] at htags
  generalize readTags c.stop .internal c.tokens = r at hentry htags
  obtain ⟨notes, result⟩ := r
  generalize hrun : (tags .internal).run p = o at htags
  cases result with
  | error d =>
    change Agrees _ _ _ (.error d) o at htags
    cases htags with
    | @error _ ts' hsuffix =>
      refine broken_adds hts hh hfatal hmild hentry hsuffix ?_
      rw [hitem, run_bind_none hrun, report_facing]
  | ok y =>
    obtain ⟨access, ts'⟩ := y
    change Agrees _ _ _ (.ok (access, ⟨ts', c.stop⟩)) o at htags
    cases htags with
    | ok hsuffix =>
      rw [run_bind_some hrun] at hitem
      exact item_heading_adds hts hh hfatal hmild hsuffix hentry hitem

end Adds

/-- One turn of the item loop takes up the first of the items that are left, and goes on with the others. -/
theorem item_adds (hp : p.Faces finish ts) (hts : ts ≠ []) (hfatal : p.fatal = false) (hmild : Mild p.faults) :
    ∃ e rest, Adds finish p ts e ((orRecover item).run p).2 rest := by
  obtain ⟨c, rest, after, hh⟩ := exists_heads hp
  by_cases himports : c.next.kind = .keyword .imports
  · exact item_import_adds hts hh hfatal hmild himports
  · exact item_method_adds hts hh hfatal hmild himports

end Items
end Walk
end Bitpack
