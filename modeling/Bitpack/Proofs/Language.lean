import Mathlib
import Bitpack.Proofs.Acceptance

/-! Units that are read without a problem are those of the grammar whose static rules hold. -/

namespace Bitpack

open Grammar (Decl Stmt)

/-- Names that are new after one more name has been taken. -/
theorem forall_notMem_cons {α : Type} {f : α → String} {xs : List α} {name : String} {taken : List String} :
    (∀ x ∈ xs, f x ∉ name :: taken) ↔ name ∉ xs.map f ∧ ∀ x ∈ xs, f x ∉ taken := by
  simp only [List.mem_cons, not_or, forall_and, List.mem_map, not_exists, not_and]

section Variables

variable {vars : Array Variable} {gs : List Decl} {ids : List VarId}

theorem names_of_gives (h : List.Forall₂ (Decl.Gives vars) gs ids) :
    ids.map (fun id => (vars.getD id default).name) = gs.map (·.name) := by
  induction h with
  | nil => rfl
  | cons hg _ ih => rw [List.map_cons, List.map_cons, hg.name, ih]

theorem widths_of_gives (h : List.Forall₂ (Decl.Gives vars) gs ids) :
    ids.map (fun id => (vars.getD id default).width) = gs.map Decl.bits := by
  induction h with
  | nil => rfl
  | cons hg _ ih => rw [List.map_cons, List.map_cons, hg.width, ih]

theorem valid_of_gives (h : List.Forall₂ (Decl.Gives vars) gs ids) : ∀ id ∈ ids, id < vars.size := by
  induction h with
  | nil => exact List.forall_mem_nil _
  | cons hg _ ih => exact List.forall_mem_cons.2 ⟨hg.valid, ih⟩

/-- Whether there is room for variables depends on their declarations alone. -/
theorem packVariables_accepts {chosen : List (VarId × Span)} (w : Word)
    (h : List.Forall₂ (Decl.Gives vars) gs (chosen.map (·.1))) :
    (∃ r, packVariables w chosen vars = .ok r) ↔ Grammar.Packs w gs := by
  have hwidths : chosen.map (fun v => (vars.getD v.1 default).width) = gs.map Decl.bits := by
    rw [← widths_of_gives h, List.map_map]
    rfl
  unfold packVariables Grammar.Packs
  simp only [hwidths]
  split <;> simp_all

/-- Where a body begins, the names of its method and its parameters are known. -/
theorem Scope.tracks_start {s : Scope} (h : List.Forall₂ (Decl.Gives vars) gs ids)
    (hids : s.result :: s.params = ids) (hlocals : s.locals = #[]) (hsize : s.vars.size = vars.size)
    (hnames : ∀ id, (s.vars.getD id default).name = (vars.getD id default).name) :
    s.Tracks (gs.map (·.name)) [] := by
  refine ⟨?_, ?_, ?_⟩
  · rw [hids, hsize]
    exact valid_of_gives h
  · intro x
    simp only [Scope.isSome_lookup, hids, hlocals, hnames, ← names_of_gives h, List.mem_map]
    simp
  · rw [hlocals]
    exact .nil

end Variables

section Methods

theorem readBody_faults {w : Word} {s : Scope} {block : Block} : (readBody w s block).2.1 = [] ↔
    block.close.kind = .mark .rbrace ∧ (s.readAll block.clauses).2 = [] ∧
      ∃ r, packVariables w ((s.readAll block.clauses).1.locals.toList.map fun l => (l.id, l.span))
        (s.readAll block.clauses).1.vars = .ok r := by
  unfold readBody
  simp only
  split_ifs with hclose
  · simp [hclose]
  · split <;> simp_all

theorem readBody_some {w : Word} {s : Scope} {block : Block} (h : (readBody w s block).2.1 = []) :
    ∃ b, (readBody w s block).2.2 = some b := by
  unfold readBody at h ⊢
  simp only at h ⊢
  split_ifs at h ⊢ with hclose
  · simp at h
  · split at h
    · simp at h
    · simp_all

theorem readBody_accepts {w : Word} {s : Scope} {known : List String} (h : s.Tracks known []) (block : Block) :
    (readBody w s block).2.1 = [] ↔ ∃ sts, Block.Says sts block ∧ Grammar.ValidStmts known sts ∧
      Grammar.Packs w (sts.flatMap Stmt.declared) := by
  have hpack : ∀ {sts}, List.Forall₂ Stmt.Written sts block.clauses → Grammar.ValidStmts known sts →
      (s.readAll block.clauses).2 = [] ∧
      ((∃ r, packVariables w ((s.readAll block.clauses).1.locals.toList.map fun l => (l.id, l.span))
        (s.readAll block.clauses).1.vars = .ok r) ↔ Grammar.Packs w (sts.flatMap Stmt.declared)) := by
    intro sts hsts hvalid
    obtain ⟨hf, known', htracks⟩ := Scope.readAll_complete hsts h hvalid
    refine ⟨hf, packVariables_accepts w ?_⟩
    simpa [List.map_map, Function.comp_def] using htracks.locals
  rw [readBody_faults]
  constructor
  · rintro ⟨hclose, hf, hroom⟩
    obtain ⟨sts, hsts, hvalid⟩ := Scope.readAll_sound _ h hf
    exact ⟨sts, ⟨hclose, hsts⟩, hvalid, (hpack hsts hvalid).2.1 hroom⟩
  · rintro ⟨sts, ⟨hclose, hsts⟩, hvalid, hroom⟩
    obtain ⟨hf, hiff⟩ := hpack hsts hvalid
    exact ⟨hclose, hf, hiff.2 hroom⟩

/-- Parameters are declared without a problem if their widths are not zero and their names are new. They
come after the parameters `old` that are already declared, the latest of them first. -/
theorem declareParams_accepts {gs : List Decl} {ds : List Declarator} (hds : List.Forall₂ Decl.Declares gs ds) :
    ∀ {vars : Array Variable} {declared : List (VarId × Span)} {old : List Decl},
      List.Forall₂ (Decl.Gives vars) old (declared.map (·.1)) →
      ((declareParams vars declared ds).2.2 = [] ↔
        (∀ g ∈ gs, g.Valid) ∧ (gs.map (·.name)).Nodup ∧ ∀ g ∈ gs, g.name ∉ old.map (·.name)) ∧
      ((declareParams vars declared ds).2.2 = [] → List.Forall₂ (Decl.Gives (declareParams vars declared ds).1)
        (old.reverse ++ gs) ((declareParams vars declared ds).2.1.map (·.1))) := by
  induction hds with
  | nil =>
    intro vars declared old hold
    refine ⟨by simp [declareParams], fun _ => ?_⟩
    rw [List.append_nil, declareParams, List.map_reverse]
    exact List.rel_reverse hold
  | @cons g d gs ds hg _ ih =>
    intro vars declared old hold
    have htaken : (declared.any fun v => (vars.getD v.1 default).name == d.name) = true ↔
        g.name ∈ old.map (·.name) := by
      rw [← names_of_gives hold, hg.name, List.any_eq_true, List.map_map, List.mem_map]
      simp
    rw [declareParams]
    by_cases hname : g.name ∈ old.map (·.name)
    · rw [if_pos (htaken.2 hname)]
      refine ⟨⟨fun h => ?_, fun h => ?_⟩, fun h => ?_⟩
      · exact absurd h (List.cons_ne_nil _ _)
      · exact absurd hname (h.2.2 g List.mem_cons_self)
      · exact absurd h (List.cons_ne_nil _ _)
    · rw [if_neg (mt htaken.1 hname)]
      by_cases hvalid : g.Valid
      · have hwidth : d.checkedWidth.2 = [] := Declarator.checkedWidth_eq_nil.2 (hg.valid_iff.1 hvalid)
        obtain ⟨hiff, hgives⟩ := @ih (vars.push (d.toVariable .params)) ((vars.size, d.span) :: declared) (g :: old)
          (.cons (hg.gives hvalid _ _) (hold.imp fun g id h => h.grows (grows_push _ _)))
        simp only [hwidth, List.nil_append]
        refine ⟨hiff.trans ?_, fun h => ?_⟩
        · rw [List.map_cons, forall_notMem_cons, List.forall_mem_cons, List.map_cons, List.nodup_cons,
            List.forall_mem_cons]
          tauto
        · simpa using hgives h
      · have hwidth : d.checkedWidth.2 ≠ [] := mt Declarator.checkedWidth_eq_nil.1 (mt hg.valid_iff.2 hvalid)
        refine ⟨⟨fun h => ?_, fun h => ?_⟩, fun h => ?_⟩
        · exact absurd (List.append_eq_nil_iff.1 h).1 hwidth
        · exact absurd (h.1 g List.mem_cons_self) hvalid
        · exact absurd (List.append_eq_nil_iff.1 h).1 hwidth

/-- The result and the parameters of a method, declared after the variables `vars`. -/
def Heading.declared (h : Heading) (vars : Array Variable) : Array Variable × List (VarId × Span) × List Diagnostic :=
  declareParams (vars.push (h.result.toVariable .result)) [] h.params

/-- Where the body of a method begins, once its parameters have their slots. -/
def Heading.bodyScope (h : Heading) (vars packed : Array Variable) : Scope :=
  { vars := packed, result := vars.size, params := (h.declared vars).2.1.map (·.1) }

theorem readMethod_faults {w : Word} {vars : Array Variable} {h : Heading} {block : Option Block} :
    ((readMethod w vars h block).faults = [] ↔
      h.result.width ≠ 0 ∧ (h.result.toVariable .result).width ≤ w.bits ∧ (h.declared vars).2.2 = [] ∧
        ∃ r, packVariables w (h.declared vars).2.1 (h.declared vars).1 = .ok r ∧
          ∀ b ∈ block, (readBody w (h.bodyScope vars r.2) b).2.1 = []) ∧
    ((readMethod w vars h block).faults = [] →
      ∃ m, (readMethod w vars h block).method = some m ∧ m.name = h.result.name) := by
  rw [← Declarator.checkedWidth_eq_nil]
  unfold readMethod
  simp only
  split_ifs with hwide
  · refine ⟨⟨fun hf => ?_, fun hok => ?_⟩, fun hf => ?_⟩
    · simp at hf
    · exact absurd hok.2.1 (not_le.2 hwide)
    · simp at hf
  · have hdeclared : declareParams (vars.push (h.result.toVariable .result)) [] h.params = h.declared vars := rfl
    rw [hdeclared]
    cases hpack : packVariables w (h.declared vars).2.1 (h.declared vars).1 with
    | error d => simp
    | ok r =>
      cases block with
      | none => simp [not_lt.1 hwide]
      | some block =>
        have hscope : (⟨r.2, vars.size, (h.declared vars).2.1.map (·.1), #[], #[]⟩ : Scope) =
            h.bodyScope vars r.2 := rfl
        simp only [hscope]
        refine ⟨?_, fun hf => ?_⟩
        · simp [not_lt.1 hwide]
        · obtain ⟨b, hb⟩ := readBody_some (List.append_eq_nil_iff.1 hf).2
          exact ⟨_, by rw [hb]; rfl, rfl⟩

theorem Heading.bodyScope_tracks {w : Word} {vars : Array Variable} {h : Heading} {g : Grammar.Signature}
    {r : Layout × Array Variable} (hg : g.Says h) (hhead : g.head.Valid) (hparams : (h.declared vars).2.2 = [])
    (hpack : packVariables w (h.declared vars).2.1 (h.declared vars).1 = .ok r) :
    (h.bodyScope vars r.2).Tracks (g.head.name :: g.params.map (·.name)) [] := by
  have hdecl : Declared (vars.push (h.result.toVariable .result)) (h.declared vars).1 (h.declared vars).2.1 :=
    declareParams_declared h.params (.nil _)
  obtain ⟨-, hsize, -, hnames⟩ :=
    packVariables_placed hpack hdecl.nodup hdecl.valid hdecl.storage_eq hdecl.width_pos
  have hresult : g.head.Gives (h.declared vars).1 vars.size :=
    (hg.result.gives hhead vars .result).grows hdecl.grows
  have hothers := (declareParams_accepts hg.params .nil).2 hparams
  exact Scope.tracks_start (.cons hresult hothers) rfl rfl hsize hnames

theorem readMethod_accepts {w : Word} {vars : Array Variable} {h : Heading} {block : Option Block}
    {g : Grammar.Signature} {tags : List String} (hg : g.Says h)
    (htags : ∀ tag ∈ tags, tag ∈ ["public", "private", "ignore"]) :
    (readMethod w vars h block).faults = [] ↔
      ∃ body, Option.Rel Block.Says body block ∧ Grammar.Method.Valid w ⟨g, tags, body⟩ := by
  obtain ⟨hnotes, hgives⟩ := @declareParams_accepts _ _ hg.params (vars.push (h.result.toVariable .result)) [] [] .nil
  change (h.declared vars).2.2 = [] ↔ _ at hnotes
  have hpacks : (h.declared vars).2.2 = [] →
      ((∃ r, packVariables w (h.declared vars).2.1 (h.declared vars).1 = .ok r) ↔ Grammar.Packs w g.params) :=
    fun hparams => packVariables_accepts w (hgives hparams)
  rw [readMethod_faults.1]
  constructor
  · rintro ⟨hwidth, hle, hparams, r, hpack, hblock⟩
    have hhead : g.head.Valid := hg.result.valid_iff.2 hwidth
    rw [hg.result.toVariable_width hhead] at hle
    obtain ⟨hvalid, hnames, -⟩ := hnotes.1 hparams
    have hroom := (hpacks hparams).1 ⟨r, hpack⟩
    cases block with
    | none =>
      exact ⟨none, .none, htags, hhead, hle, hvalid, hnames, hroom, fun _ hsts => (nomatch hsts),
        fun _ hsts => nomatch hsts⟩
    | some b =>
      obtain ⟨sts, hsays, hstatements, hlocals⟩ :=
        (readBody_accepts (h.bodyScope_tracks hg hhead hparams hpack) b).1 (hblock b rfl)
      refine ⟨some sts, .some hsays, htags, hhead, hle, hvalid, hnames, hroom, ?_, ?_⟩
      · rintro _ ⟨⟩
        exact hstatements
      · rintro _ ⟨⟩
        exact hlocals
  · rintro ⟨body, hbody, hvalid⟩
    have hparams := hnotes.2 ⟨hvalid.params, hvalid.param_names, by simp⟩
    obtain ⟨r, hpack⟩ := (hpacks hparams).2 hvalid.params_pack
    refine ⟨hg.result.valid_iff.1 hvalid.head, ?_, hparams, r, hpack, ?_⟩
    · rw [hg.result.toVariable_width hvalid.head]
      exact hvalid.head_le
    · rintro b ⟨⟩
      cases hbody with
      | some hsays =>
        exact (readBody_accepts (h.bodyScope_tracks hg hvalid.head hparams hpack) b).2
          ⟨_, hsays, hvalid.statements _ rfl, hvalid.locals_pack _ rfl⟩

end Methods

section Drafts

/-- The names of the methods that have been kept, the latest first. -/
def Draft.names (d : Draft) : List String :=
  d.unit.methods.toList.reverse.map (·.name)

theorem Draft.isSome_method? {d : Draft} {name : String} : (d.unit.method? name).isSome ↔ name ∈ d.names := by
  simp [SourceUnit.method?, Draft.names]

theorem Draft.insert_faults {d : Draft} {m : Method} :
    (d.insert m).faults = [] ↔ d.faults = [] ∧ m.name ∉ d.names := by
  unfold Draft.insert
  split_ifs with hname
  · rw [Draft.isSome_method?] at hname
    simp [hname]
  · rw [Draft.isSome_method?] at hname
    simp [hname]

theorem Draft.insert_names {d : Draft} {m : Method} (h : m.name ∉ d.names) :
    (d.insert m).names = m.name :: d.names := by
  rw [Draft.insert, if_neg (mt Draft.isSome_method?.1 h)]
  simp [Draft.names]

theorem Draft.faults_of_add_method {d : Draft} {notes : List Diagnostic} {h : Heading} {block : Option Block}
    (hf : (d.add (.method notes h block)).faults = []) :
    d.faults = [] ∧ notes = [] ∧ (readMethod d.unit.word d.unit.vars h block).faults = [] := by
  have hall : d.faults ++ notes ++ (readMethod d.unit.word d.unit.vars h block).faults = [] := by
    rw [Draft.add] at hf
    simp only at hf
    split at hf
    · exact (Draft.insert_faults.1 hf).1
    · exact hf
  simpa [and_assoc] using hall

theorem Draft.faults_of_add {d : Draft} {e : Entry} (h : (d.add e).faults = []) : d.faults = [] := by
  cases e with
  | imported => exact h
  | broken faults => exact (List.append_eq_nil_iff.1 h).1
  | method notes heading block => exact (Draft.faults_of_add_method h).1

theorem Draft.faults_of_addAll (es : List Entry) : ∀ {d : Draft}, (d.addAll es).faults = [] → d.faults = [] := by
  induction es with
  | nil => exact fun h => h
  | cons e es ih =>
    intro d h
    rw [Draft.addAll] at h
    split_ifs at h
    · exact h
    · exact Draft.faults_of_add (ih h)

theorem Draft.addAll_cons {d : Draft} (h : d.faults = []) (e : Entry) (es : List Entry) :
    d.addAll (e :: es) = (d.add e).addAll es := by
  rw [Draft.addAll, if_neg (by simp [Draft.isFatal, h])]

/-- A method is added without a problem if nothing is wrong with it and its name is new. -/
theorem Draft.add_method {d : Draft} (hd : d.faults = []) {h : Heading} {block : Option Block}
    (hread : (readMethod d.unit.word d.unit.vars h block).faults = []) :
    ((d.add (.method [] h block)).faults = [] ↔ h.result.name ∉ d.names) ∧
      (h.result.name ∉ d.names → (d.add (.method [] h block)).names = h.result.name :: d.names) := by
  obtain ⟨m, hm, hname⟩ := readMethod_faults.2 hread
  have hadd : d.add (.method [] h block) =
      Draft.insert ⟨{ d.unit with vars := (readMethod d.unit.word d.unit.vars h block).vars }, []⟩ m := by
    rw [Draft.add]
    simp only [hm, hd, hread, List.append_nil]
  rw [hadd, Draft.insert_faults, ← hname]
  exact ⟨and_iff_right rfl, fun hnew => Draft.insert_names hnew⟩

theorem Draft.add_word (d : Draft) (e : Entry) : (d.add e).unit.word = d.unit.word := by
  cases e with
  | imported | broken => rfl
  | method notes h block =>
    rw [Draft.add]
    simp only
    split
    · rw [Draft.insert_word]
    · rfl

end Drafts

section Items

theorem Clause.cut_text {stops : Kind → Bool} {finish : Token} (ts : List Token) : ∀ {c : Clause} {rest : List Token},
    Clause.cut stops finish ts = (c, rest) → c.stop.kind ≠ finish.kind → ts = c.tokens ++ c.stop :: rest := by
  induction ts with
  | nil =>
    rintro c rest ⟨⟩ hstop
    exact absurd rfl hstop
  | cons t ts ih =>
    intro c rest hcut hstop
    rw [Clause.cut] at hcut
    split_ifs at hcut
    · cases hcut
      rfl
    · cases hcut
      rw [List.cons_append, ← ih rfl hstop]

theorem Clause.cut_append {stops : Kind → Bool} (finish : Token) {front : List Token} {stop : Token} (rest : List Token)
    (hfront : ∀ t ∈ front, ¬ stops t.kind) (hstop : stops stop.kind) :
    Clause.cut stops finish (front ++ stop :: rest) = (⟨front, stop⟩, rest) := by
  induction front with
  | nil => simp [Clause.cut, hstop]
  | cons t front ih =>
    obtain ⟨ht, hfront⟩ := List.forall_mem_cons.1 hfront
    rw [List.cons_append, Clause.cut, if_neg ht, ih hfront]

/-- The rules for the items of a unit after methods with the names `taken`. -/
def Grammar.ValidItems (w : Word) (taken : List String) : List Grammar.Item → Prop
  | [] => True
  | .imports _ :: items => ValidItems w taken items
  | .method m :: items => m.Valid w ∧ m.head.name ∉ taken ∧ ValidItems w (m.head.name :: taken) items

theorem Grammar.validItems_iff (w : Word) (items : List Grammar.Item) : ∀ {taken : List String},
    Grammar.ValidItems w taken items ↔ (∀ m ∈ items.filterMap Grammar.Item.method?, m.Valid w) ∧
      ((items.filterMap Grammar.Item.method?).map (·.head.name)).Nodup ∧
      ∀ m ∈ items.filterMap Grammar.Item.method?, m.head.name ∉ taken := by
  induction items with
  | nil => simp [Grammar.ValidItems]
  | cons item items ih =>
    intro taken
    cases item with
    | imports name => exact ih
    | method m =>
      rw [Grammar.ValidItems, ih, forall_notMem_cons]
      simp only [List.filterMap_cons, Grammar.Item.method?, List.forall_mem_cons, List.map_cons, List.nodup_cons]
      tauto

theorem Draft.addAll_method {d : Draft} {notes : List Diagnostic} {h : Heading} {block : Option Block}
    {es : List Entry} (hf : (d.addAll (.method notes h block :: es)).faults = []) :
    notes = [] ∧ (readMethod d.unit.word d.unit.vars h block).faults = [] ∧ h.result.name ∉ d.names ∧
      ∃ d' : Draft, d'.unit.word = d.unit.word ∧ d'.names = h.result.name :: d.names ∧ (d'.addAll es).faults = [] := by
  have hd := Draft.faults_of_addAll _ hf
  rw [Draft.addAll_cons hd] at hf
  have hadd := Draft.faults_of_addAll _ hf
  obtain ⟨-, rfl, hread⟩ := Draft.faults_of_add_method hadd
  obtain ⟨hiff, hnames⟩ := Draft.add_method hd hread
  exact ⟨rfl, hread, hiff.1 hadd, _, d.add_word _, hnames (hiff.1 hadd), hf⟩

theorem Entry.head_kinds {finish : Token} (hfinish : finish.kind = .finish) {ts : List Token} {m : Mark}
    (hstop : (Entry.head finish ts).1.stop.kind = .mark m) : ts.map (·.kind) =
      (Entry.head finish ts).1.tokens.map (·.kind) ++ .mark m :: (Entry.head finish ts).2.map (·.kind) := by
  have hne : (Entry.head finish ts).1.stop.kind ≠ finish.kind := by
    rw [hstop, hfinish]
    exact Kind.noConfusion
  have htext : ts = (Entry.head finish ts).1.tokens ++ (Entry.head finish ts).1.stop :: (Entry.head finish ts).2 :=
    Clause.cut_text ts rfl hne
  rw [← hstop, ← List.map_cons, ← List.map_append, ← htext]

theorem Entry.headOf {c : Clause} {e : Entry} (hentry : Entry.ofClause c = e) (h : e.faults = []) : e.HeadOf c := by
  subst hentry
  exact Entry.ofClause_sound h

/-- Items that are taken up without a problem come from the tokens of items that follow the rules. -/
theorem Draft.addAll_sound {finish : Token} (hfinish : finish.kind = .finish) (ts : List Token) :
    ∀ {d : Draft}, (d.addAll (Entry.split finish ts)).faults = [] →
      ∃ items : List Grammar.Item, items.flatMap Grammar.Item.kinds = ts.map (·.kind) ∧
        Grammar.ValidItems d.unit.word d.names items := by
  fun_induction Entry.split finish ts
  case case1 => exact fun _ => ⟨[], rfl, trivial⟩
  case case2 t ts c name span hentry ih =>
    intro d hf
    rw [Draft.addAll_cons (Draft.faults_of_addAll _ hf)] at hf
    obtain ⟨items, hitems, hvalid⟩ := ih hf
    cases Entry.headOf hentry rfl with
    | imported hkinds hstop =>
      refine ⟨.imports name :: items, ?_, hvalid⟩
      rw [Entry.head_kinds hfinish hstop, hkinds, List.flatMap_cons, hitems]
      rfl
  case case3 t ts c faults hentry ih =>
    intro d hf
    rw [Draft.addAll_cons (Draft.faults_of_addAll _ hf)] at hf
    have hnil := (List.append_eq_nil_iff.1 (Draft.faults_of_addAll _ hf)).2
    exact absurd hnil (Entry.broken_of_ofClause hentry)
  case case4 t ts c notes h _ hentry hstop ih =>
    intro d hf
    obtain ⟨rfl, hread, hnew, d', hword, hnames, hf'⟩ := Draft.addAll_method hf
    obtain ⟨items, hitems, hvalid⟩ := ih hf'
    rw [hword, hnames] at hvalid
    cases Entry.headOf hentry rfl with
    | @method tags g _ hkinds htags _ hg =>
      rw [← hg.result.name] at hnew hvalid
      obtain ⟨body, hbody, hmethod⟩ := (readMethod_accepts hg htags).1 hread
      cases hbody with
      | @some sts _ hsays =>
        refine ⟨.method ⟨g, tags, some sts⟩ :: items, ?_, hmethod, hnew, hvalid⟩
        rw [Entry.head_kinds hfinish hstop, hkinds, Block.split_sound rfl (by rw [hfinish]; decide) hsays, ← hitems]
        simp [Grammar.Item.kinds, Grammar.Method.kinds]
  case case5 t ts c notes h _ hentry hbrace ih =>
    intro d hf
    obtain ⟨rfl, hread, hnew, d', hword, hnames, hf'⟩ := Draft.addAll_method hf
    obtain ⟨items, hitems, hvalid⟩ := ih hf'
    rw [hword, hnames] at hvalid
    cases Entry.headOf hentry rfl with
    | @method tags g _ hkinds htags hstop hg =>
      rw [← hg.result.name] at hnew hvalid
      obtain ⟨body, hbody, hmethod⟩ := (readMethod_accepts hg htags).1 hread
      cases hbody
      refine ⟨.method ⟨g, tags, none⟩ :: items, ?_, hmethod, hnew, hvalid⟩
      rw [Entry.head_kinds hfinish (hstop.resolve_right hbrace), hkinds, ← hitems]
      simp [Grammar.Item.kinds, Grammar.Method.kinds]

section Split

variable {finish : Token} {ts rest : List Token} {c : Clause} (hts : ts ≠ [])
  (hhead : Entry.head finish ts = (c, rest))

include hts hhead

theorem Entry.split_imported {name : String} {span : Span} (h : Entry.ofClause c = .imported name span) :
    Entry.split finish ts = .imported name span :: Entry.split finish rest := by
  obtain ⟨t, ts, rfl⟩ := List.exists_cons_of_ne_nil hts
  rw [Entry.split, hhead]
  simp only [h]

theorem Entry.split_broken {faults : List Diagnostic} (h : Entry.ofClause c = .broken faults) :
    Entry.split finish ts = .broken faults :: Entry.split finish (c.skip rest) := by
  obtain ⟨t, ts, rfl⟩ := List.exists_cons_of_ne_nil hts
  rw [Entry.split, hhead]
  simp only [h]

variable {notes : List Diagnostic} {heading : Heading} {block : Option Block}

theorem Entry.split_method (h : Entry.ofClause c = .method notes heading block)
    (hstop : c.stop.kind = .mark .semicolon) :
    Entry.split finish ts = .method notes heading none :: Entry.split finish rest := by
  obtain ⟨t, ts, rfl⟩ := List.exists_cons_of_ne_nil hts
  rw [Entry.split, hhead]
  simp [h, hstop]

theorem Entry.split_block (h : Entry.ofClause c = .method notes heading block) (hstop : c.stop.kind = .mark .lbrace)
    {b : Block} {after : List Token} (hblock : Block.split finish rest = (b, after)) :
    Entry.split finish ts = .method notes heading (some b) :: Entry.split finish after := by
  obtain ⟨t, ts, rfl⟩ := List.exists_cons_of_ne_nil hts
  rw [Entry.split, hhead]
  simp [h, hstop, hblock]

end Split

theorem Grammar.paramKinds_not_endsHead (ds : List Decl) (variadic : Bool) :
    ∀ k ∈ Grammar.paramKinds ds variadic, ¬ k.endsHead := by
  fun_induction Grammar.paramKinds ds variadic with
  | case1 => exact List.forall_mem_nil _
  | case2 => decide
  | case3 d => exact d.not_endsHead
  | case4 d ds variadic _ ih =>
    exact List.forall_mem_append.2 ⟨d.not_endsHead, List.forall_mem_cons.2 ⟨by decide, ih⟩⟩

theorem Grammar.Method.heading_not_endsHead (tags : List String) (g : Grammar.Signature) :
    ∀ k ∈ Grammar.tagKinds tags ++ g.kinds, ¬ k.endsHead := by
  refine List.forall_mem_append.2 ⟨?_, ?_⟩
  · intro k hk
    obtain ⟨tag, -, htag⟩ := List.mem_flatMap.1 hk
    rcases List.mem_pair.1 htag with rfl | rfl <;> simp [Kind.endsHead]
  · refine List.forall_mem_append.2 ⟨g.head.not_endsHead, List.forall_mem_cons.2 ⟨by decide, ?_⟩⟩
    exact List.forall_mem_append.2 ⟨Grammar.paramKinds_not_endsHead _ _, by decide⟩

theorem Entry.head_complete (finish : Token) {ks : List Kind} {m : Mark} {ts : List Token} {others : List Kind}
    (hts : ts.map (·.kind) = ks ++ .mark m :: others) (hks : ∀ k ∈ ks, ¬ k.endsHead) (hm : (Kind.mark m).endsHead) :
    ts ≠ [] ∧ ∃ c rest, Entry.head finish ts = (c, rest) ∧ c.tokens.map (·.kind) = ks ∧ c.stop.kind = .mark m ∧
      rest.map (·.kind) = others := by
  obtain ⟨front, last, rfl, hfront, hlast⟩ := exists_of_kinds_append hts
  obtain ⟨span, rest, rfl, hrest⟩ := exists_of_kinds_cons hlast
  refine ⟨by simp, ⟨front, ⟨.mark m, span⟩⟩, rest, Clause.cut_append finish rest ?_ hm, hfront, rfl, hrest⟩
  intro t ht
  exact hks _ (hfront ▸ List.mem_map_of_mem ht)

theorem Draft.add_method_complete {d : Draft} (hd : d.faults = []) {g : Grammar.Signature} {tags : List String}
    {body : Option (List Stmt)} {h : Heading} {block : Option Block} (hg : g.Says h)
    (hbody : Option.Rel Block.Says body block) (hvalid : Grammar.Method.Valid d.unit.word ⟨g, tags, body⟩)
    (hnew : g.head.name ∉ d.names) : (d.add (.method [] h block)).faults = [] ∧
      (d.add (.method [] h block)).names = g.head.name :: d.names := by
  have hread : (readMethod d.unit.word d.unit.vars h block).faults = [] :=
    (readMethod_accepts hg hvalid.tags).2 ⟨body, hbody, hvalid⟩
  obtain ⟨hiff, hnames⟩ := Draft.add_method hd hread
  rw [← hg.result.name] at hiff hnames
  exact ⟨hiff.2 hnew, hnames hnew⟩

/-- Items that follow the rules are taken up without a problem. -/
theorem Draft.addAll_complete (finish : Token) {items : List Grammar.Item} : ∀ {d : Draft} {ts : List Token},
    d.faults = [] → Grammar.ValidItems d.unit.word d.names items →
    ts.map (·.kind) = items.flatMap Grammar.Item.kinds → (d.addAll (Entry.split finish ts)).faults = [] := by
  induction items with
  | nil =>
    intro d ts hd _ hts
    obtain rfl := List.map_eq_nil_iff.1 hts
    rw [Entry.split]
    exact hd
  | cons item items ih =>
    intro d ts hd hvalid hts
    cases item with
    | imports name =>
      obtain ⟨hne, c, rest, hhead, hkinds, hstop, hrest⟩ :=
        @Entry.head_complete finish [.keyword .imports, .name name] .semicolon ts _ hts (by simp [Kind.endsHead]) rfl
      obtain ⟨span, hentry⟩ := Entry.ofClause_imported hkinds hstop
      rw [Entry.split_imported hne hhead hentry, Draft.addAll_cons hd]
      exact ih hd hvalid hrest
    | method m =>
      obtain ⟨hmethod, hnew, hvalids⟩ := hvalid
      obtain ⟨g, tags, body⟩ := m
      have hheading := Grammar.Method.heading_not_endsHead tags g
      cases body with
      | none =>
        have hts' : ts.map (·.kind) = (Grammar.tagKinds tags ++ g.kinds) ++ .mark .semicolon ::
            items.flatMap Grammar.Item.kinds := by
          simpa [Grammar.Item.kinds, Grammar.Method.kinds] using hts
        obtain ⟨hne, c, rest, hhead, hkinds, hstop, hrest⟩ := Entry.head_complete finish hts' hheading rfl
        obtain ⟨h, hentry, hg⟩ :=
          Entry.ofClause_method hkinds hmethod.tags (.inl hstop) hmethod.head hmethod.params
        obtain ⟨hadd, hnames⟩ := Draft.add_method_complete hd hg .none hmethod hnew
        rw [Entry.split_method hne hhead hentry hstop, Draft.addAll_cons hd]
        refine ih hadd ?_ hrest
        rw [Draft.add_word, hnames]
        exact hvalids
      | some sts =>
        have hts' : ts.map (·.kind) = (Grammar.tagKinds tags ++ g.kinds) ++ .mark .lbrace ::
            (Grammar.blockKinds sts ++ items.flatMap Grammar.Item.kinds) := by
          simpa [Grammar.Item.kinds, Grammar.Method.kinds] using hts
        obtain ⟨hne, c, rest, hhead, hkinds, hstop, hrest⟩ := Entry.head_complete finish hts' hheading rfl
        obtain ⟨inside, after, rfl, hinside, hafter⟩ := exists_of_kinds_append hrest
        obtain ⟨h, hentry, hg⟩ :=
          Entry.ofClause_method hkinds hmethod.tags (.inr hstop) hmethod.head hmethod.params
        obtain ⟨b, hsplit, hb⟩ := Block.split_complete finish after (hmethod.statements sts rfl) hinside
        obtain ⟨hadd, hnames⟩ := Draft.add_method_complete hd hg (.some hb) hmethod hnew
        rw [Entry.split_block hne hhead hentry hstop hsplit, Draft.addAll_cons hd]
        refine ih hadd ?_ hafter
        rw [Draft.add_word, hnames]
        exact hvalids

end Items

section Units

theorem Draft.header_sound {w : Word} {finish : Token} (hfinish : finish.kind = .finish) {ts : List Token}
    (h : (Draft.header w finish ts).1.faults = []) : ∃ bits name,
      ts.map (·.kind) = .keyword .object :: .number bits :: .name name :: .mark .semicolon ::
        (Draft.header w finish ts).2.map (·.kind) ∧ (Text.ofDecimal? UInt64.size bits.toList).isSome := by
  unfold Draft.header at h ⊢
  split at h
  · rename_i span rest
    simp only at h ⊢
    split at h
    · rename_i n name c hheader
      obtain ⟨bits, s₁, s₂, hc, hn, -, hstop⟩ := Read.objectHeader_ok.1 hheader
      refine ⟨bits, name, ?_, Option.isSome_of_mem hn⟩
      have hkinds := @Entry.head_kinds finish hfinish rest .semicolon (by rw [hc]; exact hstop)
      rw [List.map_cons, hkinds, hc]
      rfl
    · cases h
  · cases h

theorem Draft.header_complete (w : Word) (finish : Token) {ts : List Token} {bits name : String} {others : List Kind}
    (hts : ts.map (·.kind) = .keyword .object :: .number bits :: .name name :: .mark .semicolon :: others)
    (hbits : (Text.ofDecimal? UInt64.size bits.toList).isSome) :
    (Draft.header w finish ts).1.faults = [] ∧ (Draft.header w finish ts).2.map (·.kind) = others := by
  obtain ⟨n, hn⟩ := Option.isSome_iff_exists.1 hbits
  obtain ⟨span, rest, rfl, hrest⟩ := exists_of_kinds_cons hts
  obtain ⟨s₁, ts₁, rfl, h₁⟩ := exists_of_kinds_cons hrest
  obtain ⟨s₂, ts₂, rfl, h₂⟩ := exists_of_kinds_cons h₁
  obtain ⟨s₃, after, rfl, hafter⟩ := exists_of_kinds_cons h₂
  have hhead : Entry.head finish (⟨.number bits, s₁⟩ :: ⟨.name name, s₂⟩ :: ⟨.mark .semicolon, s₃⟩ :: after) =
      (⟨[⟨.number bits, s₁⟩, ⟨.name name, s₂⟩], ⟨.mark .semicolon, s₃⟩⟩, after) := rfl
  have hheader : Read.objectHeader ⟨[⟨.number bits, s₁⟩, ⟨.name name, s₂⟩], ⟨.mark .semicolon, s₃⟩⟩ =
      .ok ((n, name), ⟨[], ⟨.mark .semicolon, s₃⟩⟩) := Read.objectHeader_ok.2 ⟨bits, s₁, s₂, rfl, hn, rfl, rfl⟩
  simp only [Draft.header, hhead, hheader]
  exact ⟨trivial, hafter⟩

theorem Draft.header_unit (w : Word) (finish : Token) (ts : List Token) :
    (Draft.header w finish ts).1.unit.word = w ∧ (Draft.header w finish ts).1.names = [] := by
  unfold Draft.header
  split
  · simp only
    split <;> exact ⟨rfl, rfl⟩
  · exact ⟨rfl, rfl⟩

/-- A list of tokens is read without a problem exactly if it is the text of a unit that follows the rules. -/
theorem accepts_exactly_grammar (w : Word) (length : ℕ) (ts : List Token) :
    (SourceUnit.ofTokens w (Token.finish length) ts).2 = [] ↔
      ∃ u : Grammar.Unit, u.kinds = ts.map (·.kind) ∧ u.Valid w := by
  obtain ⟨hword, hnames⟩ := Draft.header_unit w (Token.finish length) ts
  have hfinish : (Token.finish length).kind = .finish := rfl
  have hfaults : (SourceUnit.ofTokens w (Token.finish length) ts).2 =
      ((Draft.header w (Token.finish length) ts).1.addAll
        (Entry.split (Token.finish length) (Draft.header w (Token.finish length) ts).2)).faults := rfl
  rw [hfaults]
  constructor
  · intro hf
    obtain ⟨bits, name, hheader, hbits⟩ := Draft.header_sound hfinish (Draft.faults_of_addAll _ hf)
    obtain ⟨items, hitems, hvalid⟩ := Draft.addAll_sound hfinish _ hf
    rw [hword, hnames, Grammar.validItems_iff] at hvalid
    refine ⟨⟨bits, name, items⟩, ?_, hbits, hvalid.1, hvalid.2.1⟩
    rw [hheader, ← hitems]
    rfl
  · rintro ⟨⟨bits, name, items⟩, hkinds, hbits, hmethods, hdistinct⟩
    obtain ⟨hf, hitems⟩ := Draft.header_complete w (Token.finish length) hkinds.symm hbits
    refine Draft.addAll_complete _ hf ?_ hitems
    rw [hword, hnames, Grammar.validItems_iff]
    exact ⟨hmethods, hdistinct, by simp⟩

end Units
end Bitpack
