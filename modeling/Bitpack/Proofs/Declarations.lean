import Mathlib
import Bitpack.Proofs.Emission

/-! Names in the generated code. Within a function the temporaries and the arrays of arguments are declared with
consecutive numbers, each before it is mentioned. In the file each method that is not ignored has one prototype,
the one definition of a method with a body has the head of its prototype, and all that is called has a prototype. -/

namespace Bitpack

open C (Expr Stmt)

namespace C

def Stmt.newTemp? : Stmt → Option ℕ
  | .declareTemp index _ => some index
  | _ => none

def Stmt.newArray? : Stmt → Option ℕ
  | .declareWords (.args index) _ => some index
  | _ => none

def Stmt.Unnumbered (s : Stmt) : Prop :=
  s.newTemp? = none ∧ s.newArray? = none

theorem Stmt.unnumbered_of_target {s : Stmt} {target : Bank × ℕ} (h : s.target? = some target) : s.Unnumbered := by
  cases s with
  | setWord | andWord | orWord => exact ⟨rfl, rfl⟩
  | discard | declareWords | declareResult | declareTemp | setResult | print | returnResult => cases h

/-- A kind of numbered names: the one that a statement declares, and those that it mentions otherwise. -/
structure Names where
  new? : Stmt → Option ℕ
  Mentions : Stmt → ℕ → Prop

namespace Names

def temps : Names where
  new? := Stmt.newTemp?
  Mentions s k := .temp k ∈ s.parts

def arrays : Names where
  new? := Stmt.newArray?
  Mentions s k := (∃ index, .word (.args k) index ∈ s.parts) ∨ (∃ function, .call function k ∈ s.parts) ∨
    ∃ index, s.target? = some (.args k, index)

variable {names : Names} {next next' : ℕ} {code code' : List Stmt}

/-- Each name is declared once, the numbers are consecutive from zero on, and a statement that mentions a name
comes after its declaration. -/
structure Declared (names : Names) (code : List Stmt) : Prop where
  consecutive : ∃ count, code.filterMap names.new? = List.range count
  before : ∀ done s rest, code = done ++ s :: rest → ∀ k, names.Mentions s k → k ∈ done.filterMap names.new?

/-- Code before which `next` names are declared and after which `next'` are. -/
inductive Counts (names : Names) : ℕ → List Stmt → ℕ → Prop
  | nil {next : ℕ} : Counts names next [] next
  | keep {next next' : ℕ} {s : Stmt} {rest : List Stmt} (hnew : names.new? s = none)
      (hmentions : ∀ k, names.Mentions s k → k < next) (hrest : Counts names next rest next') :
      Counts names next (s :: rest) next'
  | declare {next next' : ℕ} {s : Stmt} {rest : List Stmt} (hnew : names.new? s = some next)
      (hmentions : ∀ k, names.Mentions s k → k < next) (hrest : Counts names (next + 1) rest next') :
      Counts names next (s :: rest) next'

theorem Counts.append {next'' : ℕ} (h : names.Counts next code next') (h' : names.Counts next' code' next'') :
    names.Counts next (code ++ code') next'' := by
  induction h with
  | nil => exact h'
  | keep hnew hmentions _ ih => exact .keep hnew hmentions (ih h')
  | declare hnew hmentions _ ih => exact .declare hnew hmentions (ih h')

theorem Counts.split (h : names.Counts next (code ++ code') next') :
    ∃ mid, names.Counts next code mid ∧ names.Counts mid code' next' := by
  induction code generalizing next with
  | nil => exact ⟨next, .nil, h⟩
  | cons s code ih =>
    cases h with
    | keep hnew hmentions hrest =>
      obtain ⟨mid, hcode, hcode'⟩ := ih hrest
      exact ⟨mid, .keep hnew hmentions hcode, hcode'⟩
    | declare hnew hmentions hrest =>
      obtain ⟨mid, hcode, hcode'⟩ := ih hrest
      exact ⟨mid, .declare hnew hmentions hcode, hcode'⟩

/-- Statements that mention only what is declared already, and declare what comes next. -/
theorem counts_of_mentions {count : ℕ} (hmentions : ∀ s ∈ code, ∀ k, names.Mentions s k → k < next)
    (hnew : code.filterMap names.new? = List.range' next count) : names.Counts next code (next + count) := by
  induction code generalizing next count with
  | nil =>
    cases count with
    | zero => exact .nil
    | succ count => exact absurd hnew (List.cons_ne_nil _ _).symm
  | cons s code ih =>
    obtain ⟨hs, hcode⟩ := List.forall_mem_cons.1 hmentions
    cases hk : names.new? s with
    | none =>
      rw [List.filterMap_cons_none hk] at hnew
      exact .keep hk hs (ih hcode hnew)
    | some k =>
      rw [List.filterMap_cons_some hk] at hnew
      cases count with
      | zero => exact absurd hnew (List.cons_ne_nil _ _)
      | succ count =>
        obtain ⟨rfl, hnew⟩ := List.cons.inj hnew
        have hrest := ih (fun s hs k hk => Nat.lt_succ_of_lt (hcode s hs k hk)) hnew
        exact .declare hk hs (Nat.add_right_comm k 1 count ▸ hrest)

theorem counts_of_none (hmentions : ∀ s ∈ code, ∀ k, names.Mentions s k → k < next)
    (hnew : ∀ s ∈ code, names.new? s = none) : names.Counts next code next := by
  have hnil : code.filterMap names.new? = List.range' next 0 := List.filterMap_eq_nil_iff.2 hnew
  exact counts_of_mentions hmentions hnil

theorem Counts.filterMap_new (h : names.Counts next code next') :
    ∃ count, next' = next + count ∧ code.filterMap names.new? = List.range' next count := by
  induction h with
  | nil => exact ⟨0, rfl, rfl⟩
  | keep hnew _ _ ih =>
    rw [List.filterMap_cons_none hnew]
    exact ih
  | @declare next _ _ _ hnew _ _ ih =>
    obtain ⟨count, rfl, hrest⟩ := ih
    refine ⟨count + 1, by omega, ?_⟩
    rw [List.filterMap_cons_some hnew, hrest]
    rfl

theorem Counts.declared {count : ℕ} (h : names.Counts 0 code count) : names.Declared code := by
  constructor
  · obtain ⟨count, -, hnew⟩ := h.filterMap_new
    exact ⟨count, hnew.trans (List.range_eq_range' ..).symm⟩
  · rintro done s rest rfl k hk
    obtain ⟨mid, hdone, hrest⟩ := h.split
    obtain ⟨count, hmid, hnew⟩ := hdone.filterMap_new
    have hlt : k < mid := by
      cases hrest with
      | keep _ hmentions | declare _ hmentions => exact hmentions k hk
    rw [hnew, List.mem_range'_1]
    omega

end Names

end C

open C (Names)

theorem Variable.unnumbered_write {w : Word} {v : Variable} {e : Expr} {s : Stmt} (hs : s ∈ v.write w e) :
    s.Unnumbered := by
  rw [Variable.write_eq] at hs
  split at hs
  · exact Stmt.unnumbered_of_target (C.target_slotWrite hs)
  · obtain rfl := List.mem_singleton.1 hs
    exact ⟨rfl, rfl⟩

namespace Lower

variable {u : SourceUnit} {n : Numbering} {a : Act} {s : Stmt}

/-- A value that is held in a temporary is held in one that is declared. -/
def Held (n : Numbering) : Value → Prop
  | .temp index _ => index < n.temps
  | .const .. | .var _ => True

theorem lasting_held : Lasting u Held where
  mono {n n' v} hle h := by
    cases v with
    | temp => exact lt_of_lt_of_le h hle
    | const | var => trivial
  temp temps _ _ := Nat.lt_succ_self temps
  complement _ := trivial
  cast _ _ _ _ := trivial
  fold _ _ := trivial

theorem temp_lt_of_mem (ha : a.Given u Held n) (hs : s ∈ (a.perform u n).code) {k : ℕ} (hk : .temp k ∈ s.parts) :
    k < n.temps := by
  cases parts_perform hs hk with
  | wrapping h => cases h
  | read hv hx =>
    cases hx with
    | wrapping h => cases h
    | temp =>
      rcases hv with hv | hv
      · exact ha.values _ hv
      · cases hv

theorem array_lt_of_target (hs : s ∈ (a.perform u n).code) {k index : ℕ}
    (htarget : s.target? = some (.args k, index)) : k < (a.perform u n).next.arrays := by
  cases a with
  | apply span op stack =>
    rw [← (coincide_apply span op stack n).code] at hs
    rcases code_apply (u := u) span op stack n with ⟨h, -⟩ | ⟨e, h, -⟩ | ⟨id, e, h, -⟩
    · rw [h] at hs
      cases hs
    · rw [h, List.mem_singleton] at hs
      subst hs
      cases htarget
    · -- A variable that is written lies in the parameters, the locals or the result.
      rw [h] at hs
      have hbank := Variable.target_write hs htarget
      revert hbank
      cases (u.var id).storage with
      | params | locals | result => exact nofun
  | invoke m values =>
    rw [← (coincide_invoke m values n).code, code_invoke] at hs
    rcases List.mem_cons.1 hs with rfl | hs
    · cases htarget
    · rcases List.mem_append.1 hs with hs | hs
      · obtain ⟨_, h⟩ := target_fill hs
        rw [h] at htarget
        cases htarget
        exact Nat.lt_succ_self _
      · obtain rfl := List.mem_singleton.1 hs
        cases htarget
  | print value =>
    obtain rfl := List.mem_singleton.1 hs
    cases htarget
  | leave =>
    obtain rfl := List.mem_singleton.1 hs
    cases htarget
  | finish | refuse => cases hs

/-- Only a call mentions an array of arguments, the one that it declares. -/
theorem array_lt_of_mentions (hs : s ∈ (a.perform u n).code) {k : ℕ} (hk : Names.arrays.Mentions s k) :
    k < (a.perform u n).next.arrays := by
  rcases hk with ⟨index, hk⟩ | ⟨function, hk⟩ | ⟨index, hk⟩
  · cases parts_perform hs hk with
    | wrapping h => cases h
    | read _ hx =>
      cases hx with
      | wrapping h => cases h
      | @word _ st _ hbank =>
        cases st with
        | params | locals | result => cases hbank
  · cases parts_perform hs hk with
    | wrapping h => cases h
    | read _ hx =>
      cases hx with
      | wrapping h => cases h
    | call ha =>
      subst ha
      exact Nat.lt_succ_self _
  · exact array_lt_of_target hs hk

/-- What an act adds to the names of a function: nothing, a temporary, or an array and then a temporary. -/
inductive Adds (n : Numbering) : List Stmt → Numbering → Prop
  | nothing {code : List Stmt} (h : ∀ s ∈ code, s.Unnumbered) : Adds n code n
  | temp (e : Expr) : Adds n [.declareTemp n.temps e] ⟨n.temps + 1, n.arrays⟩
  | array {code : List Stmt} (count : ℕ) (h : ∀ s ∈ code, s.Unnumbered) (e : Expr) :
      Adds n (.declareWords (.args n.arrays) count :: (code ++ [.declareTemp n.temps e])) ⟨n.temps + 1, n.arrays + 1⟩

theorem adds_perform (a : Act) (n : Numbering) : Adds n (a.perform u n).code (a.perform u n).next := by
  cases a with
  | apply span op stack =>
    rw [← (coincide_apply span op stack n).code, ← (coincide_apply span op stack n).next]
    rcases code_apply (u := u) span op stack n with ⟨hcode, hnext⟩ | ⟨e, hcode, hnext⟩ | ⟨id, e, hcode, hnext⟩
    · rw [hcode, hnext]
      exact .nothing (List.forall_mem_nil _)
    · rw [hcode, hnext]
      exact .temp e
    · rw [hcode, hnext]
      exact .nothing fun s hs => Variable.unnumbered_write hs
  | invoke m values =>
    rw [← (coincide_invoke m values n).code, code_invoke]
    exact .array _ (fun s hs => Stmt.unnumbered_of_target (target_fill hs).choose_spec) _
  | finish | refuse => exact .nothing (List.forall_mem_nil _)
  | print | leave => exact .nothing (List.forall_mem_singleton.2 ⟨rfl, rfl⟩)

theorem counts_temps (ha : a.Given u Held n) :
    Names.temps.Counts n.temps (a.perform u n).code (a.perform u n).next.temps := by
  have hadds := adds_perform (u := u) a n
  have hmentions : ∀ s ∈ (a.perform u n).code, ∀ k, Names.temps.Mentions s k → k < n.temps :=
    fun s hs k hk => temp_lt_of_mem ha hs hk
  generalize (a.perform u n).code = code, (a.perform u n).next = n' at hadds hmentions ⊢
  cases hadds with
  | nothing h => exact Names.counts_of_none hmentions fun s hs => (h s hs).1
  | temp e => exact Names.counts_of_mentions hmentions rfl
  | @array fill count h e =>
    have hfill : fill.filterMap Stmt.newTemp? = [] := List.filterMap_eq_nil_iff.2 fun s hs => (h s hs).1
    refine Names.counts_of_mentions hmentions ?_
    change (fill ++ [Stmt.declareTemp n.temps e]).filterMap Stmt.newTemp? = _
    rw [List.filterMap_append, hfill]
    rfl

theorem counts_arrays (a : Act) (n : Numbering) :
    Names.arrays.Counts n.arrays (a.perform u n).code (a.perform u n).next.arrays := by
  have hadds := adds_perform (u := u) a n
  have hmentions : ∀ s ∈ (a.perform u n).code, ∀ k, Names.arrays.Mentions s k → k < (a.perform u n).next.arrays :=
    fun s hs k hk => array_lt_of_mentions hs hk
  generalize (a.perform u n).code = code, (a.perform u n).next = n' at hadds hmentions ⊢
  cases hadds with
  | nothing h => exact Names.counts_of_none hmentions fun s hs => (h s hs).2
  | temp e => exact Names.counts_of_none hmentions (List.forall_mem_singleton.2 rfl)
  | array count h e =>
    -- The array is declared first, and the statement that declares it mentions no other.
    refine .declare rfl (fun k hk => ?_) (Names.counts_of_none (List.forall_mem_cons.1 hmentions).2 ?_)
    · rcases hk with ⟨_, hk⟩ | ⟨_, hk⟩ | ⟨_, hk⟩ <;> cases hk
    · exact List.forall_mem_append.2 ⟨fun s hs => (h s hs).2, List.forall_mem_singleton.2 rfl⟩

theorem counts_performAll {names : Names} {number : Numbering → ℕ} {P : Numbering → Act → Prop}
    (hstep : ∀ n a, P n a → names.Counts (number n) (a.perform u n).code (number (a.perform u n).next))
    {acts : List Act} (hacts : Along u P n acts) :
    names.Counts (number n) (performAll u acts n).code (number (performAll u acts n).next) := by
  induction acts generalizing n with
  | nil => exact .nil
  | cons a acts ih => exact (hstep n a hacts.1).append (ih hacts.2)

theorem declared_body {names : Names} {number : Numbering → ℕ} {P : Numbering → Act → Prop} {b : Body}
    (hframe : ∀ s : Stmt, s.isFrame → names.new? s = none ∧ ∀ k, ¬ names.Mentions s k)
    (hstep : ∀ n a, P n a → names.Counts (number n) (a.perform u n).code (number (a.perform u n).next))
    (hstart : number {} = 0) (hacts : Along u P {} (bodyActs u b)) : names.Declared (body u b {}).code := by
  have hquiet {next : ℕ} {code : List Stmt} (h : ∀ s ∈ code, s.isFrame) : names.Counts next code next :=
    Names.counts_of_none (fun s hs k hk => absurd hk ((hframe s (h s hs)).2 k)) fun s hs => (hframe s (h s hs)).1
  obtain ⟨before, after, hcode, hbefore, hafter⟩ := code_body_framed (u := u) b
  have hcounts := counts_performAll hstep hacts
  rw [hstart] at hcounts
  rw [hcode]
  exact (((hquiet hbefore).append hcounts).append (hquiet hafter)).declared

theorem frame_temps {s : Stmt} (h : s.isFrame) : Names.temps.new? s = none ∧ ∀ k, ¬ Names.temps.Mentions s k := by
  refine ⟨?_, fun k => Stmt.isFrame.not_mem_parts h _⟩
  cases s with
  | discard | declareWords | declareResult | returnResult => rfl
  | declareTemp | setResult | setWord | andWord | orWord | print => cases h

theorem frame_arrays {s : Stmt} (h : s.isFrame) : Names.arrays.new? s = none ∧ ∀ k, ¬ Names.arrays.Mentions s k := by
  refine ⟨?_, ?_⟩
  · cases s with
    | declareWords bank =>
      cases bank with
      | locals => rfl
      | params | args => cases h
    | discard | declareResult | returnResult => rfl
    | declareTemp | setResult | setWord | andWord | orWord | print => cases h
  · rintro k (⟨_, hk⟩ | ⟨_, hk⟩ | ⟨_, hk⟩)
    · exact Stmt.isFrame.not_mem_parts h _ hk
    · exact Stmt.isFrame.not_mem_parts h _ hk
    · cases s with
      | setWord | andWord | orWord => cases h
      | discard | declareWords | declareResult | returnResult | declareTemp | setResult | print => cases hk

end Lower

section File

variable {u : SourceUnit} {m : Method}

theorem mem_methods_of_visible (hm : m ∈ u.visibleMethods) : m ∈ u.methods :=
  Array.mem_toList_iff.1 (List.mem_filter.1 hm).1

theorem visible_of_callee {name : String} {count : ℕ} (h : Lower.callee u name count = .ok m) :
    m ∈ u.visibleMethods := by
  refine List.mem_filter.2 ⟨Array.mem_toList_iff.2 (callee_ok h).1, ?_⟩
  unfold Lower.callee at h
  split at h
  · cases h
  · split_ifs at h with hignored
    cases h
    exact decide_eq_true hignored

theorem SourceUnit.WellFormed.filter_functionName (hu : u.WellFormed) (hm : m ∈ u.methods) :
    u.visibleMethods.filter (fun m' => Lower.functionName u m' = Lower.functionName u m) =
      if m.access = .ignored then [] else [m] := by
  have hmem (m' : Method) : m' ∈ u.visibleMethods ∧ Lower.functionName u m' = Lower.functionName u m ↔
      m' = m ∧ m.access ≠ .ignored := by
    constructor
    · rintro ⟨hm', hname⟩
      obtain ⟨hm', hvisible⟩ := List.mem_filter.1 hm'
      obtain rfl := hu.eq_of_functionName (Array.mem_toList_iff.1 hm') hm hname
      exact ⟨rfl, of_decide_eq_true hvisible⟩
    · rintro ⟨rfl, hvisible⟩
      exact ⟨List.mem_filter.2 ⟨Array.mem_toList_iff.2 hm, decide_eq_true hvisible⟩, rfl⟩
  have hnodup : u.visibleMethods.Nodup := hu.names.of_map.filter _
  split_ifs with hignored
  · refine List.filter_eq_nil_iff.2 fun m' hm' hname => ?_
    exact ((hmem m').1 ⟨hm', of_decide_eq_true hname⟩).2 hignored
  · refine List.perm_singleton.1 ((List.perm_ext_iff_of_nodup (hnodup.filter _) (List.nodup_singleton m)).2 ?_)
    intro m'
    rw [List.mem_filter, decide_eq_true_iff, hmem, List.mem_singleton]
    exact and_iff_left hignored

/-- One prototype for each method that is not ignored. -/
theorem SourceUnit.WellFormed.filter_prototypes (hu : u.WellFormed) (hm : m ∈ u.methods) :
    u.lower.1.prototypes.filter (fun p => p.name = Lower.functionName u m) =
      if m.access = .ignored then [] else [Lower.prototype u m] := by
  change (u.visibleMethods.map (Lower.prototype u)).filter _ = _
  rw [List.filter_map]
  refine (congrArg (List.map (Lower.prototype u)) (hu.filter_functionName hm)).trans ?_
  split_ifs <;> rfl

def Lower.definition? (u : SourceUnit) (m : Method) : Option C.Function :=
  m.body.map fun b => ⟨prototype u m, (body u b {}).code⟩

theorem lower_functions (u : SourceUnit) : u.lower.1.functions = u.visibleMethods.filterMap (Lower.definition? u) := by
  change (u.visibleMethods.filterMap (Lower.function? u)).map (·.1) = _
  rw [List.map_filterMap]
  congr 1
  funext m
  unfold Lower.function? Lower.definition?
  cases m.body with
  | none | some b => rfl

theorem SourceUnit.WellFormed.filter_functions (hu : u.WellFormed) (hm : m ∈ u.methods) :
    u.lower.1.functions.filter (fun f => f.prototype.name = Lower.functionName u m) =
      if m.access = .ignored then [] else (Lower.definition? u m).toList := by
  have hname (m' : Method) : (Lower.definition? u m').filter (fun f => f.prototype.name = Lower.functionName u m) =
      if decide (Lower.functionName u m' = Lower.functionName u m) then Lower.definition? u m' else none := by
    unfold Lower.definition?
    cases m'.body with
    | none => exact (ite_self _).symm
    | some b => exact Option.filter_some
  rw [lower_functions, List.filter_filterMap, funext hname, ← List.filterMap_filter, hu.filter_functionName hm]
  split_ifs
  · rfl
  · cases hd : Lower.definition? u m with
    | none => exact List.filterMap_cons_none hd
    | some f => exact List.filterMap_cons_some hd

theorem mem_lower_functions_iff {f : C.Function} : f ∈ u.lower.1.functions ↔
    ∃ m ∈ u.visibleMethods, ∃ b, m.body = some b ∧ f = ⟨Lower.prototype u m, (Lower.body u b {}).code⟩ := by
  rw [lower_functions, List.mem_filterMap]
  refine exists_congr fun m => and_congr_right fun _ => ?_
  rw [Lower.definition?, Option.map_eq_some_iff]
  exact exists_congr fun b => and_congr_right fun _ => eq_comm

/-- The acts of a body are given values that are held where they can be read, and call what is visible. -/
theorem Method.WellFormed.along_held (hm : m.WellFormed u.word u.vars) {b : Body} (hb : m.body = some b) :
    Lower.Along u (Lower.Act.Given u Lower.Held) {} (Lower.bodyActs u b) :=
  Lower.lasting_held.statements
    (fun _ hst _ he => hm.offers hb (fun _ _ _ => trivial) hst he fun _ _ _ _ _ => trivial) {}

theorem Method.WellFormed.call_prototyped (hm : m.WellFormed u.word u.vars) {b : Body} (hb : m.body = some b)
    {s : Stmt} (hs : s ∈ (Lower.body u b {}).code) {function : String} {array : ℕ}
    (hx : .call function array ∈ s.parts) : ∃ p ∈ u.lower.1.prototypes, p.name = function := by
  obtain ⟨⟨n, a⟩, hp, hpart⟩ := Lower.parts_body hs hx
  cases hpart with
  | wrapping h => cases h
  | read _ hx =>
    cases hx with
    | wrapping h => cases h
  | call ha =>
    subst ha
    obtain ⟨name, hcallee⟩ := (Lower.along_iff.1 (hm.along_held hb) _ hp).called
    exact ⟨_, List.mem_map_of_mem (visible_of_callee hcallee), rfl⟩

end File

/-- In the file of a unit, whatever is wrong with its text, each method that is not ignored has one prototype, which
gives its name for the linker, and, if it has a body, one definition with the head of the prototype. Ignored
methods have neither. What a definition calls has a prototype, and its temporaries and arrays of arguments are
declared once, with consecutive numbers, before they are mentioned. -/
theorem emitted_names_bound (w : Word) (src : String) {u : SourceUnit} (hu : (SourceUnit.ofText w src).1 = u) :
    (u.generate w).1 = u.lower.1.text ∧
    (∀ m ∈ u.methods,
      (u.lower.1.prototypes.filter fun p => p.name = Lower.functionName u m).map (·.text) =
        (if m.access = .ignored then []
          else [(Lower.prototype u m).head ++ " __asm__(\"" ++ (Signature.ofMethod u m).symbol ++ "\");"]) ∧
      (u.lower.1.functions.filter fun f => f.prototype.name = Lower.functionName u m).map (·.prototype.head) =
        if m.access = .ignored ∨ m.body.isNone then [] else [(Lower.prototype u m).head]) ∧
    (∀ p ∈ u.lower.1.prototypes, ∃ m ∈ u.methods, p = Lower.prototype u m) ∧
    ∀ f ∈ u.lower.1.functions, (∃ m ∈ u.methods, f.prototype = Lower.prototype u m) ∧
      (∀ s ∈ f.body, ∀ function array, .call function array ∈ s.parts →
        ∃ p ∈ u.lower.1.prototypes, p.name = function) ∧
      Names.temps.Declared f.body ∧ Names.arrays.Declared f.body := by
  obtain ⟨hwf, hword⟩ := SourceUnit.ofText_wellFormed w src
  rw [hu] at hwf hword
  refine ⟨by rw [SourceUnit.generate, if_pos hword], fun m hm => ⟨?_, ?_⟩, fun p hp => ?_, fun f hf => ?_⟩
  · rw [hwf.filter_prototypes hm]
    split_ifs <;> rfl
  · rw [hwf.filter_functions hm]
    by_cases hignored : m.access = .ignored
    · simp [hignored]
    · cases hb : m.body <;> simp [hignored, Lower.definition?, hb]
  · obtain ⟨m, hm, rfl⟩ := List.mem_map.1 hp
    exact ⟨m, mem_methods_of_visible hm, rfl⟩
  · obtain ⟨m, hm, b, hb, rfl⟩ := mem_lower_functions_iff.1 hf
    have hmwf := hwf.methods m (mem_methods_of_visible hm)
    have hacts := hmwf.along_held hb
    refine ⟨⟨m, mem_methods_of_visible hm, rfl⟩, fun s hs function array hx => hmwf.call_prototyped hb hs hx, ?_, ?_⟩
    · exact Lower.declared_body (fun _ => Lower.frame_temps) (fun _ _ => Lower.counts_temps) rfl hacts
    · exact Lower.declared_body (fun _ => Lower.frame_arrays) (fun n a _ => Lower.counts_arrays a n) rfl hacts

/-- Calls inside of the arguments of a call, next to a call of a method that there is not. -/
theorem emitted_names_bound_nested_calls :
    ∃ u f, (SourceUnit.ofText .w32 "object 8 A;8 g(4 x){g=x;}8 f(){f=g(g(1)+h(2)+g(3));}").1 = u ∧
      f ∈ u.lower.1.functions ∧ f.body.filterMap Stmt.newArray? = [0, 1, 2] ∧
      .declareTemp 4 (.call "A_g" 2) ∈ f.body ∧ (∃ p ∈ u.lower.1.prototypes, p.name = "A_g") ∧
      Names.temps.Declared f.body ∧ Names.arrays.Declared f.body := by
  let u := (SourceUnit.ofText .w32 "object 8 A;8 g(4 x){g=x;}8 f(){f=g(g(1)+h(2)+g(3));}").1
  have hcode : (u.lower.1.functions[1]?.map fun f =>
      decide (f.body.filterMap Stmt.newArray? = [0, 1, 2] ∧ .declareTemp 4 (.call "A_g" 2) ∈ f.body)) = some true := by
    decide +kernel
  obtain ⟨f, hf, hcode⟩ := Option.map_eq_some_iff.1 hcode
  obtain ⟨harrays, hcall⟩ := of_decide_eq_true hcode
  have hmem : f ∈ u.lower.1.functions := List.mem_of_getElem? hf
  obtain ⟨-, -, -, hfunctions⟩ := emitted_names_bound .w32 _ (u := u) rfl
  obtain ⟨-, hcalls, htemps, harrays'⟩ := hfunctions f hmem
  exact ⟨u, f, rfl, hmem, harrays, hcall, hcalls _ hcall "A_g" 2 List.mem_cons_self, htemps, harrays'⟩

end Bitpack
