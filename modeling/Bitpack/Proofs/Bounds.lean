import Mathlib
import Bitpack.Lowering.Unit
import Bitpack.Proofs.Calls
import Bitpack.Proofs.Reading

/-! Accesses of the generated code, whatever it computes. Each array is declared once, before it is used, and
is long enough for every index that is used with it and for the function that it is handed to. -/

namespace Bitpack

open C (Bank Expr Stmt)

namespace C

/-- The words that an expression reads. -/
def Expr.words : Expr → List (Bank × ℕ)
  | .decimal _ | .hex _ | .temp _ | .result | .call .. => []
  | .word bank index => [(bank, index)]
  | .paren e | .complement e | .shiftLeft e _ | .shiftRight e _ => e.words
  | .binary _ left right => left.words ++ right.words

/-- The functions that an expression calls, with the arrays that it hands over. -/
def Expr.calls : Expr → List (String × ℕ)
  | .decimal _ | .hex _ | .temp _ | .result | .word .. => []
  | .call function args => [(function, args)]
  | .paren e | .complement e | .shiftLeft e _ | .shiftRight e _ => e.calls
  | .binary _ left right => left.calls ++ right.calls

def Stmt.value? : Stmt → Option Expr
  | .declareTemp _ e | .setResult e | .print e => some e
  | .setWord _ _ e | .andWord _ _ e | .orWord _ _ e => some e
  | .discard _ | .declareWords .. | .declareResult | .returnResult => none

/-- The word that a statement changes. -/
def Stmt.target? : Stmt → Option (Bank × ℕ)
  | .setWord bank index _ | .andWord bank index _ | .orWord bank index _ => some (bank, index)
  | _ => none

/-- The lengths of the arrays that are declared. -/
abbrev Sizes := Bank → Option ℕ

namespace Sizes

def declare (sizes : Sizes) : Stmt → Sizes
  | .declareWords bank count => Function.update sizes bank (some count)
  | _ => sizes

def declareAll (sizes : Sizes) (code : List Stmt) : Sizes :=
  code.foldl declare sizes

def Has (sizes : Sizes) (access : Bank × ℕ) : Prop :=
  ∃ length, sizes access.1 = some length ∧ access.2 < length

end Sizes

/-- Where `takes` says whether an array of some length will do for a function. -/
structure Stmt.InBounds (takes : String → ℕ → Prop) (sizes : Sizes) (stmt : Stmt) : Prop where
  target : ∀ access, stmt.target? = some access → sizes.Has access
  words : ∀ e, stmt.value? = some e → ∀ access ∈ e.words, sizes.Has access
  calls : ∀ e, stmt.value? = some e → ∀ call ∈ e.calls, ∃ length, sizes (.args call.2) = some length ∧
    takes call.1 length
  fresh : ∀ bank count, stmt = .declareWords bank count → sizes bank = none

/-- Every statement is in bounds of the arrays that are declared before it. -/
def InBounds (takes : String → ℕ → Prop) : Sizes → List Stmt → Prop
  | _, [] => True
  | sizes, stmt :: rest => stmt.InBounds takes sizes ∧ InBounds takes (sizes.declare stmt) rest

theorem inBounds_append {takes : String → ℕ → Prop} {code code' : List Stmt} : ∀ {sizes : Sizes},
    InBounds takes sizes (code ++ code') ↔
      InBounds takes sizes code ∧ InBounds takes (sizes.declareAll code) code' := by
  induction code with
  | nil => intro sizes; simp [InBounds, Sizes.declareAll]
  | cons stmt code ih =>
    intro sizes
    rw [List.cons_append, InBounds, InBounds, ih, and_assoc]
    rfl

/-- An expression that reads words of the declared arrays only and calls nothing. -/
structure Expr.Reads (sizes : Sizes) (e : Expr) : Prop where
  words : ∀ access ∈ e.words, sizes.Has access
  calls : e.calls = []

/-- A statement that is in bounds and declares nothing. -/
def Stmt.Settled (takes : String → ℕ → Prop) (sizes : Sizes) (stmt : Stmt) : Prop :=
  stmt.InBounds takes sizes ∧ sizes.declare stmt = sizes

section Settled

variable {takes : String → ℕ → Prop} {sizes : Sizes}

theorem inBounds_of_settled {code : List Stmt} (h : ∀ stmt ∈ code, stmt.Settled takes sizes) :
    InBounds takes sizes code ∧ sizes.declareAll code = sizes := by
  induction code with
  | nil => exact ⟨trivial, rfl⟩
  | cons stmt code ih =>
    obtain ⟨hin, hkeep⟩ := h stmt (by simp)
    obtain ⟨hrest, hall⟩ := ih fun stmt' hstmt' => h stmt' (by simp [hstmt'])
    refine ⟨⟨hin, by rwa [hkeep]⟩, ?_⟩
    rw [Sizes.declareAll, List.foldl_cons, hkeep]
    exact hall

theorem Stmt.settled_of_value {stmt : Stmt} {e : Expr} (hvalue : stmt.value? = some e) (he : e.Reads sizes)
    (htarget : ∀ access, stmt.target? = some access → sizes.Has access) : stmt.Settled takes sizes := by
  refine ⟨⟨htarget, ?_, ?_, ?_⟩, ?_⟩
  · intro e' he'
    obtain rfl : e = e' := Option.some.inj (hvalue.symm.trans he')
    exact he.words
  · intro e' he' call hcall
    obtain rfl : e = e' := Option.some.inj (hvalue.symm.trans he')
    rw [he.calls] at hcall
    cases hcall
  · rintro bank count rfl
    cases hvalue
  · cases stmt with
    | declareWords bank count => cases hvalue
    | _ => rfl

theorem Stmt.settled_of_none {stmt : Stmt} (hvalue : stmt.value? = none) (htarget : stmt.target? = none)
    (hdeclare : ∀ bank count, stmt ≠ .declareWords bank count) : stmt.Settled takes sizes := by
  refine ⟨⟨?_, ?_, ?_, fun bank count heq => absurd heq (hdeclare bank count)⟩, ?_⟩
  · intro access haccess
    rw [htarget] at haccess
    cases haccess
  · intro e he
    rw [hvalue] at he
    cases he
  · intro e he
    rw [hvalue] at he
    cases he
  · cases stmt with
    | declareWords bank count => exact absurd rfl (hdeclare bank count)
    | _ => rfl

theorem Stmt.inBounds_declareWords {bank : Bank} (h : sizes bank = none) (count : ℕ) :
    (Stmt.declareWords bank count).InBounds takes sizes := by
  refine ⟨fun _ hnone => (nomatch hnone), fun _ hnone => (nomatch hnone), fun _ hnone => (nomatch hnone), ?_⟩
  rintro bank' count' ⟨⟩
  exact h

theorem Expr.Reads.shifted {e : Expr} (he : e.Reads sizes) (w : Word) (slot : Slot) (width : ℕ) :
    (C.shifted w slot width e).Reads sizes := by
  unfold C.shifted
  split
  · exact he
  · exact ⟨he.words, he.calls⟩

theorem Expr.Reads.paren {e : Expr} (he : e.Reads sizes) : (Expr.paren e).Reads sizes :=
  ⟨he.words, he.calls⟩

theorem Expr.Reads.masked {e : Expr} (he : e.Reads sizes) (mask : UInt64) :
    (Expr.binary .bitAnd e (.hex mask)).Reads sizes := by
  refine ⟨?_, ?_⟩
  · simpa [Expr.words] using he.words
  · simpa [Expr.calls] using he.calls

theorem settled_slotWrite {w : Word} {bank : Bank} {slot : Slot} {width : ℕ} {e : Expr}
    (hhas : sizes.Has (bank, slot.group)) (he : e.Reads sizes) {stmt : Stmt}
    (hstmt : stmt ∈ slotWrite w bank slot width e) : stmt.Settled takes sizes := by
  have htarget : ∀ access, some (bank, slot.group) = some access → sizes.Has access := by
    rintro access ⟨⟩
    exact hhas
  have hmask : (Expr.hex (Constant.mask width)).Reads sizes := ⟨by simp [Expr.words], rfl⟩
  by_cases hw : width = w.bits
  · rw [slotWrite, if_pos hw, List.mem_singleton] at hstmt
    subst hstmt
    exact Stmt.settled_of_value rfl he htarget
  · rw [slotWrite_of_ne e hw, List.mem_cons, List.mem_singleton] at hstmt
    rcases hstmt with rfl | rfl
    · have hclear := hmask.shifted w slot width
      exact Stmt.settled_of_value rfl ⟨hclear.words, hclear.calls⟩ htarget
    · exact Stmt.settled_of_value rfl ((he.masked _).paren.shifted w slot width) htarget

theorem reads_slotRead {w : Word} {bank : Bank} {slot : Slot} {width : ℕ} (hhas : sizes.Has (bank, slot.group)) :
    (slotRead w bank slot width).Reads sizes := by
  have hword : (Expr.word bank slot.group).Reads sizes := ⟨by simpa [Expr.words] using hhas, rfl⟩
  unfold slotRead
  split_ifs
  · exact hword
  · refine ⟨?_, ?_⟩
    all_goals split
    · exact (hword.masked _).words
    · exact (Expr.Reads.masked ⟨hword.words, hword.calls⟩ _).words
    · rfl
    · rfl

end Settled
end C

section Checks

variable {α β : Type} {takes : String → ℕ → Prop} {n : Numbering} {sizes : C.Sizes}

/-- The code of a lowering is in bounds, and then `post` holds of its value, the numbering and the arrays. -/
def Lower.Checks (takes : String → ℕ → Prop) (x : Lower α) (n : Numbering) (sizes : C.Sizes)
    (post : α → Numbering → C.Sizes → Prop) : Prop :=
  C.InBounds takes sizes (x n).code ∧ post (x n).value (x n).next (sizes.declareAll (x n).code)

namespace Lower

theorem checks_pure {a : α} {post : α → Numbering → C.Sizes → Prop} (h : post a n sizes) :
    Checks takes (pure a : Lower α) n sizes post :=
  ⟨trivial, h⟩

theorem checks_bind {x : Lower α} {f : α → Lower β} {post : β → Numbering → C.Sizes → Prop}
    (h : Checks takes x n sizes fun a n' sizes' => Checks takes (f a) n' sizes' post) :
    Checks takes (x >>= f) n sizes post := by
  obtain ⟨hx, hf, hpost⟩ := h
  have hcode : ((x >>= f) n).code = (x n).code ++ (f (x n).value (x n).next).code := rfl
  have hsizes : sizes.declareAll ((x >>= f) n).code =
      (sizes.declareAll (x n).code).declareAll (f (x n).value (x n).next).code := by
    rw [hcode]
    exact List.foldl_append
  refine ⟨?_, ?_⟩
  · rw [hcode]
    exact C.inBounds_append.2 ⟨hx, hf⟩
  · rw [hsizes]
    exact hpost

theorem Checks.mono {x : Lower α} {post post' : α → Numbering → C.Sizes → Prop}
    (h : Checks takes x n sizes post) (himp : ∀ a n' sizes', post a n' sizes' → post' a n' sizes') :
    Checks takes x n sizes post' :=
  ⟨h.1, himp _ _ _ h.2⟩

theorem checks_emitAll {code : List C.Stmt} {post : Unit → Numbering → C.Sizes → Prop}
    (hcode : ∀ stmt ∈ code, stmt.Settled takes sizes) (h : post () n sizes) :
    Checks takes (emitAll code) n sizes post := by
  obtain ⟨hin, hkeep⟩ := C.inBounds_of_settled hcode
  exact ⟨hin, by rw [show (emitAll code n).code = code from rfl, hkeep]; exact h⟩

theorem checks_emit {stmt : C.Stmt} {post : Unit → Numbering → C.Sizes → Prop} (hstmt : stmt.Settled takes sizes)
    (h : post () n sizes) : Checks takes (emit stmt) n sizes post := by
  have hall : ∀ stmt' ∈ [stmt], stmt'.Settled takes sizes := by simpa using hstmt
  exact checks_emitAll hall h

end Lower
end Checks

section Values

variable {u : SourceUnit} {scope : List VarId} {takes : String → ℕ → Prop} {n : Numbering} {sizes : C.Sizes}

/-- The arrays that are declared hold the variables of a scope, and those numbered from `n` on are to come. -/
structure Known (u : SourceUnit) (scope : List VarId) (n : Numbering) (sizes : C.Sizes) : Prop where
  fresh : ∀ k, n.arrays ≤ k → sizes (.args k) = none
  held : ∀ id ∈ scope, ∀ bank, (u.var id).storage.bank? = some bank →
    sizes.Has (bank, (u.var id).slot.group)

def Value.InScope (scope : List VarId) (v : Value) : Prop :=
  ∀ id, v = .var id → id ∈ scope

theorem Known.reads (h : Known u scope n sizes) {v : Value} (hv : v.InScope scope) : (v.read u).Reads sizes := by
  cases v with
  | const value width => exact ⟨by simp [Value.read, C.Expr.words], rfl⟩
  | temp index width => exact ⟨by simp [Value.read, C.Expr.words], rfl⟩
  | var id =>
    rw [Value.read, Variable.read_eq]
    split
    · rename_i bank hbank
      exact C.reads_slotRead (h.held id (hv id rfl) bank hbank)
    · exact ⟨by simp [C.Expr.words], rfl⟩

theorem Known.settled_write (h : Known u scope n sizes) {id : VarId} (hid : id ∈ scope) {e : C.Expr}
    (he : e.Reads sizes) {stmt : C.Stmt} (hstmt : stmt ∈ (u.var id).write u.word e) :
    stmt.Settled takes sizes := by
  rw [Variable.write_eq] at hstmt
  split at hstmt
  · rename_i bank hbank
    exact C.settled_slotWrite (h.held id hid bank hbank) he hstmt
  · obtain rfl := List.mem_singleton.1 hstmt
    refine C.Stmt.settled_of_value rfl ?_ fun _ hnone => (nomatch hnone)
    split_ifs
    · exact he
    · exact he.masked _

namespace Lower

/-- A lowering of a value, from arrays that hold the variables of a scope. -/
abbrev Bounded (u : SourceUnit) (scope : List VarId) (takes : String → ℕ → Prop) (x : Lower Value) (n : Numbering)
    (sizes : C.Sizes) : Prop :=
  Checks takes x n sizes fun v n' sizes' => Known u scope n' sizes' ∧ v.InScope scope

theorem bounded_pure (h : Known u scope n sizes) {v : Value} (hv : v.InScope scope) :
    Bounded u scope takes (pure v) n sizes :=
  checks_pure ⟨h, hv⟩

theorem inScope_literal (value : UInt64) : (Value.literal value).InScope scope :=
  fun _ heq => nomatch heq

theorem bounded_zeroFor (h : Known u scope n sizes) (d : Diagnostic) :
    Bounded u scope takes (zeroFor d) n sizes :=
  ⟨trivial, h, inScope_literal 0⟩

theorem bounded_temp (h : Known u scope n sizes) (width : ℕ) {e : C.Expr} (he : e.Reads sizes) :
    Bounded u scope takes (temp u width e) n sizes := by
  have hvalue : (if min width u.word.bits = u.word.bits then e
      else .binary .bitAnd (.paren e) (.hex (Constant.mask (min width u.word.bits)))).Reads sizes := by
    split_ifs
    · exact he
    · exact he.paren.masked _
  have hstmt : (C.Stmt.declareTemp n.temps _).Settled takes sizes :=
    C.Stmt.settled_of_value rfl hvalue fun _ hnone => (nomatch hnone)
  refine ⟨⟨hstmt.1, trivial⟩, ⟨h.fresh, h.held⟩, fun _ heq => (nomatch heq)⟩

theorem bounded_complement (h : Known u scope n sizes) {v : Value} (hv : v.InScope scope) :
    Bounded u scope takes (complement u v) n sizes := by
  have hreads := h.reads hv
  cases v with
  | const value width => exact bounded_pure h fun _ heq => nomatch heq
  | var id => exact bounded_temp h _ ⟨hreads.words, hreads.calls⟩
  | temp index width => exact bounded_temp h _ ⟨hreads.words, hreads.calls⟩

theorem bounded_cast (h : Known u scope n sizes) (span : Span) (width : UInt64) {v : Value} (hv : v.InScope scope) :
    Bounded u scope takes (cast u span width v) n sizes := by
  unfold cast
  simp only
  split_ifs
  · exact bounded_zeroFor h _
  · cases v with
    | const value width => exact bounded_pure h fun _ heq => nomatch heq
    | var id => exact bounded_temp h _ (h.reads hv)
    | temp index width => exact bounded_temp h _ (h.reads hv)

theorem bounded_arith (h : Known u scope n sizes) (span : Span) (op : Arith) {left right : Value}
    (hl : left.InScope scope) (hr : right.InScope scope) :
    Bounded u scope takes (arith u span op left right) n sizes := by
  have hcomputed : Bounded u scope takes (temp u (max (left.width u) (right.width u))
      (.binary op (left.read u) (right.read u))) n sizes := by
    have hl' := h.reads hl
    have hr' := h.reads hr
    refine bounded_temp h _ ⟨?_, ?_⟩
    · intro access haccess
      rcases List.mem_append.1 haccess with haccess | haccess
      · exact hl'.words access haccess
      · exact hr'.words access haccess
    · rw [C.Expr.calls, hl'.calls, hr'.calls]
      rfl
  unfold arith
  split
  · split
    · exact bounded_pure h (inScope_literal _)
    · exact bounded_zeroFor h _
  · exact hcomputed

theorem inScope_headD {stack : List Value} (hst : ∀ v ∈ stack, v.InScope scope) :
    (stack.headD (.literal 0)).InScope scope := by
  cases stack with
  | nil => exact inScope_literal 0
  | cons v rest => exact hst v (by simp)

theorem Bounded.push {x : Lower Value} (hx : Bounded u scope takes x n sizes) {rest : List Value}
    (hrest : ∀ v ∈ rest, v.InScope scope) :
    Checks takes (do return (← x) :: rest) n sizes fun stack n' sizes' =>
      Known u scope n' sizes' ∧ ∀ v ∈ stack, v.InScope scope := by
  refine checks_bind (hx.mono ?_)
  rintro v n' sizes' ⟨h, hv⟩
  refine checks_pure ⟨h, fun v' hv' => ?_⟩
  rcases List.mem_cons.1 hv' with rfl | hv'
  · exact hv
  · exact hrest v' hv'

theorem checks_apply (h : Known u scope n sizes) (span : Span) (op : Operator) {stack : List Value}
    (hst : ∀ v ∈ stack, v.InScope scope) :
    Checks takes (apply u span op stack) n sizes fun stack' n' sizes' =>
      Known u scope n' sizes' ∧ ∀ v ∈ stack', v.InScope scope := by
  have htop := inScope_headD hst
  have hrest : ∀ v ∈ stack.tail, v.InScope scope := fun v hv => hst v (List.mem_of_mem_tail hv)
  have htop₂ := inScope_headD hrest
  have hrest₂ : ∀ v ∈ stack.tail.tail, v.InScope scope := fun v hv => hrest v (List.mem_of_mem_tail hv)
  cases op with
  | not => exact (bounded_complement h htop).push hrest
  | arith a => exact (bounded_arith h span a htop₂ htop).push hrest₂
  | cast =>
    unfold apply
    simp only
    split
    · exact (bounded_cast h span _ htop).push hrest₂
    · exact (bounded_zeroFor h _).push hrest₂
  | assign =>
    unfold apply
    simp only
    split
    · rename_i id heq
      have hid : id ∈ scope := htop id heq
      refine checks_bind (checks_emitAll (fun stmt hstmt => h.settled_write hid (h.reads htop₂) hstmt) ?_)
      refine checks_pure ⟨h, fun v hv => ?_⟩
      rcases List.mem_cons.1 hv with rfl | hv
      · rintro id' ⟨⟩
        exact hid
      · exact hrest₂ v hv
    · exact (bounded_zeroFor h _).push hrest₂

theorem bounded_runSteps (span : Span) {steps : List Step} :
    (∀ v, .push v ∈ steps → v.InScope scope) → ∀ {stack : List Value} {n : Numbering} {sizes : C.Sizes},
      Known u scope n sizes → (∀ v ∈ stack, v.InScope scope) →
      Bounded u scope takes (runSteps u span stack steps) n sizes := by
  induction steps with
  | nil =>
    intro _ stack n sizes h hst
    exact bounded_pure h (inScope_headD hst)
  | cons step steps ih =>
    intro hsteps stack n sizes h hst
    have hrest : ∀ v, .push v ∈ steps → v.InScope scope := fun v hv => hsteps v (by simp [hv])
    cases step with
    | push v =>
      refine ih hrest h fun v' hv' => ?_
      rcases List.mem_cons.1 hv' with rfl | hv'
      · exact hsteps v' (by simp)
      · exact hst v' hv'
    | apply op =>
      refine checks_bind ((checks_apply h span op hst).mono ?_)
      rintro stack' n' sizes' ⟨h', hst'⟩
      exact ih hrest h' hst'

end Lower
end Values

section Calls

variable {u : SourceUnit} {scope : List VarId} {n : Numbering} {sizes : C.Sizes}

/-- An array is long enough for the parameters of a function. -/
def SourceUnit.Takes (u : SourceUnit) (function : String) (length : ℕ) : Prop :=
  ∀ m ∈ u.methods, Lower.functionName u m = function → m.paramGroups ≤ length

theorem SourceUnit.WellFormed.eq_of_functionName (hu : u.WellFormed) {m m' : Method} (hm : m ∈ u.methods)
    (hm' : m' ∈ u.methods) (h : Lower.functionName u m = Lower.functionName u m') : m = m' := by
  refine List.inj_on_of_nodup_map hu.names (Array.mem_toList_iff.2 hm) (Array.mem_toList_iff.2 hm') ?_
  simpa [Lower.functionName] using h

theorem SourceUnit.WellFormed.takes (hu : u.WellFormed) {m : Method} (hm : m ∈ u.methods) {length : ℕ}
    (h : m.paramGroups ≤ length) : u.Takes (Lower.functionName u m) length := by
  intro m' hm' hname
  rwa [hu.eq_of_functionName hm' hm hname]

/-- The arrays with one more for the arguments of a call. -/
theorem Known.declare (h : Known u scope n sizes) (count : ℕ) :
    Known u scope { n with arrays := n.arrays + 1 } (sizes.declare (.declareWords (.args n.arrays) count)) := by
  refine ⟨?_, ?_⟩
  · intro k hk
    have hne : k ≠ n.arrays := by rintro rfl; exact absurd hk (by simp)
    simpa [C.Sizes.declare, hne] using h.fresh k (Nat.le_of_succ_le hk)
  · intro id hid bank hbank
    have hne : bank ≠ .args n.arrays := by
      rintro rfl
      cases hst : (u.var id).storage <;> simp [hst, Storage.bank?] at hbank
    obtain ⟨length, hlength, hlt⟩ := h.held id hid bank hbank
    exact ⟨length, by simpa [C.Sizes.declare, hne] using hlength, hlt⟩

theorem settled_packParams {takes : String → ℕ → Prop} (h : Known u scope n sizes) {k count : ℕ}
    (hk : sizes (.args k) = some count) {params : List VarId}
    (hparams : ∀ id ∈ params, (u.var id).slot.group < count) {values : List Value}
    (hvs : ∀ v ∈ values, v.InScope scope) {stmt : C.Stmt} (hstmt : stmt ∈ Lower.packParams u k params values) :
    stmt.Settled takes sizes := by
  obtain ⟨p, hp, hstmt⟩ := List.mem_flatMap.1 hstmt
  obtain ⟨hid, hv⟩ := List.of_mem_zip hp
  exact C.settled_slotWrite ⟨count, hk, hparams _ hid⟩ (h.reads (hvs _ hv)) hstmt

theorem settled_packExtras {takes : String → ℕ → Prop} (h : Known u scope n sizes) {k count first : ℕ}
    (hk : sizes (.args k) = some count) {values : List Value} (hvs : ∀ v ∈ values, v.InScope scope)
    (hcount : first + values.length ≤ count) {stmt : C.Stmt} (hstmt : stmt ∈ Lower.packExtras u k first values) :
    stmt.Settled takes sizes := by
  obtain ⟨i, hi, rfl⟩ := List.mem_mapIdx.1 hstmt
  refine C.Stmt.settled_of_value rfl (h.reads (hvs _ (List.getElem_mem hi))) ?_
  rintro access ⟨⟩
  exact ⟨count, hk, lt_of_lt_of_le (Nat.add_lt_add_left hi first) hcount⟩

theorem Lower.bounded_invoke (hu : u.WellFormed) (h : Known u scope n sizes) {m : Method} (hm : m ∈ u.methods)
    {values : List Value} (hvs : ∀ v ∈ values, v.InScope scope) (hlen : m.params.length ≤ values.length) :
    Bounded u scope u.Takes (invoke u m values) n sizes := by
  have hwf := hu.methods m hm
  let count := max 1 (m.paramGroups + values.length - m.params.length)
  have hgroups : m.paramGroups ≤ count := by omega
  have h' := h.declare count
  have hk : sizes.declare (.declareWords (.args n.arrays) count) (.args n.arrays) = some count := by
    simp [C.Sizes.declare]
  have hdeclare : (C.Stmt.declareWords (.args n.arrays) count).InBounds u.Takes sizes :=
    C.Stmt.inBounds_declareWords (h.fresh _ le_rfl) count
  have hcall : (C.Stmt.declareTemp n.temps (.call (functionName u m) n.arrays)).InBounds u.Takes
      (sizes.declare (.declareWords (.args n.arrays) count)) := by
    refine ⟨fun _ hnone => (nomatch hnone), ?_, ?_, fun _ _ hnone => (nomatch hnone)⟩
    · rintro e ⟨⟩ access haccess
      cases haccess
    · rintro e ⟨⟩ call hcall
      obtain rfl := List.mem_singleton.1 hcall
      exact ⟨count, hk, hu.takes hm hgroups⟩
  refine checks_bind ⟨⟨hdeclare, trivial⟩, checks_bind (checks_emitAll ?_ (checks_bind (checks_emitAll ?_ ?_)))⟩
  · intro stmt hstmt
    exact settled_packParams h' hk (fun id hid => lt_of_lt_of_le (hwf.params.within id hid).1 hgroups) hvs hstmt
  · intro stmt hstmt
    refine settled_packExtras h' hk (fun v hv => hvs v (List.mem_of_mem_drop hv)) ?_ hstmt
    rw [List.length_drop]
    omega
  · exact checks_bind ⟨⟨hcall, trivial⟩, checks_pure ⟨⟨h'.fresh, h'.held⟩, fun _ heq => (nomatch heq)⟩⟩

end Calls

section Items

variable {u : SourceUnit} {scope : List VarId}

/-- What is done at once with an argument is in bounds. -/
def AfterBounded (u : SourceUnit) (scope : List VarId) (after : Value → Lower Unit) : Prop :=
  ∀ ⦃v n sizes⦄, Known u scope n sizes → v.InScope scope →
    Lower.Checks u.Takes (after v) n sizes fun _ n' sizes' => Known u scope n' sizes'

theorem afterBounded_none : AfterBounded u scope fun _ => pure () :=
  fun _ _ _ h _ => Lower.checks_pure h

theorem afterBounded_print : AfterBounded u scope fun v => Lower.emit (.print (v.read u)) := by
  intro v n sizes h hv
  exact Lower.checks_emit (C.Stmt.settled_of_value rfl (h.reads hv) fun _ hnone => (nomatch hnone)) h

namespace Lower

mutual

theorem checks_steps (hu : u.WellFormed) : (is : List Item) → (∀ i ∈ is, i.Plain scope ∨ i.isAssign) →
    ∀ {n sizes}, Known u scope n sizes → Checks u.Takes (steps u is) n sizes fun code n' sizes' =>
      Known u scope n' sizes' ∧ ∀ v, .push v ∈ code → v.InScope scope
  | [], _, n, sizes, h => by
    rw [steps]
    exact checks_pure ⟨h, by simp⟩
  | i :: rest, hplain, n, sizes, h => by
    rw [steps]
    refine checks_bind ((checks_step hu i (hplain i (by simp)) h).mono ?_)
    rintro first n₁ sizes₁ ⟨h₁, hfirst⟩
    refine checks_bind ((checks_steps hu rest (fun j hj => hplain j (by simp [hj])) h₁).mono ?_)
    rintro others n₂ sizes₂ ⟨h₂, hothers⟩
    refine checks_pure ⟨h₂, fun v hv => ?_⟩
    rcases List.mem_append.1 hv with hv | hv
    · exact hfirst v (by simpa using hv)
    · exact hothers v hv

theorem checks_step (hu : u.WellFormed) : (i : Item) → i.Plain scope ∨ i.isAssign →
    ∀ {n sizes}, Known u scope n sizes → Checks u.Takes (step u i) n sizes fun st n' sizes' =>
      Known u scope n' sizes' ∧ ∀ v, st = some (.push v) → v.InScope scope
  | .var id, hplain, n, sizes, h => by
    rw [step]
    refine checks_pure ⟨h, ?_⟩
    rintro v ⟨⟩ id' ⟨⟩
    cases hplain.resolve_right (by simp [Item.isAssign]) with
    | var hid => exact hid
  | .temp .., _, n, sizes, h => by
    rw [step]
    refine checks_pure ⟨h, ?_⟩
    rintro v ⟨⟩ id' ⟨⟩
  | .number _, _, n, sizes, h => by
    rw [step]
    refine checks_pure ⟨h, ?_⟩
    rintro v ⟨⟩
    exact inScope_literal _
  | .operator _, _, n, sizes, h => by
    rw [step]
    exact checks_pure ⟨h, fun v hv => (nomatch hv)⟩
  | .opening, _, n, sizes, h => by
    rw [step]
    exact checks_pure ⟨h, fun v hv => (nomatch hv)⟩
  | .closing, _, n, sizes, h => by
    rw [step]
    exact checks_pure ⟨h, fun v hv => (nomatch hv)⟩
  | .call name args span, hplain, n, sizes, h => by
    have hargs : ∀ a ∈ args, ∀ i ∈ a.items, i.Plain scope := by
      cases hplain.resolve_right (by simp [Item.isAssign]) with
      | call hargs => exact hargs
    have hzero : ∀ v, some (Step.push (.literal 0)) = some (.push v) → v.InScope scope := by
      rintro v ⟨⟩
      exact inScope_literal 0
    rw [step]
    split_ifs with hprint
    · refine checks_bind ((checks_arguments hu args hargs afterBounded_print h).mono ?_)
      rintro vs n₁ sizes₁ ⟨h₁, -⟩
      exact checks_pure ⟨h₁, hzero⟩
    · cases hc : callee u name args.length with
      | error cause => exact ⟨trivial, h, hzero⟩
      | ok m =>
        obtain ⟨hm, hlen⟩ := callee_ok hc
        refine checks_bind ((checks_arguments hu args hargs afterBounded_none h).mono ?_)
        rintro vs n₁ sizes₁ ⟨h₁, hvs, hlength⟩
        refine checks_bind ((bounded_invoke hu h₁ hm hvs (by rwa [hlength])).mono ?_)
        rintro v n₂ sizes₂ ⟨h₂, hv⟩
        refine checks_pure ⟨h₂, ?_⟩
        rintro v' ⟨⟩
        exact hv

theorem checks_arguments (hu : u.WellFormed) : (es : List Expression) →
    (∀ e ∈ es, ∀ i ∈ e.items, i.Plain scope) → ∀ {after}, AfterBounded u scope after →
    ∀ {n sizes}, Known u scope n sizes → Checks u.Takes (arguments u after es) n sizes fun vs n' sizes' =>
      Known u scope n' sizes' ∧ (∀ v ∈ vs, v.InScope scope) ∧ vs.length = es.length
  | [], _, after, _, n, sizes, h => by
    rw [arguments]
    exact checks_pure ⟨h, by simp, rfl⟩
  | e :: rest, hplain, after, hafter, n, sizes, h => by
    rw [arguments]
    refine checks_bind ((bounded_expression hu e (fun i hi => Or.inl (hplain e (by simp) i hi)) h).mono ?_)
    rintro v n₁ sizes₁ ⟨h₁, hv⟩
    refine checks_bind ((hafter h₁ hv).mono fun _ n₂ sizes₂ h₂ => ?_)
    refine checks_bind ((checks_arguments hu rest (fun x hx => hplain x (by simp [hx])) hafter h₂).mono ?_)
    rintro vs n₃ sizes₃ ⟨h₃, hvs, hlength⟩
    refine checks_pure ⟨h₃, fun v' hv' => ?_, by rw [List.length_cons, List.length_cons, hlength]⟩
    rcases List.mem_cons.1 hv' with rfl | hv'
    · exact hv
    · exact hvs v' hv'

theorem bounded_expression (hu : u.WellFormed) : (e : Expression) → (∀ i ∈ e.items, i.Plain scope ∨ i.isAssign) →
    ∀ {n sizes}, Known u scope n sizes → Bounded u scope u.Takes (expression u e) n sizes
  | .mk is span, hplain, n, sizes, h => by
    rw [expression]
    refine checks_bind ((checks_steps hu is hplain h).mono ?_)
    rintro code n₁ sizes₁ ⟨h₁, hcode⟩
    exact bounded_runSteps span hcode h₁ (by simp)

end

theorem checks_statement (hu : u.WellFormed) {st : Statement} (hst : st.Scoped scope) {n : Numbering}
    {sizes : C.Sizes} (h : Known u scope n sizes) :
    Checks u.Takes (statement u st) n sizes fun _ n' sizes' => Known u scope n' sizes' := by
  have hreturn {n : Numbering} {sizes : C.Sizes} (h : Known u scope n sizes) :
      Checks u.Takes (emit .returnResult) n sizes fun _ n' sizes' => Known u scope n' sizes' :=
    checks_emit (C.Stmt.settled_of_none rfl rfl (by simp)) h
  cases st with
  | eval e =>
    refine checks_bind ((bounded_expression hu e (fun i hi => (hst e rfl).item hi) h).mono ?_)
    exact fun _ _ _ h' => checks_pure h'.1
  | ret e? =>
    cases e? with
    | none => exact checks_bind (checks_pure (hreturn h))
    | some e =>
      refine checks_bind ((bounded_expression hu e (fun i hi => (hst e rfl).item hi) h).mono ?_)
      exact fun _ _ _ h' => hreturn h'.1

theorem checks_statements (hu : u.WellFormed) {sts : List Statement} : (∀ st ∈ sts, st.Scoped scope) →
    ∀ {n : Numbering} {sizes : C.Sizes}, Known u scope n sizes →
      Checks u.Takes (statements u sts) n sizes fun _ n' sizes' => Known u scope n' sizes' := by
  induction sts with
  | nil =>
    intro _ n sizes h
    exact checks_pure h
  | cons st sts ih =>
    intro hsts n sizes h
    refine checks_bind ((checks_statement hu (hsts st (by simp)) h).mono ?_)
    exact fun _ _ _ h' => ih (fun st' hst' => hsts st' (by simp [hst'])) h'

end Lower
end Items

section Bodies

variable {u : SourceUnit}

/-- What a function knows of arrays at its start: the caller provides the parameters. -/
def C.Sizes.start (paramGroups : ℕ) : C.Sizes
  | .params => some paramGroups
  | _ => none

/-- The arrays that a function declares hold all variables of its method. -/
theorem known_start {m : Method} (hm : m.WellFormed u.word u.vars) {b : Body} (hb : m.body = some b) {sizes : C.Sizes}
    (hparams : sizes .params = some m.paramGroups)
    (hlocals : 0 < b.groupCount → sizes .locals = some b.groupCount) (hargs : ∀ k, sizes (.args k) = none) :
    Known u m.scope {} sizes := by
  refine ⟨fun k _ => hargs k, ?_⟩
  intro id hid bank hbank
  rcases Method.mem_scope.1 hid with rfl | hid | ⟨b', hb', hid⟩
  · have hst : (u.var m.result).storage = .result := hm.result_storage
    rw [hst] at hbank
    cases hbank
  · have hst : (u.var id).storage = .params := hm.params.storage_eq id hid
    rw [hst] at hbank
    cases hbank
    exact ⟨_, hparams, (hm.params.within id hid).1⟩
  · obtain rfl : b = b' := Option.some.inj (hb.symm.trans hb')
    have hst : (u.var id).storage = .locals := (hm.locals b hb).storage_eq id hid
    have hlt := ((hm.locals b hb).within id hid).1
    rw [hst] at hbank
    cases hbank
    exact ⟨_, hlocals (Nat.zero_lt_of_lt hlt), hlt⟩

theorem inBounds_body (hu : u.WellFormed) {m : Method} (hm : m ∈ u.methods) {b : Body} (hb : m.body = some b) :
    C.InBounds u.Takes (.start m.paramGroups) (Lower.body u b {}).code := by
  have hwf := hu.methods m hm
  have hlocals : Lower.Checks u.Takes
      (Lower.emitAll (if b.groupCount > 0 then [.declareWords .locals b.groupCount] else [])) {}
      (.start m.paramGroups) fun _ n sizes => Known u m.scope n sizes := by
    split_ifs with hpos
    · have hdeclare : (C.Stmt.declareWords .locals b.groupCount).InBounds u.Takes (.start m.paramGroups) :=
        C.Stmt.inBounds_declareWords rfl b.groupCount
      exact ⟨⟨hdeclare, trivial⟩, known_start hwf hb rfl (fun _ => rfl) fun _ => rfl⟩
    · exact Lower.checks_emitAll (by simp) (known_start hwf hb rfl (fun h => absurd h hpos) fun _ => rfl)
  have hbody : Lower.Checks u.Takes (Lower.body u b) {} (.start m.paramGroups) fun _ _ _ => True := by
    refine Lower.checks_bind (Lower.checks_emitAll ?_ (Lower.checks_bind (hlocals.mono fun _ n sizes h => ?_)))
    · intro stmt hstmt
      rcases List.mem_cons.1 hstmt with rfl | hstmt
      · exact C.Stmt.settled_of_none rfl rfl (by simp)
      · obtain rfl := List.mem_singleton.1 hstmt
        exact C.Stmt.settled_of_none rfl rfl (by simp)
    · refine Lower.checks_bind (Lower.checks_emit (C.Stmt.settled_of_none rfl rfl (by simp)) ?_)
      refine Lower.checks_bind ((Lower.checks_statements hu (hwf.statements b hb) h).mono fun _ _ _ _ => ?_)
      refine Lower.checks_emitAll (fun stmt hstmt => ?_) trivial
      split_ifs at hstmt
      · cases hstmt
      · obtain rfl := List.mem_singleton.1 hstmt
        exact C.Stmt.settled_of_none rfl rfl (by simp)
  exact hbody.1

/-- The packed variables whose slots the code for an expression accesses: those that it names, and the
parameters of the methods that it calls. -/
inductive Expression.Accesses (u : SourceUnit) : Expression → Variable → Prop
  | var {e : Expression} {id : VarId} (h : .var id ∈ e.items) (hst : (u.var id).storage ≠ .result) :
      Accesses u e (u.var id)
  | param {e : Expression} {name : String} {args : List Expression} {span : Span} {m : Method} {id : VarId}
      (hc : .call name args span ∈ e.items) (hm : Lower.callee u name args.length = .ok m) (hid : id ∈ m.params) :
      Accesses u e (u.var id)
  | argument {e a : Expression} {v : Variable} {name : String} {args : List Expression} {span : Span}
      (hc : .call name args span ∈ e.items) (ha : a ∈ args) (h : Accesses u a v) : Accesses u e v

theorem Method.WellFormed.packed_fits {w : Word} {vars : Array Variable} {m : Method} (hm : m.WellFormed w vars)
    {id : VarId} (hid : id ∈ m.scope) (hst : (vars.getD id default).storage ≠ .result) :
    (vars.getD id default).slot.offset + (vars.getD id default).width ≤ w.bits := by
  rcases mem_scope.1 hid with rfl | hid | ⟨b, hb, hid⟩
  · exact absurd hm.result_storage hst
  · exact (hm.params.within id hid).2
  · exact ((hm.locals b hb).within id hid).2

theorem Expression.Accesses.fits (hu : u.WellFormed) {m : Method} (hm : m ∈ u.methods) {e : Expression}
    {v : Variable} (h : e.Accesses u v) : (∀ i ∈ e.items, i.Plain m.scope ∨ i.isAssign) →
    v.slot.offset + v.width ≤ u.word.bits := by
  induction h with
  | var h hst =>
    intro hplain
    cases (hplain _ h).resolve_right (by simp [Item.isAssign]) with
    | var hid => exact (hu.methods m hm).packed_fits hid hst
  | param _ hcallee hid =>
    intro _
    exact ((hu.methods _ (callee_ok hcallee).1).params.within _ hid).2
  | argument hc ha _ ih =>
    intro hplain
    cases (hplain _ hc).resolve_right (by simp [Item.isAssign]) with
    | call hargs => exact ih fun i hi => Or.inl (hargs _ ha i hi)

end Bodies

/-- In every method that is kept of a text, parameters and locals lie in their words and apart from each other,
and so does all that the code for it accesses: each index is below the length that the array is declared with,
and each array that is handed over has room for the parameters of the called function. -/
theorem generated_accesses_in_bounds (w : Word) (src : String) {u : SourceUnit}
    (hu : (SourceUnit.ofText w src).1 = u) {m : Method} (hm : m ∈ u.methods) :
    (∀ id ∈ m.params, (u.var id).slot.group < m.paramGroups ∧
      (u.var id).slot.offset + (u.var id).width ≤ w.bits) ∧
    (m.params.Pairwise fun a b => (u.var a).slot.Apart (u.var a).width (u.var b).slot (u.var b).width) ∧
    (u.var m.result).width ≤ w.bits ∧
    ∀ b, m.body = some b →
      (∀ id ∈ b.localIds, (u.var id).slot.group < b.groupCount ∧
        (u.var id).slot.offset + (u.var id).width ≤ w.bits) ∧
      (b.localIds.Pairwise fun a b => (u.var a).slot.Apart (u.var a).width (u.var b).slot (u.var b).width) ∧
      (∀ st ∈ b.statements, ∀ e, st.expression? = some e → ∀ v, e.Accesses u v →
        v.slot.offset + v.width ≤ w.bits) ∧
      ∀ r, Lower.function? u m = some r → C.InBounds u.Takes (.start m.paramGroups) r.1.body := by
  obtain ⟨hwf, hword⟩ := SourceUnit.ofText_wellFormed w src
  rw [hu] at hwf hword
  subst hword
  have hmwf := hwf.methods m hm
  refine ⟨hmwf.params.within, hmwf.params.apart, hmwf.result_le, fun b hb => ?_⟩
  refine ⟨(hmwf.locals b hb).within, (hmwf.locals b hb).apart, ?_, ?_⟩
  · intro st hst e he v hv
    exact hv.fits hwf hm fun i hi => (hmwf.statements b hb st hst e he).item hi
  · intro r hr
    rw [Lower.function?, hb] at hr
    cases hr
    exact inBounds_body hwf hm hb

/-- A call with two arguments more than there are parameters. -/
theorem generated_accesses_in_bounds_variadic :
    ∃ (u : SourceUnit) (m : Method) (b : Body) (r : C.Function × List Diagnostic),
      (SourceUnit.ofText .w32 "object 8 A;8 f(7 p,...){5 x=3;f(x,9,x);}").1 = u ∧ m ∈ u.methods ∧
      m.body = some b ∧ Lower.function? u m = some r ∧ .declareWords (.args 0) 3 ∈ r.1.body ∧
      .setWord (.args 0) 1 (.decimal 9) ∈ r.1.body ∧ m.paramGroups = 1 ∧
      C.InBounds u.Takes (.start m.paramGroups) r.1.body := by
  let u := (SourceUnit.ofText .w32 "object 8 A;8 f(7 p,...){5 x=3;f(x,9,x);}").1
  have hcode : (u.methods[0]?.bind fun m => m.body.bind fun _ => (Lower.function? u m).map fun r =>
      decide (.declareWords (.args 0) 3 ∈ r.1.body ∧ .setWord (.args 0) 1 (.decimal 9) ∈ r.1.body ∧
        m.paramGroups = 1)) = some true := by
    decide +kernel
  obtain ⟨m, hm, hcode⟩ := Option.bind_eq_some_iff.1 hcode
  obtain ⟨b, hb, hcode⟩ := Option.bind_eq_some_iff.1 hcode
  obtain ⟨r, hr, hcode⟩ := Option.map_eq_some_iff.1 hcode
  obtain ⟨hdeclare, hset, hgroups⟩ := of_decide_eq_true hcode
  have hm' : m ∈ u.methods := Array.mem_of_getElem? hm
  obtain ⟨-, -, -, hbody⟩ := generated_accesses_in_bounds .w32 _ rfl hm'
  obtain ⟨-, -, -, hin⟩ := hbody b hb
  exact ⟨u, m, b, r, rfl, hm', hb, hr, hdeclare, hset, hgroups, hin r hr⟩

end Bitpack
