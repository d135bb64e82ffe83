import Mathlib
import Bitpack.Proofs.Targets
import Bitpack.Reading.Recovery

/-! The readers that move a cursor and those that are given a clause agree: where a cursor is in front of a clause, both
find the same, and where one fails the other fails with the same problem, the cursor being somewhere in the clause. -/

namespace Bitpack

section Facing

/-- The parser with its cursor in front of the last tokens `ts`. -/
def Parser.facing (p : Parser) (ts : List Token) : Parser :=
  { p with pos := p.tokens.size - ts.length }

/-- The parser after these problems too. -/
def Parser.reportAll (p : Parser) (ds : List Diagnostic) : Parser :=
  { p with faults := p.faults ++ ds }

variable {p : Parser} {t : Token} {ts : List Token}

@[simp] theorem Parser.reportAll_nil (p : Parser) : p.reportAll [] = p := by
  simp [Parser.reportAll]

theorem Parser.reportAll_report (p : Parser) (d : Diagnostic) (ds : List Diagnostic) :
    (p.report d).reportAll ds = p.reportAll (d :: ds) := by
  simp [Parser.reportAll]

theorem Parser.next_facing (h : t :: ts <:+ p.tokens.toList) : (p.facing (t :: ts)).next = t := by
  obtain ⟨front, hfront⟩ := h
  have hsize : p.tokens.size = front.length + (ts.length + 1) := by
    rw [← Array.length_toList, ← hfront, List.length_append, List.length_cons]
  have hpos : (p.facing (t :: ts)).pos = front.length := by
    simp [Parser.facing, hsize]
  rw [Cursor.next, hpos, Cursor.tokenAt, Array.getD_eq_getD_getElem?, ← Array.getElem?_toList]
  simp [Parser.facing, ← hfront]

theorem Parser.advance_facing (h : t :: ts <:+ p.tokens.toList) (ht : t.kind ≠ .finish) :
    (p.facing (t :: ts)).advance = p.facing ts := by
  have hlen : ts.length + 1 ≤ p.tokens.size := by simpa using h.length_le
  have hne : (p.facing (t :: ts)).next.kind ≠ .finish := by rwa [p.next_facing h]
  have hpos : p.tokens.size - (ts.length + 1) + 1 = p.tokens.size - ts.length := by omega
  rw [Parser.advance, Cursor.advance, if_neg hne]
  simp only [Parser.facing, List.length_cons, hpos]

end Facing

namespace Result

variable {n : ℕ} {c : Cursor} {α β : Type} {r : Result n c α} {q : Parser} {a : α}
  {f : α → (p : Parser) → c.Reaches n p.toCursor → Result n p.toCursor β}

theorem val_andThen_some (h : r.1 = (some a, q)) :
    ∃ hq : c.Reaches n q.toCursor, (r.andThen f).1 = (f a q hq).1 := by
  obtain ⟨r, hr⟩ := r
  cases h
  exact ⟨hr, rfl⟩

theorem val_andThen_none (h : r.1 = (none, q)) : (r.andThen f).1 = (none, q) := by
  obtain ⟨r, hr⟩ := r
  cases h
  rfl

end Result

namespace Walk

variable {n : ℕ} {α β : Type} {x : Walk n α} {f : α → Walk n β} {p q : Parser} {a : α}

@[simp] theorem run_pure (a : α) (p : Parser) : (pure a : Walk n α).run p = (some a, p) := rfl

theorem run_mark {m : Mark} (h : p.next.kind = .mark m) : (mark m : Walk n Unit).run p = (some (), p.advance) := by
  rw [run, mark, if_pos h]
  rfl

theorem run_mark_other {m : Mark} (h : p.next.kind ≠ .mark m) :
    (mark m : Walk n Unit).run p = (none, p.report (p.next.unexpected ("'" ++ m.char.toString ++ "'"))) := by
  rw [run, mark, if_neg h]
  rfl

theorem run_name {text : String} (h : p.next.kind = .name text) :
    (name : Walk n (String × Span)).run p = (some (text, p.next.span), p.advance) := by
  simp only [run, name, h]
  rfl

theorem run_name_other (h : ∀ text, p.next.kind ≠ .name text) :
    (name : Walk n (String × Span)).run p = (none, p.report (p.next.unexpected "name")) := by
  unfold run name
  split
  · rename_i text hk
    exact absurd hk (h text)
  · rfl

theorem run_number {expected text : String} (h : p.next.kind = .number text) :
    (number expected : Walk n ℕ).run p = match Text.ofDecimal? UInt64.size text.toList with
      | some m => (some m, p.advance)
      | none => (none, p.advance.report ⟨.badNumber text, p.next.span⟩) := by
  simp only [run, number, h]
  cases Text.ofDecimal? UInt64.size text.toList <;> rfl

theorem run_number_other {expected : String} (h : ∀ text, p.next.kind ≠ .number text) :
    (number expected : Walk n ℕ).run p = (none, p.report (p.next.unexpected expected)) := by
  unfold run number
  split
  · rename_i text hk
    exact absurd hk (h text)
  · rfl

theorem run_bind_some (h : x.run p = (some a, q)) : (x >>= f).run p = (f a).run q :=
  (Result.val_andThen_some h).2

theorem run_bind_none (h : x.run p = (none, q)) : (x >>= f).run p = (none, q) :=
  Result.val_andThen_none h

@[simp] theorem run_next_bind (f : Token → Walk n β) (p : Parser) : (next >>= f).run p = (f p.next).run p := rfl

end Walk

section Headings

/-- The rest of a declarator: one more name makes the first one the cast target. -/
def Read.declared (start : Span) (width : ℕ) (first : String × Span) : Read Declarator := fun c =>
  match c.tokens with
  | ⟨.name second, last⟩ :: rest => .ok (⟨width, some first.1, second, start.join last⟩, ⟨rest, c.stop⟩)
  | _ => .ok (⟨width, none, first.1, start.join first.2⟩, c)

theorem Read.declarator_eq : Read.declarator = fun c => (Read.number "bit width" >>= fun width => Read.name >>=
    Read.declared c.next.span width) c := by
  funext c
  unfold Read.declarator
  change (Read.number "bit width" c >>= _) = (Read.number "bit width" c >>= _)
  cases Read.number "bit width" c with
  | error d => rfl
  | ok r =>
    change (Read.name r.2 >>= _) = (Read.name r.2 >>= _)
    cases Read.name r.2 with
    | error d => rfl
    | ok r' => rfl

/-- What a clause belongs to. -/
inductive Region
  | item
  | body

/-- The tokens that end a clause. -/
def Region.ends : Region → Kind → Bool
  | .item, k => k.endsHead || k = .finish
  | .body, k => k.endsStatement

/-- The last of the tokens are a clause and those after it. -/
structure Ahead (region : Region) (tokens : Array Token) (c : Clause) (after : List Token) : Prop where
  suffix : c.text ++ after <:+ tokens.toList
  tokens : ∀ t ∈ c.tokens, region.ends t.kind = false
  stop : region.ends c.stop.kind = true

theorem Region.ends_cases (region : Region) {k : Kind} (h : region.ends k = true) :
    k = .mark .semicolon ∨ k = .mark .lbrace ∨ k = .mark .rbrace ∨ k = .finish := by
  cases region with
  | item =>
    simp only [Region.ends, Bool.or_eq_true, decide_eq_true_eq] at h
    rcases h with h | rfl
    · unfold Kind.endsHead at h
      split at h <;> simp_all
    · simp
  | body =>
    change k.endsStatement = true at h
    unfold Kind.endsStatement at h
    split at h <;> simp_all

theorem Region.ends_eq_false (region : Region) {k : Kind} (hhead : k.endsHead = false) (hfinish : k ≠ .finish) :
    region.ends k = false := by
  rw [Bool.eq_false_iff]
  intro h
  rcases region.ends_cases h with rfl | rfl | rfl | rfl
  · cases hhead
  · cases hhead
  · cases hhead
  · exact hfinish rfl

theorem Region.ends_finish (region : Region) : region.ends .finish = true := by
  cases region <;> rfl

theorem Region.ends_semicolon (region : Region) : region.ends (.mark .semicolon) = true := by
  cases region <;> rfl

namespace Ahead

variable {region : Region} {p : Parser} {c : Clause} {after : List Token} {t : Token} {ts : List Token} {stop : Token}

theorem next (h : Ahead region p.tokens c after) : (p.facing (c.text ++ after)).next = c.next := by
  obtain ⟨_ | ⟨t, ts⟩, stop⟩ := c
  · exact p.next_facing h.suffix
  · exact p.next_facing h.suffix

theorem next_kind {k : Kind} {span : Span} (h : Ahead region p.tokens ⟨⟨k, span⟩ :: ts, stop⟩ after) :
    (p.facing ((⟨⟨k, span⟩ :: ts, stop⟩ : Clause).text ++ after)).next.kind = k :=
  congrArg Token.kind h.next

/-- A token that does not end a clause begins it. -/
theorem eq_cons (h : Ahead region p.tokens c after) {k : Kind} (hk : c.next.kind = k) (hends : region.ends k = false) :
    ∃ span ts stop, c = ⟨⟨k, span⟩ :: ts, stop⟩ := by
  obtain ⟨_ | ⟨⟨kind, span⟩, ts⟩, stop⟩ := c
  · obtain rfl : stop.kind = k := hk
    exact absurd h.stop (by simp [hends])
  · obtain rfl : kind = k := hk
    exact ⟨span, ts, stop, rfl⟩

/-- A token that ends a clause is its stop. -/
theorem eq_nil (h : Ahead region p.tokens c after) (hends : region.ends c.next.kind = true) : c.tokens = [] := by
  obtain ⟨_ | ⟨t, ts⟩, stop⟩ := c
  · rfl
  · have := h.tokens t List.mem_cons_self
    rw [show region.ends t.kind = true from hends] at this
    cases this

theorem next_kind_iff (h : Ahead region p.tokens c after) {k : Kind} (hends : region.ends k = true) :
    (p.facing (c.text ++ after)).next.kind = k ↔ c.tokens = [] ∧ c.stop.kind = k := by
  rw [h.next]
  constructor
  · intro hk
    have hnil := h.eq_nil (hk ▸ hends)
    exact ⟨hnil, by simpa [Clause.next, hnil] using hk⟩
  · rintro ⟨hnil, hk⟩
    simpa [Clause.next, hnil] using hk

theorem next_kind_ne (h : Ahead region p.tokens c after) {k : Kind} (hends : region.ends k = false)
    (hhead : (c.tokens.map (·.kind)).head? ≠ some k) : (p.facing (c.text ++ after)).next.kind ≠ k := by
  rw [h.next]
  intro hk
  obtain ⟨span, ts, stop, rfl⟩ := h.eq_cons hk hends
  exact hhead rfl

theorem of_suffix (h : Ahead region p.tokens c after) (hts : ts <:+ c.tokens) :
    Ahead region p.tokens ⟨ts, c.stop⟩ after where
  suffix := by
    obtain ⟨front, hfront⟩ := hts
    refine List.IsSuffix.trans ⟨front, ?_⟩ h.suffix
    simp [Clause.text, ← hfront]
  tokens t ht := h.tokens t (hts.subset ht)
  stop := h.stop

theorem tail (h : Ahead region p.tokens ⟨t :: ts, stop⟩ after) : Ahead region p.tokens ⟨ts, stop⟩ after :=
  h.of_suffix (List.suffix_cons t ts)

theorem advance (h : Ahead region p.tokens ⟨t :: ts, stop⟩ after) :
    (p.facing ((⟨t :: ts, stop⟩ : Clause).text ++ after)).advance = p.facing ((⟨ts, stop⟩ : Clause).text ++ after) :=
  p.advance_facing h.suffix fun hfinish => by
    have := h.tokens t List.mem_cons_self
    rw [hfinish, region.ends_finish] at this
    cases this

theorem advance_stop (h : Ahead region p.tokens ⟨[], stop⟩ after) (hstop : stop.kind ≠ .finish) :
    (p.facing ((⟨[], stop⟩ : Clause).text ++ after)).advance = p.facing after :=
  p.advance_facing h.suffix hstop

end Ahead

namespace Walk

variable {n : ℕ} {α β : Type}

/-- What is read by the cursor agrees with what is read from the clause. -/
inductive Agrees (p : Parser) (c : Clause) (after : List Token) :
    Except Diagnostic (α × Clause) → Option α × Parser → Prop
  | ok {a : α} {ts : List Token} (h : ts <:+ c.tokens) :
      Agrees p c after (.ok (a, ⟨ts, c.stop⟩)) (some a, p.facing ((⟨ts, c.stop⟩ : Clause).text ++ after))
  | error {d : Diagnostic} {ts : List Token} (h : ts <:+ c.tokens) :
      Agrees p c after (.error d) (none, (p.facing ((⟨ts, c.stop⟩ : Clause).text ++ after)).report d)

theorem Agrees.ok_tail {p : Parser} {a : α} {t stop : Token} {ts after : List Token} :
    Agrees p ⟨t :: ts, stop⟩ after (.ok (a, ⟨ts, stop⟩)) (some a, p.facing ((⟨ts, stop⟩ : Clause).text ++ after)) :=
  .ok (List.suffix_cons t ts)

theorem Agrees.error_tail {p : Parser} {d : Diagnostic} {t stop : Token} {ts after : List Token} :
    Agrees p ⟨t :: ts, stop⟩ after (.error d : Except _ (α × Clause))
      (none, (p.facing ((⟨ts, stop⟩ : Clause).text ++ after)).report d) :=
  .error (List.suffix_cons t ts)

theorem Agrees.of_suffix {p : Parser} {c : Clause} {after ts : List Token} {r : Except Diagnostic (α × Clause)}
    {o : Option α × Parser} (h : Agrees p ⟨ts, c.stop⟩ after r o) (hts : ts <:+ c.tokens) : Agrees p c after r o := by
  cases h with
  | ok h => exact .ok (h.trans hts)
  | error h => exact .error (h.trans hts)

variable {p : Parser}

/-- In front of a clause the one reader does as the other. -/
def Reads (x : Walk n α) (r : Read α) : Prop :=
  ∀ (region : Region) (p : Parser) (c : Clause) (after : List Token), Ahead region p.tokens c after →
    Agrees p c after (r c) (x.run (p.facing (c.text ++ after)))

theorem reads_pure (a : α) : (pure a : Walk n α).Reads (pure a) :=
  fun _ _ _ _ _ => .ok (List.suffix_refl _)

theorem Reads.bind {x : Walk n α} {r : Read α} {f : α → Walk n β} {g : α → Read β} (h : x.Reads r)
    (hf : ∀ a, (f a).Reads (g a)) : (x >>= f).Reads (r >>= g) := by
  intro region p c after hc
  have hx := h region p c after hc
  change Agrees p c after (r c >>= fun y => g y.1 y.2) _
  generalize hr : r c = y at hx
  generalize ho : x.run (p.facing (c.text ++ after)) = o at hx
  cases hx with
  | ok hts =>
    rw [run_bind_some ho]
    exact (hf _ _ _ _ _ (hc.of_suffix hts)).of_suffix hts
  | error hts =>
    rw [run_bind_none ho]
    exact .error hts

theorem number_reads (expected : String) : (number expected : Walk n ℕ).Reads (Read.number expected) := by
  intro region p c after h
  by_cases hkind : ∃ text, c.next.kind = .number text
  · obtain ⟨text, hkind⟩ := hkind
    obtain ⟨span, ts, stop, rfl⟩ := h.eq_cons hkind (region.ends_eq_false rfl (by simp))
    rw [run_number (h.next ▸ hkind), h.advance, h.next, Read.number]
    dsimp only
    cases Text.ofDecimal? UInt64.size text.toList with
    | none => exact .error_tail
    | some m => exact .ok_tail
  · rw [run_number_other (by rw [h.next]; exact not_exists.1 hkind), h.next, Read.number]
    split
    · rename_i hc
      simp [Clause.next, hc] at hkind
    · exact .error (List.suffix_refl _)

theorem run_name_facing {region : Region} {text : String} {span : Span} {ts after : List Token} {stop : Token}
    (h : Ahead region p.tokens ⟨⟨.name text, span⟩ :: ts, stop⟩ after) :
    (name : Walk n (String × Span)).run (p.facing ((⟨⟨.name text, span⟩ :: ts, stop⟩ : Clause).text ++ after)) =
      (some (text, span), p.facing ((⟨ts, stop⟩ : Clause).text ++ after)) := by
  rw [run_name h.next_kind, h.advance, h.next]
  rfl

theorem name_reads : (name : Walk n (String × Span)).Reads Read.name := by
  intro region p c after h
  by_cases hkind : ∃ text, c.next.kind = .name text
  · obtain ⟨text, hkind⟩ := hkind
    obtain ⟨span, ts, stop, rfl⟩ := h.eq_cons hkind (region.ends_eq_false rfl (by simp))
    rw [run_name_facing h, Read.name]
    exact .ok_tail
  · rw [run_name_other (by rw [h.next]; exact not_exists.1 hkind), h.next, Read.name]
    split
    · rename_i hc
      simp [Clause.next, hc] at hkind
    · exact .error (List.suffix_refl _)

theorem mark_reads (m : Mark) (hm : (Kind.mark m).endsHead = false) : (mark m : Walk n Unit).Reads (Read.mark m) := by
  intro region p c after h
  by_cases hkind : c.next.kind = .mark m
  · obtain ⟨span, ts, stop, rfl⟩ := h.eq_cons hkind (region.ends_eq_false hm (by simp))
    rw [run_mark (h.next ▸ hkind), h.advance, Read.mark]
    simp only [if_true]
    exact .ok_tail
  · rw [run_mark_other (h.next ▸ hkind), h.next, Read.mark]
    split
    · rename_i m' span rest hc
      rw [if_neg]
      · exact .error (List.suffix_refl _)
      · rintro rfl
        simp [Clause.next, hc] at hkind
    · exact .error (List.suffix_refl _)

theorem Reads.next {f : Token → Walk n β} {g : Token → Read β} (h : ∀ t, (f t).Reads (g t)) :
    (Walk.next >>= f).Reads fun c => g c.next c := by
  intro region p c after hc
  rw [run_next_bind, hc.next]
  exact h c.next region p c after hc

theorem declarator_reads : (declarator : Walk n Declarator).Reads Read.declarator := by
  rw [Read.declarator_eq, declarator]
  refine Reads.next (g := fun t => Read.number "bit width" >>= fun width => Read.name >>= Read.declared t.span width)
    fun t => (number_reads _).bind fun width => name_reads.bind fun first => ?_
  intro region p c after h
  by_cases hkind : ∃ text, c.next.kind = .name text
  · obtain ⟨text, hkind⟩ := hkind
    obtain ⟨last, ts, stop, rfl⟩ := h.eq_cons hkind (region.ends_eq_false rfl (by simp))
    rw [run_next_bind, h.next]
    dsimp only [Clause.next, List.headD_cons]
    rw [run_bind_some (run_name_facing h)]
    exact .ok_tail
  · rw [run_next_bind, h.next]
    split
    · rename_i hname
      exact absurd ⟨_, hname⟩ hkind
    · unfold Read.declared
      split
      · rename_i hc
        simp [Clause.next, hc] at hkind
      · exact .ok (List.suffix_refl _)

theorem ellipsis_reads : (ellipsis : Walk n Unit).Reads Read.ellipsis :=
  (mark_reads .dot rfl).bind fun _ => (mark_reads .dot rfl).bind fun _ => mark_reads .dot rfl

section Parameters

variable {q : Parser} {d : Declarator}

theorem run_parameters_dot (h : p.next.kind = .mark .dot) : (parameters : Walk n _).run p =
    Prod.map (Option.map fun _ => ([], true)) id ((ellipsis : Walk n Unit).run p) := by
  rw [run, parameters, if_pos h]
  rfl

variable (hdot : p.next.kind ≠ .mark .dot)
include hdot

theorem run_parameters_none (h : (declarator : Walk n _).run p = (none, q)) :
    (parameters : Walk n _).run p = (none, q) := by
  rw [run, parameters, if_neg hdot, Result.val_andThen_none h]

theorem run_parameters_comma (h : (declarator : Walk n _).run p = (some d, q)) (hcomma : q.next.kind = .mark .comma) :
    (parameters : Walk n _).run p =
      Prod.map (Option.map fun r => (d :: r.1, r.2)) id ((parameters : Walk n _).run q.advance) := by
  rw [run, parameters, if_neg hdot]
  obtain ⟨hq, hrun⟩ := Result.val_andThen_some h
  rw [hrun, dif_pos hcomma]
  rfl

theorem run_parameters_last (h : (declarator : Walk n _).run p = (some d, q)) (hcomma : q.next.kind ≠ .mark .comma) :
    (parameters : Walk n _).run p = (some ([d], false), q) := by
  rw [run, parameters, if_neg hdot]
  obtain ⟨hq, hrun⟩ := Result.val_andThen_some h
  rw [hrun, dif_neg hcomma]
  rfl

end Parameters

theorem parameters_reads : (parameters : Walk n _).Reads Read.parameters := by
  intro region p c after h
  fun_induction Read.parameters c with
  | case1 c hdot =>
    rw [run_parameters_dot (h.next ▸ hdot)]
    have hagrees := ellipsis_reads (n := n) region p c after h
    generalize Read.ellipsis c = r, ellipsis.run _ = o at hagrees ⊢
    cases hagrees with
    | ok hts => exact .ok hts
    | error hts => exact .error hts
  | case2 c hdot d hd =>
    have hagrees := declarator_reads (n := n) region p c after h
    rw [hd] at hagrees
    generalize hrun : declarator.run _ = o at hagrees
    cases hagrees with
    | error hts =>
      rw [run_parameters_none (h.next ▸ hdot) hrun]
      exact .error hts
  | case3 c hdot d c' hd span rest hcomma _ ih =>
    have hagrees := declarator_reads (n := n) region p c after h
    rw [hd] at hagrees
    generalize hrun : declarator.run _ = o at hagrees
    cases hagrees with
    | ok hts =>
      obtain rfl : _ = _ := hcomma
      have hc' := h.of_suffix hts
      have hrest := hc'.tail
      rw [run_parameters_comma (h.next ▸ hdot) hrun hc'.next_kind, hc'.advance]
      have hagrees := ih hrest
      generalize Read.parameters _ = r, parameters.run _ = o at hagrees ⊢
      have hsuffix := (List.suffix_cons _ rest).trans hts
      cases hagrees with
      | ok hts => exact .ok (hts.trans hsuffix)
      | error hts => exact .error (hts.trans hsuffix)
  | case4 c hdot d c' hd hcomma =>
    have hagrees := declarator_reads (n := n) region p c after h
    rw [hd] at hagrees
    generalize hrun : declarator.run _ = o at hagrees
    cases hagrees with
    | @ok _ ts hts =>
      have hc' := h.of_suffix hts
      rw [run_parameters_last (h.next ▸ hdot) hrun]
      · exact .ok hts
      · rw [hc'.next]
        intro hnext
        obtain ⟨span, rest, stop, heq⟩ := hc'.eq_cons hnext (region.ends_eq_false rfl (by simp))
        exact hcomma span rest (congrArg Clause.tokens heq)

/-- What is read by the cursor, up to the tokens behind the clause, agrees with what is read from the clause. -/
inductive Closes (g : α × Clause → β) (p : Parser) (c : Clause) (after : List Token) :
    Except Diagnostic (α × Clause) → Option β × Parser → Prop
  | ok {y : α × Clause} (hstop : y.2.stop = c.stop) : Closes g p c after (.ok y) (some (g y), p.facing after)
  | error {d : Diagnostic} {ts : List Token} (h : ts <:+ c.tokens) :
      Closes g p c after (.error d) (none, (p.facing ((⟨ts, c.stop⟩ : Clause).text ++ after)).report d)

/-- In front of a clause the one reader does as the other, and passes the stop too. -/
def Ends (region : Region) (g : α × Clause → β) (x : Walk n β) (r : Read α) : Prop :=
  ∀ (p : Parser) (c : Clause) (after : List Token), Ahead region p.tokens c after →
    Closes g p c after (r c) (x.run (p.facing (c.text ++ after)))

section Ends

variable {γ : Type} {region : Region} {x : Walk n α} {r : Read α} {f : α → Walk n γ} {k : α → Read β}
  {g : β × Clause → γ}

theorem Reads.ends (h : x.Reads r) (hf : ∀ a, Ends region g (f a) (k a)) : Ends region g (x >>= f) (r >>= k) := by
  intro p c after hc
  have hx := h region p c after hc
  change Closes g p c after (r c >>= fun y => k y.1 y.2) _
  generalize r c = y at hx
  generalize ho : x.run (p.facing (c.text ++ after)) = o at hx
  cases hx with
  | @ok a ts hts =>
    rw [run_bind_some ho]
    have hclose := hf a _ _ _ (hc.of_suffix hts)
    change Closes g p c after (k a _) _
    generalize k a _ = z, (f a).run _ = o' at hclose
    cases hclose with
    | ok hstop => exact .ok hstop
    | error h => exact .error (h.trans hts)
  | error hts =>
    rw [run_bind_none ho]
    exact .error hts

theorem ends_next {f : Token → Walk n γ} {k : Clause → Read β} (h : ∀ c, Ends region g (f c.next) (k c)) :
    Ends region g (next >>= f) (get >>= k) := by
  intro p c after hc
  rw [run_next_bind, hc.next]
  exact h c p c after hc

/-- Passing the stop of a clause, of one of the kinds given, agrees with the end of the clause. -/
theorem ends_stop {kinds : List Kind} (hkinds : ∀ k ∈ kinds, region.ends k = true ∧ k ≠ .finish) (expected : String)
    {f : Token → Walk n γ} {b : β} (hf : ∀ c : Clause, f c.stop = pure (g (b, c))) :
    Ends region g (anyOf kinds expected >>= f) (Read.stop kinds expected >>= fun _ => pure b) := by
  intro p c after h
  change Closes g p c after (Read.stop kinds expected c >>= fun y => pure (b, y.2)) _
  unfold Read.stop
  by_cases hkind : kinds.contains c.next.kind
  · obtain ⟨tokens, stop⟩ := c
    obtain ⟨hends, hne⟩ := hkinds _ (List.contains_iff_mem.1 hkind)
    obtain rfl : tokens = [] := h.eq_nil hends
    have hrun : (anyOf kinds expected : Walk n _).run (p.facing ((⟨[], stop⟩ : Clause).text ++ after)) =
        (some stop, p.facing after) := by
      rw [run, anyOf, if_pos (by rwa [h.next])]
      exact congrArg₂ (fun t q => (some t, q)) h.next (p.advance_facing h.suffix hne)
    rw [run_bind_some hrun, hf ⟨[], stop⟩, if_pos (by exact hkind)]
    exact .ok rfl
  · have hrun : (anyOf kinds expected : Walk n _).run (p.facing (c.text ++ after)) =
        (none, (p.facing (c.text ++ after)).report (c.next.unexpected expected)) := by
      rw [run, anyOf, if_neg (by rwa [h.next]), h.next]
      rfl
    rw [run_bind_none hrun, if_neg]
    · exact .error (List.suffix_refl _)
    · intro hstop
      obtain ⟨tokens, stop⟩ := c
      simp only [Bool.and_eq_true, List.isEmpty_iff] at hstop
      obtain ⟨rfl, hstop⟩ := hstop
      exact hkind hstop

theorem run_mark_bind (m : Mark) (f : Unit → Walk n γ) (p : Parser) : (mark m >>= f).run p =
    (anyOf [.mark m] ("'" ++ m.char.toString ++ "'") >>= fun _ => f ()).run p := by
  by_cases hkind : p.next.kind = .mark m
  · have hrun : (anyOf [.mark m] ("'" ++ m.char.toString ++ "'") : Walk n _).run p = (some p.next, p.advance) := by
      rw [run, anyOf, if_pos (by simp [hkind])]
      rfl
    rw [run_bind_some (run_mark hkind), run_bind_some hrun]
  · have hrun : (anyOf [.mark m] ("'" ++ m.char.toString ++ "'") : Walk n _).run p =
        (none, p.report (p.next.unexpected ("'" ++ m.char.toString ++ "'"))) := by
      rw [run, anyOf, if_neg (by simp [hkind])]
      rfl
    rw [run_bind_none (run_mark_other hkind), run_bind_none hrun]

theorem ends_semicolon (region : Region) (b : β) : Ends region (·.1) (mark .semicolon >>= fun _ => pure b : Walk n β)
    (Read.stop [.mark .semicolon] "';'" >>= fun _ => pure b) := by
  intro p c after h
  rw [run_mark_bind]
  exact ends_stop (by simp [region.ends_semicolon]) "';'" (fun _ => rfl) p c after h

end Ends

theorem importName_ends (region : Region) : Ends region (·.1) (importName : Walk n (String × Span)) Read.importName :=
  name_reads.ends fun imported => ends_semicolon region imported

theorem objectHeader_ends (region : Region) :
    Ends region (·.1) (objectHeader : Walk n (ℕ × String)) Read.objectHeader :=
  (number_reads _).ends fun bits => name_reads.ends fun object => ends_semicolon region (bits, object.1)

theorem heading_ends (access : Access) : Ends .item (fun y => (y.1, decide (y.2.stop.kind = .mark .lbrace)))
    (heading access : Walk n (Heading × Bool)) (Read.heading access) := by
  refine declarator_reads.ends fun result => (mark_reads .lparen rfl).ends fun _ => ends_next fun c => ?_
  have hend : ∀ r : List Declarator × Bool, Ends .item (fun y => (y.1, decide (y.2.stop.kind = .mark .lbrace)))
      (mark .rparen >>= fun _ => anyOf [.mark .semicolon, .mark .lbrace] "';' or '\x7b'" >>= fun t =>
        pure (⟨access, result, r.1, r.2⟩, decide (t.kind = .mark .lbrace)) : Walk n (Heading × Bool))
      (Read.mark .rparen >>= fun _ => Read.stop [.mark .semicolon, .mark .lbrace] "';' or '\x7b'" >>= fun _ =>
        pure ⟨access, result, r.1, r.2⟩) :=
    fun r => (mark_reads .rparen rfl).ends fun _ => ends_stop (by simp [Region.ends, Kind.endsHead]) _ fun _ => rfl
  split_ifs
  · exact (reads_pure _).ends hend
  · exact parameters_reads.ends hend

section Tags

variable {access access' : Access} {text : String} {span : Span} {q : Parser}

theorem run_tags_other (h : p.next.kind ≠ .mark .atSign) : (tags access : Walk n Access).run p = (some access, p) := by
  rw [run, tags, dif_neg h]
  rfl

variable (h : p.next.kind = .mark .atSign)
include h

theorem run_tags_none (hname : (name : Walk n _).run p.advance = (none, q)) :
    (tags access : Walk n Access).run p = (none, q) := by
  rw [run, tags, dif_pos h, Result.val_since, Result.val_andThen_none hname]

theorem run_tags_known (hname : (name : Walk n _).run p.advance = (some (text, span), q))
    (htag : Access.ofTag? text = some access') :
    (tags access : Walk n Access).run p = (tags access' : Walk n Access).run q := by
  rw [run, tags, dif_pos h, Result.val_since]
  obtain ⟨hq, hrun⟩ := Result.val_andThen_some hname
  rw [hrun]
  simp only [htag]
  rfl

theorem run_tags_unknown (hname : (name : Walk n _).run p.advance = (some (text, span), q))
    (htag : Access.ofTag? text = none) :
    (tags access : Walk n Access).run p = (tags access : Walk n Access).run (q.report ⟨.unknownTag text, span⟩) := by
  rw [run, tags, dif_pos h, Result.val_since]
  obtain ⟨hq, hrun⟩ := Result.val_andThen_some hname
  rw [hrun]
  simp only [htag]
  rfl

end Tags

/-- The annotations that the cursor passes are those in front of the clause, and their notes are the same. -/
theorem tags_agrees {region : Region} {stop : Token} {after ts : List Token} (access : Access)
    (h : Ahead region p.tokens ⟨ts, stop⟩ after) :
    Agrees (p.reportAll (readTags stop access ts).1) ⟨ts, stop⟩ after
      ((readTags stop access ts).2.map fun y => (y.1, ⟨y.2, stop⟩))
      ((tags access : Walk n Access).run (p.facing ((⟨ts, stop⟩ : Clause).text ++ after))) := by
  fun_induction readTags stop access ts generalizing p with
  | case1 access s text span rest access' htag ih =>
    have hname := run_name_facing (n := n) h.tail
    rw [run_tags_known h.next_kind (h.advance ▸ hname) htag]
    exact (ih h.tail.tail).of_suffix (List.suffix_append [_, _] rest)
  | case2 access s text span rest htag notes result hrest ih =>
    have hname := run_name_facing (n := n) h.tail
    rw [run_tags_unknown h.next_kind (h.advance ▸ hname) htag]
    have hagrees := ih (p := p.report ⟨.unknownTag text, span⟩) h.tail.tail
    rw [hrest, Parser.reportAll_report] at hagrees
    exact hagrees.of_suffix (List.suffix_append [_, _] rest)
  | case3 access s rest hrest =>
    have hother : ∀ text, (p.facing ((⟨rest, stop⟩ : Clause).text ++ after)).next.kind ≠ .name text := by
      intro text hname
      rw [h.tail.next] at hname
      obtain ⟨span, ts, _, heq⟩ := h.tail.eq_cons hname (region.ends_eq_false rfl (by simp))
      exact hrest text span ts (congrArg Clause.tokens heq)
    have hname := run_name_other (n := n) hother
    rw [run_tags_none h.next_kind (h.advance ▸ hname), h.advance, h.tail.next, Parser.reportAll_nil]
    exact .error_tail
  | case4 access ts hknown hother =>
    rw [run_tags_other, Parser.reportAll_nil]
    · exact .ok (List.suffix_refl ts)
    · intro hat
      rw [h.next] at hat
      obtain ⟨span, ts, _, heq⟩ := h.eq_cons hat (region.ends_eq_false rfl (by simp))
      exact hother span ts (congrArg Clause.tokens heq)

end Walk
end Headings
end Bitpack
