import Mathlib
import Bitpack.Proofs.Places

/-! Items do not get into each other's way. The items of a unit are its chunks whatever stands in them, and a
chunk that is no item leaves nothing behind but its problems. -/

namespace Bitpack

section Headers

/-- `'object' SIZE NAME ';'`. -/
def IsHeader (ts : List Token) : Prop :=
  ∃ bits name, ts.map (·.kind) = [.keyword .object, .number bits, .name name, .mark .semicolon] ∧
    (Text.ofDecimal? UInt64.size bits.toList).isSome

theorem IsHeader.draft_eq {ts : List Token} (h : IsHeader ts) : ∃ n name, n < UInt64.size ∧
    (∃ t ∈ ts, t.kind = .name name) ∧ ∀ w finish rest,
      Draft.header w finish (ts ++ rest) = (⟨{ word := w, name, bits := n }, []⟩, rest) := by
  obtain ⟨bits, name, hkinds, hbits⟩ := h
  obtain ⟨n, hn⟩ := Option.isSome_iff_exists.1 hbits
  obtain ⟨s₀, ts₀, rfl, h₀⟩ := exists_of_kinds_cons hkinds
  obtain ⟨s₁, ts₁, rfl, h₁⟩ := exists_of_kinds_cons h₀
  obtain ⟨s₂, ts₂, rfl, h₂⟩ := exists_of_kinds_cons h₁
  obtain ⟨s₃, ts₃, rfl, h₃⟩ := exists_of_kinds_cons h₂
  obtain rfl := List.map_eq_nil_iff.1 h₃
  refine ⟨n, name, ofDecimal?_lt hn, ⟨⟨.name name, s₂⟩, by simp, rfl⟩, ?_⟩
  intro w finish rest
  have hhead : Entry.head finish (⟨.number bits, s₁⟩ :: ⟨.name name, s₂⟩ :: ⟨.mark .semicolon, s₃⟩ :: rest) =
      (⟨[⟨.number bits, s₁⟩, ⟨.name name, s₂⟩], ⟨.mark .semicolon, s₃⟩⟩, rest) := rfl
  have hheader : Read.objectHeader ⟨[⟨.number bits, s₁⟩, ⟨.name name, s₂⟩], ⟨.mark .semicolon, s₃⟩⟩ =
      .ok ((n, name), ⟨[], ⟨.mark .semicolon, s₃⟩⟩) := Read.objectHeader_ok.2 ⟨bits, s₁, s₂, rfl, hn, rfl, rfl⟩
  simp only [List.cons_append, List.nil_append, Draft.header, hhead, hheader]

end Headers

section Chunks

/-- One item as it stands in a text, whatever it says: a run of tokens up to a semicolon, or a run in front of a
block in braces that has no braces inside. -/
inductive Chunk
  | plain (run : List Token) (stop : Token) (hrun : ∀ t ∈ run, ¬ t.kind.endsHead)
      (hstop : stop.kind = .mark .semicolon)
  | braced (run : List Token) (stop : Token) (inside : List Token) (close : Token)
      (hrun : ∀ t ∈ run, ¬ t.kind.endsHead) (hstop : stop.kind = .mark .lbrace)
      (hinside : ∀ t ∈ inside, t.kind ≠ .mark .lbrace ∧ t.kind ≠ .mark .rbrace) (hclose : close.kind = .mark .rbrace)

def Entry.isBroken : Entry → Bool
  | .broken _ => true
  | .imported .. | .method .. => false

theorem skipBlock_append {inside : List Token} {close : Token} (rest : List Token)
    (hinside : ∀ t ∈ inside, t.kind ≠ .mark .lbrace ∧ t.kind ≠ .mark .rbrace) (hclose : close.kind = .mark .rbrace) :
    skipBlock 0 (inside ++ close :: rest) = rest := by
  induction inside with
  | nil => simp [skipBlock, hclose]
  | cons t inside ih =>
    obtain ⟨⟨hopen, hshut⟩, hinside⟩ := List.forall_mem_cons.1 hinside
    simp only [List.cons_append, skipBlock]
    exact ih hinside

theorem Block.split_closed {inside : List Token} {close : Token}
    (hinside : ∀ t ∈ inside, t.kind ≠ .mark .lbrace ∧ t.kind ≠ .mark .rbrace) (hclose : close.kind = .mark .rbrace) :
    ∀ finish rest,
      Block.split finish (inside ++ close :: rest) = ((Block.split close (inside ++ [close])).1, rest) := by
  induction inside with
  | nil => simp [Block.split, hclose]
  | cons t inside ih =>
    intro finish rest
    obtain ⟨⟨-, hshut⟩, hinside⟩ := List.forall_mem_cons.1 hinside
    rw [List.cons_append, List.cons_append, Block.split, Block.split, if_neg hshut, if_neg hshut,
      ih hinside finish rest, ih hinside close []]
    split_ifs <;> rfl

namespace Chunk

/-- The run up to the semicolon or the block. -/
def clause : Chunk → Clause
  | plain run stop .. => ⟨run, stop⟩
  | braced run stop .. => ⟨run, stop⟩

/-- What stands behind that. -/
def tail : Chunk → List Token
  | plain .. => []
  | braced _ _ inside close .. => inside ++ [close]

def text (c : Chunk) : List Token :=
  c.clause.tokens ++ c.clause.stop :: c.tail

def block : Chunk → Option Block
  | plain .. => none
  | braced _ _ inside close .. => some (Block.split close (inside ++ [close])).1

/-- Neither an import nor the heading of a method can be read. -/
def fails (c : Chunk) : Bool :=
  (Entry.ofClause c.clause).isBroken

/-- The chunk, read from its first token. -/
def entry (c : Chunk) : Entry :=
  match Entry.ofClause c.clause with
  | .imported name span => .imported name span
  | .method notes heading _ => .method notes heading c.block
  | .broken faults => .broken faults

theorem entry_isBroken (c : Chunk) : c.entry.isBroken = c.fails := by
  unfold entry fails
  cases Entry.ofClause c.clause <;> rfl

theorem head_text (c : Chunk) (finish : Token) (rest : List Token) :
    Entry.head finish (c.text ++ rest) = (c.clause, c.tail ++ rest) := by
  have hcut : ∀ (front : List Token) (stop : Token) (after : List Token), (∀ t ∈ front, ¬ t.kind.endsHead) →
      stop.kind.endsHead → Entry.head finish (front ++ stop :: after) = (⟨front, stop⟩, after) :=
    fun front stop after hfront hstop => Clause.cut_append finish after hfront hstop
  rw [text, List.append_assoc, List.cons_append]
  cases c with
  | plain run stop hrun hstop => exact hcut run stop _ hrun (by rw [hstop]; rfl)
  | braced run stop inside close hrun hstop hinside hclose => exact hcut run stop _ hrun (by rw [hstop]; rfl)

theorem skip_tail (c : Chunk) (rest : List Token) : c.clause.skip (c.tail ++ rest) = rest := by
  cases c with
  | plain run stop hrun hstop => simp [Clause.skip, clause, tail, hstop]
  | braced run stop inside close hrun hstop hinside hclose =>
    simp [Clause.skip, clause, tail, hstop, skipBlock_append rest hinside hclose]

theorem split_text (c : Chunk) (finish : Token) (rest : List Token) :
    Entry.split finish (c.text ++ rest) = c.entry :: Entry.split finish rest := by
  have hne : c.text ++ rest ≠ [] := by simp [text]
  have hhead := c.head_text finish rest
  unfold entry
  cases hentry : Entry.ofClause c.clause with
  | imported name span =>
    cases Entry.headOf hentry rfl with
    | imported hkinds hsemicolon =>
      cases c with
      | plain run stop hrun hstop => exact Entry.split_imported hne hhead hentry
      | braced run stop inside close hrun hstop hinside hclose =>
        exact absurd (hsemicolon.symm.trans hstop) (by decide)
  | method notes heading block =>
    cases c with
    | plain run stop hrun hstop => exact Entry.split_method hne hhead hentry hstop
    | braced run stop inside close hrun hstop hinside hclose =>
      refine Entry.split_block hne hhead hentry hstop ?_
      rw [tail, List.append_assoc]
      exact Block.split_closed hinside hclose finish rest
  | broken faults =>
    rw [Entry.split_broken hne hhead hentry, skip_tail]

theorem split_flatMap_text (cs : List Chunk) (finish : Token) :
    Entry.split finish (cs.flatMap text) = cs.map entry := by
  induction cs with
  | nil => simp [Entry.split]
  | cons c cs ih => rw [List.flatMap_cons, split_text, ih, List.map_cons]

end Chunk
end Chunks

section Drafts

namespace Draft

theorem add_eq (u : SourceUnit) (e : Entry) : ∃ u' later,
    (∀ faults, add ⟨u, faults⟩ e = ⟨u', faults ++ later⟩) ∧ (e.isBroken → u' = u) := by
  cases e with
  | imported name span =>
    refine ⟨{ u with imports := u.imports.push ⟨name, span⟩ }, [], fun faults => ?_, Bool.noConfusion⟩
    rw [List.append_nil]
    rfl
  | broken later => exact ⟨u, later, fun _ => rfl, fun _ => rfl⟩
  | method notes heading block =>
    let r := readMethod u.word u.vars heading block
    cases hr : r.method with
    | none =>
      refine ⟨{ u with vars := r.vars }, notes ++ r.faults, fun faults => ?_, Bool.noConfusion⟩
      change (readMethod u.word u.vars heading block).method = none at hr
      simp only [add, hr, List.append_assoc, r]
    | some m =>
      change (readMethod u.word u.vars heading block).method = some m at hr
      by_cases htaken : (SourceUnit.method? { u with vars := r.vars } m.name).isSome
      · refine ⟨{ u with vars := r.vars }, notes ++ r.faults ++ [⟨.duplicateMethod m.name, m.span⟩], fun faults => ?_,
          Bool.noConfusion⟩
        simp only [add, hr, insert, r, if_pos htaken, List.append_assoc]
      · refine ⟨{ u with vars := r.vars, methods := u.methods.push m }, notes ++ r.faults, fun faults => ?_,
          Bool.noConfusion⟩
        simp only [add, hr, insert, r, if_neg htaken, List.append_assoc]

theorem addAll_cons_of_mild {d : Draft} (h : Mild d.faults) (e : Entry) (es : List Entry) :
    d.addAll (e :: es) = (d.add e).addAll es := by
  rw [addAll, show d.isFatal = false from h.any_eq_false, if_neg Bool.false_ne_true]

theorem mild_of_addAll {d : Draft} (es : List Entry) (h : Mild (d.addAll es).faults) : Mild d.faults := by
  by_cases hfatal : d.isFatal
  · cases es with
    | nil => exact h
    | cons e es => rwa [addAll, if_pos hfatal] at h
  · intro x hx
    rw [isFatal, List.any_eq_true] at hfatal
    exact Bool.eq_false_iff.2 fun hx' => hfatal ⟨x, hx, hx'⟩

/-- Where no problem is fatal, every item leaves its problems behind those before it, and without the broken items
the others give the same unit and leave the same problems. -/
theorem addAll_records (es : List Entry) : ∀ {u : SourceUnit} {faults : List Diagnostic},
    Mild (addAll ⟨u, faults⟩ es).faults → ∃ records : List (List Diagnostic), records.length = es.length ∧
      (∀ k, (addAll ⟨u, faults⟩ (es.take k)).faults = faults ++ (records.take k).flatten) ∧
      ∀ faults', Mild faults' → addAll ⟨u, faults'⟩ (es.filter (!·.isBroken)) =
        ⟨(addAll ⟨u, faults⟩ es).unit, faults' ++ ((es.zip records).filter (!·.1.isBroken)).flatMap (·.2)⟩ := by
  induction es with
  | nil =>
    intro u faults _
    exact ⟨[], rfl, by simp [addAll], by simp [addAll]⟩
  | cons e es ih =>
    intro u faults hmild
    obtain ⟨u', later, hadd, hbroken⟩ := add_eq u e
    have hfaults : Mild faults := mild_of_addAll _ hmild
    rw [addAll_cons_of_mild hfaults, hadd] at hmild
    have hlater : Mild later := fun d hd => mild_of_addAll _ hmild d (List.mem_append_right faults hd)
    obtain ⟨records, hlength, hparts, hkept⟩ := ih hmild
    refine ⟨later :: records, congrArg (· + 1) hlength, ?_, ?_⟩
    · intro k
      cases k with
      | zero => simp [addAll]
      | succ k =>
        rw [List.take_succ_cons, addAll_cons_of_mild hfaults, hadd, hparts k, List.take_succ_cons, List.flatten_cons,
          List.append_assoc]
    · intro faults' hfaults'
      rw [addAll_cons_of_mild hfaults, hadd, List.zip_cons_cons]
      by_cases he : e.isBroken
      · obtain rfl := hbroken he
        rw [List.filter_cons_of_neg (by simpa using he), List.filter_cons_of_neg (by simpa using he)]
        exact hkept faults' hfaults'
      · rw [List.filter_cons_of_pos (by simpa using he), List.filter_cons_of_pos (by simpa using he),
          addAll_cons_of_mild hfaults', hadd, hkept _ (hfaults'.append hlater), List.flatMap_cons, List.append_assoc]

end Draft

theorem mild_of_category {ds : List Diagnostic} (h : ∀ d ∈ ds, d.cause.category ≠ .allocation) : Mild ds := by
  intro d hd
  have hcategory := h d hd
  obtain ⟨cause, span⟩ := d
  cases cause <;> first | rfl | exact absurd rfl hcategory

theorem SourceUnit.ofText_eq_ofTokens (w : Word) {src : String} (h : Token.scan src ≠ []) :
    ofText w src = ofTokens w (Token.finishOf src) (Token.scan src) := by
  rw [ofText, if_neg]
  intro hempty
  obtain rfl := String.isEmpty_iff.1 hempty
  exact h (by simp [Token.scan, Token.scanFrom])

theorem IsHeader.ofTokens_eq {header : List Token} (h : IsHeader header) (w : Word) :
    ∃ u : SourceUnit, ∀ finish (cs : List Chunk), SourceUnit.ofTokens w finish (header ++ cs.flatMap Chunk.text) =
      ((Draft.addAll ⟨u, []⟩ (cs.map Chunk.entry)).unit, (Draft.addAll ⟨u, []⟩ (cs.map Chunk.entry)).faults) := by
  obtain ⟨n, name, -, -, hdraft⟩ := h.draft_eq
  refine ⟨{ word := w, name, bits := n }, fun finish cs => ?_⟩
  simp only [SourceUnit.ofTokens, hdraft, Chunk.split_flatMap_text]

theorem IsHeader.ne_nil {header : List Token} (h : IsHeader header) : header ≠ [] := by
  rintro rfl
  obtain ⟨_, _, hkinds, -⟩ := h
  exact List.cons_ne_nil _ _ hkinds.symm

theorem records_of_filter (chunks : List Chunk) (records : List (List Diagnostic)) :
    ((((chunks.map Chunk.entry).zip records).filter (!·.1.isBroken)).flatMap (·.2)).map (·.cause) =
      ((chunks.zip records).filter (!·.1.fails)).flatMap (·.2.map (·.cause)) := by
  have hfails : (fun p : Entry × List Diagnostic => !p.1.isBroken) ∘ Prod.map Chunk.entry id =
      fun p => !p.1.fails := funext fun p => congrArg not p.1.entry_isBroken
  rw [List.zip_map_left, List.filter_map, hfails, List.flatMap_map, List.map_flatMap]
  rfl

/-- Items do not get into each other's way. Behind a header, every item is read from the first token of its chunk,
whatever the chunks before it are; if all variables can be packed, then deleting the chunks that cannot be read
changes nothing but their own problems. -/
theorem items_isolated (w : Word) (src : String) (header : List Token) (chunks : List Chunk) (hheader : IsHeader header)
    (hsrc : Token.scan src = header ++ chunks.flatMap Chunk.text)
    (hpacked : ∀ d ∈ (SourceUnit.ofText w src).2, d.cause.category ≠ .allocation) :
    Entry.split (Token.finishOf src) (Draft.header w (Token.finishOf src) (Token.scan src)).2 =
      chunks.map Chunk.entry ∧
    -- The problems of each chunk: those of the first `k` chunks are the first `k` of these.
    ∃ records : List (List Diagnostic), records.length = chunks.length ∧
      (∀ k, (SourceUnit.ofTokens w (Token.finishOf src) (header ++ (chunks.take k).flatMap Chunk.text)).2 =
        (records.take k).flatten) ∧
      ∀ src', (Token.scan src').map (·.kind) =
          (header ++ (chunks.filter (!·.fails)).flatMap Chunk.text).map (·.kind) →
        (SourceUnit.ofText w src').1.bare = (SourceUnit.ofText w src).1.bare ∧
        (SourceUnit.ofText w src').2.map (·.cause) =
          ((chunks.zip records).filter (!·.1.fails)).flatMap (·.2.map (·.cause)) := by
  obtain ⟨u, hread⟩ := hheader.ofTokens_eq w
  have hne : ∀ ts, header ++ ts ≠ [] := fun ts => List.append_ne_nil_of_left_ne_nil hheader.ne_nil ts
  have htext : SourceUnit.ofText w src = _ := SourceUnit.ofText_eq_ofTokens w (hsrc ▸ hne _)
  rw [hsrc, hread] at htext
  rw [htext] at hpacked
  obtain ⟨records, hlength, hparts, hkept⟩ := Draft.addAll_records _ (mild_of_category hpacked)
  refine ⟨?_, records, ?_, ?_, ?_⟩
  · obtain ⟨n, name, -, -, hdraft⟩ := hheader.draft_eq
    rw [hsrc, hdraft, Chunk.split_flatMap_text]
  · rw [hlength, List.length_map]
  · intro k
    rw [hread, List.map_take]
    exact hparts k
  · intro src' hsrc'
    have hne' : Token.scan src' ≠ [] := fun h => hne _ (List.map_eq_nil_iff.1 (hsrc'.symm.trans (congrArg _ h)))
    have hfilter : (chunks.filter (!·.fails)).map Chunk.entry = (chunks.map Chunk.entry).filter (!·.isBroken) := by
      rw [List.filter_map]
      exact congrArg (fun p => (chunks.filter p).map Chunk.entry) (funext fun c => congrArg not c.entry_isBroken.symm)
    obtain ⟨hunit, hfaults⟩ := SourceUnit.ofTokens_of_kinds w (Token.finishOf src') (Token.finishOf src) rfl hsrc'
    rw [SourceUnit.ofText_eq_ofTokens w hne', hunit, hfaults, hread, hfilter, hkept [] mild_nil, htext]
    exact ⟨rfl, records_of_filter chunks records⟩

/-- A heading that breaks off in front of its block stands before an import, and a run that is no item before a method
that reads an unknown name. -/
theorem items_isolated_of_broken :
    (SourceUnit.ofText .w64 "object 8 A;import b;8 f(8 a)\x7ba=q;\x7d").1.bare =
      (SourceUnit.ofText .w64 "object 8 A;8 x(\x7b9;\x7dimport b;)z;8 f(8 a)\x7ba=q;\x7d").1.bare := by
  have hheader : IsHeader ((Token.scan "object 8 A;8 x(\x7b9;\x7dimport b;)z;8 f(8 a)\x7ba=q;\x7d").take 4) :=
    ⟨"8", "A", by decide +kernel, by decide +kernel⟩
  obtain ⟨-, records, -, -, hdeleted⟩ := items_isolated .w64
    "object 8 A;8 x(\x7b9;\x7dimport b;)z;8 f(8 a)\x7ba=q;\x7d" _
    [.braced [⟨.number "8", 11, 1⟩, ⟨.name "x", 13, 1⟩, ⟨.mark .lparen, 14, 1⟩] ⟨.mark .lbrace, 15, 1⟩
        [⟨.number "9", 16, 1⟩, ⟨.mark .semicolon, 17, 1⟩] ⟨.mark .rbrace, 18, 1⟩ (by decide) rfl (by decide) rfl,
      .plain [⟨.keyword .imports, 19, 6⟩, ⟨.name "b", 26, 1⟩] ⟨.mark .semicolon, 27, 1⟩ (by decide) rfl,
      .plain [⟨.mark .rparen, 28, 1⟩, ⟨.name "z", 29, 1⟩] ⟨.mark .semicolon, 30, 1⟩ (by decide) rfl,
      .braced [⟨.number "8", 31, 1⟩, ⟨.name "f", 33, 1⟩, ⟨.mark .lparen, 34, 1⟩, ⟨.number "8", 35, 1⟩,
          ⟨.name "a", 37, 1⟩, ⟨.mark .rparen, 38, 1⟩] ⟨.mark .lbrace, 39, 1⟩
        [⟨.name "a", 40, 1⟩, ⟨.mark .assign, 41, 1⟩, ⟨.name "q", 42, 1⟩, ⟨.mark .semicolon, 43, 1⟩]
        ⟨.mark .rbrace, 44, 1⟩ (by decide) rfl (by decide) rfl]
    hheader (by decide +kernel) (by decide +kernel)
  exact (hdeleted _ (by decide +kernel)).1

end Drafts
end Bitpack
