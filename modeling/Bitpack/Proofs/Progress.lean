import Mathlib
import Bitpack.Proofs.Items
import Bitpack.Proofs.Tiling
import Bitpack.Proofs.Recovery

/-! A whole unit, read by a cursor. The items that the cursor takes are those into which the tokens fall, so the unit
and its problems are those of `SourceUnit.ofTokens`. Whatever is wrong with the tokens, every turn of the three loops
takes a token, so that no loop has more turns than there are tokens. -/

namespace Bitpack

theorem Cursor.Reaches.count_eq {n : ℕ} {c d : Cursor} (h : c.Reaches n d) {loop : Loop} (hn : n ≤ loop.level) :
    d.count loop = c.count loop := by
  obtain ⟨ts, hts, hrecord⟩ := h.turns
  have hnone : ts.countP (·.loop = loop) = 0 := by
    refine List.countP_eq_zero.2 fun t ht heq => ?_
    have hlevel := hrecord.level t ht
    rw [of_decide_eq_true heq] at hlevel
    omega
  rw [Cursor.count, hts, List.countP_append, hnone, Nat.add_zero, Cursor.count]

theorem Draft.addAll_of_isFatal {d : Draft} (h : d.isFatal = true) (es : List Entry) : d.addAll es = d := by
  cases es with
  | nil => rfl
  | cons e es => rw [addAll, if_pos h]

theorem Draft.mild_of_isFatal {d : Draft} (h : d.isFatal = false) : Mild d.faults := by
  intro x hx
  simpa using List.any_eq_false.1 h x hx

namespace Walk

variable {n : ℕ} {finish : Token} {p q : Parser} {ts rest : List Token}

section Loops

theorem run_items_turn (h : p.before [] = true ∧ p.fatal = false) :
    items.run p = items.run (((orRecover item).run p).2.record .items p.pos) := by
  rw [run, items, dif_pos h]
  rfl

theorem run_items_over (h : ¬ (p.before [] = true ∧ p.fatal = false)) : items.run p = (some (), p) := by
  rw [run, items, dif_neg h]
  rfl

theorem run_statements_turn (h : p.before [.mark .rbrace] = true) : statements.run p = statements.run
    ((synchronize [.mark .semicolon] [.mark .rbrace] statement statement_takes p h).1.2.record .statements p.pos) := by
  rw [run, statements, dif_pos h]
  rfl

variable {α : Type} {conts stops : List Kind} {x : Walk 0 α} (hx : ∀ p, (x p).Takes) (hp : p.before stops = true)

theorem val_synchronize_again (h : (attempt conts stops x p).1.1 = some none) : (synchronize conts stops x hx p hp).1 =
    (synchronize conts stops x hx ((attempt conts stops x p).1.2.record .attempts p.pos) (before_of_attempt h)).1 := by
  rw [synchronize]
  dsimp only
  rw [Result.val_since]
  split
  · rename_i hread
    cases h.symm.trans hread
  · rfl
  · rename_i hread
    cases h.symm.trans hread

theorem val_synchronize_done {o : Option α} (h : (attempt conts stops x p).1.1 = o.map some) :
    (synchronize conts stops x hx p hp).1 = (o, (attempt conts stops x p).1.2.record .attempts p.pos) := by
  rw [synchronize]
  dsimp only
  rw [Result.val_since]
  split
  · rename_i hread
    obtain ⟨a, rfl, ⟨⟩⟩ := Option.map_eq_some_iff.1 (h.symm.trans hread)
    rfl
  · rename_i hread
    obtain ⟨a, -, ⟨⟩⟩ := Option.map_eq_some_iff.1 (h.symm.trans hread)
  · rename_i hread
    rw [Option.map_eq_none_iff.1 (h.symm.trans hread)]
    rfl

end Loops

section Items

/-- From `p` the parser took up all these items and got to `q`, at the end of the text unless one of them is fatal. -/
structure AddsAll (finish : Token) (p : Parser) (es : List Entry) (q : Parser) : Prop where
  draft : q.draft = p.draft.addAll es
  outcome : q.fatal = true ∧ q.draft.isFatal = true ∨ q.fatal = false ∧ q.draft.isFatal = false ∧ q.Faces finish [] ∧
    q.count .items = p.count .items + es.length ∧
      q.count .attempts = p.count .attempts + (es.flatMap Entry.clauses).length

theorem items_addsAll (hp : p.Faces finish ts) (hfatal : p.fatal = false) (hmild : Mild p.faults) :
    AddsAll finish p (Entry.split finish ts) (items.run p).2 := by
  induction hlen : ts.length using Nat.strong_induction_on generalizing ts p with
  | _ len ih =>
  have hdraft : p.draft.isFatal = false := hmild.any_eq_false
  cases ts with
  | nil =>
    have hover : ¬ (p.before [] = true ∧ p.fatal = false) := by
      simp [Cursor.before, hp.next, hp.last]
    rw [run_items_over hover, Entry.split]
    exact ⟨rfl, .inr ⟨hfatal, hdraft, hp, rfl, rfl⟩⟩
  | cons t ts =>
    have hnext : p.next.kind ≠ .finish := by
      rw [hp.next]
      exact hp.inner t List.mem_cons_self
    obtain ⟨e, rest, hadds⟩ := item_adds hp (List.cons_ne_nil t ts) hfatal hmild
    have hlt := pos_lt_orRecover (item_takes p) hnext
    rw [run_items_turn ⟨by simp [Cursor.before, hnext], hfatal⟩, hadds.split]
    obtain ⟨q, hq⟩ : ∃ q, ((orRecover item).run p).2 = q := ⟨_, rfl⟩
    rw [hq]
    rw [hq] at hadds hlt
    have hreaches : p.Reaches 2 q.toCursor := hq ▸ (orRecover item p).2
    rcases hadds.outcome with ⟨hqf, hqd⟩ | ⟨hqf, hqd, hfaces, hattempts⟩
    · rw [run_items_over (by simp [hqf])]
      refine ⟨?_, .inl ⟨hqf, hqd⟩⟩
      rw [Draft.addAll_cons_of_mild hmild, ← hadds.draft, Draft.addAll_of_isFatal hqd]
      rfl
    · have hlength : rest.length < (t :: ts).length := by
        have hpos := hp.pos
        have hpos' := hfaces.pos
        rw [hreaches.tokens] at hpos'
        omega
      have hrest := ih rest.length (hlen ▸ hlength) (p := q.record .items p.pos) hfaces hqf
        (Draft.mild_of_isFatal hqd) rfl
      refine ⟨?_, hrest.outcome.imp_right fun hout => ?_⟩
      · rw [hrest.draft, Draft.addAll_cons_of_mild hmild, ← hadds.draft]
        rfl
      · obtain ⟨hf, hd, hend, hitems, htries⟩ := hout
        refine ⟨hf, hd, hend, ?_, ?_⟩
        · rw [hitems, Cursor.count_record_self, hreaches.count_eq (by decide), List.length_cons]
          omega
        · rw [htries, Cursor.count_record_ne _ (by decide), hattempts, List.flatMap_cons, List.length_append]
          omega

end Items

section Header

theorem run_unit_other (h : p.next.kind ≠ .keyword .object) :
    unit.run p = items.run (p.report ⟨.missingHeader, p.next.span⟩) := by
  rw [run, unit, if_neg h]
  rfl

theorem run_unit_object (h : p.next.kind = .keyword .object)
    (hrun : (orRecover header : Walk 3 _).run p.advance = (some (), q)) : unit.run p = items.run q := by
  rw [run, unit, if_pos h, Result.val_since]
  obtain ⟨hq, hthen⟩ := Result.val_andThen_some hrun
  rw [hthen]
  rfl

theorem run_header_some {bits : ℕ} {name : String} (h : (objectHeader : Walk n _).run p = (some (bits, name), q)) :
    (header : Walk n _).run p = (some (), { q with unit := { q.unit with name, bits } }) := by
  rw [run, header]
  obtain ⟨hq, hthen⟩ := Result.val_andThen_some h
  rw [hthen]
  rfl

theorem run_header_none (h : (objectHeader : Walk n _).run p = (none, q)) : (header : Walk n _).run p = (none, q) := by
  rw [run, header, Result.val_andThen_none h]

/-- The parser has read the header of a unit, and is in front of its items. -/
structure Begins (finish : Token) (d : Draft × List Token) (turns : List Turn) (q : Parser) : Prop where
  draft : q.draft = d.1
  faces : q.Faces finish d.2
  fatal : q.fatal = false
  mild : Mild q.faults
  turns : q.turns = turns

theorem header_begins {w : Word} {s : Span} (hp : p.Faces finish ts) (hdraft : p.draft = ⟨{ word := w }, []⟩)
    (hfatal : p.fatal = false) : ∃ q, (orRecover header : Walk 3 _).run p = (some (), q) ∧
      Begins finish (Draft.header w finish (⟨.keyword .object, s⟩ :: ts)) p.turns q := by
  obtain ⟨c, rest, after, hh⟩ := exists_heads hp
  have hunit : p.unit = { word := w } := congrArg Draft.unit hdraft
  have hfaults : p.faults = [] := congrArg Draft.faults hdraft
  have hends := objectHeader_ends (n := 3) .item p c after hh.ahead
  rw [hh.facing] at hends
  simp only [Draft.header, hh.head]
  generalize hread : Read.objectHeader c = r at hends
  generalize hrun : (objectHeader : Walk 3 _).run p = o at hends
  cases hends with
  | @ok y hstop =>
    obtain ⟨⟨bits, name⟩, c'⟩ := y
    obtain ⟨-, -, -, -, -, -, hsemicolon⟩ := Read.objectHeader_ok.1 hread
    rw [hh.behind (by simp [← hstop, hsemicolon])] at hrun
    refine ⟨_, run_orRecover_some (run_header_some hrun), ?_, hh.rest, hfatal, ?_, rfl⟩
    · rw [Parser.draft]
      simp [Parser.facing, hunit, hfaults]
    · exact show Mild p.faults from hfaults ▸ mild_nil
  | @error d ts' hsuffix =>
    have hahead : Ahead .item (p.report d).tokens ⟨ts', c.stop⟩ after := hh.ahead.of_suffix hsuffix
    refine ⟨_, (run_orRecover_none (run_header_none hrun)).trans (run_recover_item hahead hh.past hh.rest), ?_,
      hh.rest.of_suffix (c.skip_suffix rest), hfatal, ?_, rfl⟩
    · rw [Parser.draft]
      simp [Parser.facing, hunit, hfaults]
    · simp [Parser.facing, hfaults, Mild, Read.objectHeader_mild hread]

theorem unit_begins {w : Word} (hp : p.Faces finish ts) (hdraft : p.draft = ⟨{ word := w }, []⟩)
    (hfatal : p.fatal = false) :
    ∃ q, unit.run p = items.run q ∧ Begins finish (Draft.header w finish ts) p.turns q := by
  by_cases hobject : p.next.kind = .keyword .object
  · obtain ⟨t, rest, rfl⟩ : ∃ t rest, ts = t :: rest := by
      refine List.exists_cons_of_ne_nil ?_
      rintro rfl
      simp [hp.next, hp.last] at hobject
    obtain ⟨k, s⟩ := t
    obtain rfl : k = .keyword .object := by simpa [hp.next] using hobject
    obtain ⟨q, hrun, hbegins⟩ := header_begins hp.advance hdraft hfatal
    refine ⟨q, run_unit_object hobject hrun, ?_⟩
    rwa [hp.advance_eq] at hbegins
  · have hheader : Draft.header w finish ts = (⟨{ word := w }, [⟨.missingHeader, p.next.span⟩]⟩, ts) := by
      rw [hp.next] at hobject ⊢
      unfold Draft.header
      split
      · exact absurd rfl hobject
      · rfl
    have hunit : p.unit = { word := w } := congrArg Draft.unit hdraft
    have hfaults : p.faults = [] := congrArg Draft.faults hdraft
    rw [hheader]
    refine ⟨_, run_unit_other hobject, ?_, hp, hfatal, ?_, rfl⟩
    · simp [Parser.draft, hunit, hfaults]
    · simp [hfaults, Mild, Diagnostic.isFatal, Cause.isFatal, Cause.category, Category.isFatal]

end Header
end Walk

section Refinement

variable {finish : Token} {ts : List Token} (hfinish : finish.kind = .finish) (hts : ∀ t ∈ ts, t.kind ≠ .finish)
include hfinish hts

theorem Parser.start_faces (w : Word) (length : ℕ) : (Parser.start w length (ts ++ [finish])).Faces finish ts where
  suffix := List.suffix_refl _
  pos := by simp [Parser.start]
  inner := hts
  last := hfinish

/-- The cursor reads a unit as the items into which its tokens fall. -/
theorem Parser.read_addsAll (w : Word) (length : ℕ) : ∃ p : Parser, p.draft = (Draft.header w finish ts).1 ∧
    p.turns = [] ∧ Walk.AddsAll finish p (Entry.split finish (Draft.header w finish ts).2)
      (Parser.read w length (ts ++ [finish])) := by
  obtain ⟨p, hrun, hbegins⟩ := Walk.unit_begins (Parser.start_faces hfinish hts w length) rfl rfl
  refine ⟨p, hbegins.draft, hbegins.turns, ?_⟩
  rw [Parser.read, hrun]
  exact Walk.items_addsAll hbegins.faces hbegins.fatal hbegins.mild

theorem Parser.read_eq_ofTokens (w : Word) (length : ℕ) : SourceUnit.ofTokens w finish ts =
    ((Parser.read w length (ts ++ [finish])).unit, (Parser.read w length (ts ++ [finish])).faults) := by
  obtain ⟨p, hdraft, -, hadds⟩ := Parser.read_addsAll hfinish hts w length
  have hread := hadds.draft
  rw [hdraft] at hread
  exact congrArg (fun d : Draft => (d.unit, d.faults)) hread.symm

end Refinement

theorem Token.scan_kind_ne (src : String) : ∀ t ∈ Token.scan src, t.kind ≠ .finish := by
  have htiling : Token.Tiling 0 src.toList (Token.scan src ++ [Token.finishOf src]) :=
    Token.tiling_scanFrom 0 _ src.toList (Nat.zero_add _).symm
  obtain ⟨front, hfront, hne⟩ := htiling.last
  rwa [(List.append_inj' hfront rfl).1]

/-- The unit that a text describes is the one that the cursor reads from its tokens. -/
theorem Parser.read_eq_ofText (w : Word) {src : String} (h : src.isEmpty = false) (length : ℕ) :
    SourceUnit.ofText w src = ((Parser.read w length (Token.scan src ++ [Token.finishOf src])).unit,
      (Parser.read w length (Token.scan src ++ [Token.finishOf src])).faults) := by
  rw [SourceUnit.ofText, if_neg (by simp [h])]
  exact Parser.read_eq_ofTokens rfl (Token.scan_kind_ne src) w length

section Progress

variable {n : ℕ} {c d : Cursor}

theorem Cursor.Reaches.pos_le (h : c.Reaches n d) {i : ℕ} (hi : c.pos ≤ i) (hfinish : (c.tokenAt i).kind = .finish) :
    d.pos ≤ i :=
  Nat.le_of_not_lt fun hlt => h.passed i hi hlt hfinish

theorem Turns.count_le {loop : Loop} {lo hi : ℕ} (h : Turns lo (c.turns.filter (·.loop = loop)) hi) :
    c.count loop ≤ hi := by
  rw [Cursor.count, List.countP_eq_length_filter]
  exact (Nat.le_add_left _ lo).trans h.length_le

theorem Parser.read_record (w : Word) (length : ℕ) (tokens : List Token) :
    Record 3 0 (Parser.read w length tokens).turns (Parser.read w length tokens).pos := by
  obtain ⟨ts, hts, hrecord⟩ := (Walk.unit (Parser.start w length tokens)).2.turns
  have hturns : (Parser.read w length tokens).turns = ts := hts
  rwa [hturns]

open Walk

/-- However malformed the tokens are, reading goes forward and stops at the end of the text at the latest. Each turn of
the item loop, of the statement loop and of the loop of attempts takes a token, whether or not it succeeds, so none of
them has more turns than there are tokens in front of the end. What is read is what `SourceUnit.ofTokens` gives. -/
theorem reading_progresses (w : Word) (length : ℕ) (ts : List Token) (span : Span) :
    let c := Parser.read w length (ts ++ [⟨.finish, span⟩])
    let conts := [Kind.mark .semicolon]
    let stops := [Kind.mark .rbrace]
    let entries := Entry.split ⟨.finish, span⟩ (Draft.header w ⟨.finish, span⟩ ts).2
    (∀ (n : ℕ) (α : Type) (x : Walk n α) (p : Parser), p.pos ≤ (x.run p).2.pos ∧
      ∀ i, p.pos ≤ i → (p.tokenAt i).kind = .finish → (x.run p).2.pos ≤ i) ∧
    (∀ p : Parser, p.before [] → p.fatal = false →
      let q := ((orRecover item).run p).2
      p.pos < q.pos ∧ items.run p = items.run (q.record .items p.pos)) ∧
    (∀ (p : Parser) (hp : p.before stops),
      let q := (synchronize conts stops statement statement_takes p hp).1.2
      p.pos < q.pos ∧ statements.run p = statements.run (q.record .statements p.pos)) ∧
    (∀ (p : Parser) (hp : p.before stops),
      let r := (attempt conts stops (statement : Walk 0 _) p).1
      let q := r.2.record .attempts p.pos
      p.pos < q.pos ∧
        (∀ h : r.1 = some none, (synchronize conts stops statement statement_takes p hp).1 =
          (synchronize conts stops statement statement_takes q (before_of_attempt h)).1) ∧
        ∀ o, r.1 = o.map some → (synchronize conts stops statement statement_takes p hp).1 = (o, q)) ∧
    c.pos ≤ ts.length ∧
    (∀ loop, Turns 0 (c.turns.filter (·.loop = loop)) c.pos ∧ c.count loop ≤ ts.length) ∧
    (∀ t ∈ c.turns, t.loop ≠ .items →
      ∃ u ∈ c.turns, u.loop.level = t.loop.level + 1 ∧ u.start ≤ t.start ∧ t.stop ≤ u.stop) ∧
    ((∀ t ∈ ts, t.kind ≠ .finish) → SourceUnit.ofTokens w ⟨.finish, span⟩ ts = (c.unit, c.faults) ∧
      (Mild c.faults → c.pos = ts.length ∧ c.count .items = entries.length ∧
        c.count .attempts = (entries.flatMap Entry.clauses).length)) ∧
    ∀ src : String, src.isEmpty = false → let c := Parser.read w length (Token.scan src ++ [Token.finishOf src])
      SourceUnit.ofText w src = (c.unit, c.faults) := by
  intro c conts stops entries
  have hreaches : (Parser.start w length (ts ++ [⟨.finish, span⟩])).Reaches 3 c.toCursor :=
    (Walk.unit (Parser.start w length (ts ++ [⟨.finish, span⟩]))).2
  have hpos : c.pos ≤ ts.length := hreaches.pos_le (Nat.zero_le _) (by simp [Parser.start, Cursor.tokenAt])
  have hrecord : Record 3 0 c.turns c.pos := Parser.read_record w length _
  refine ⟨fun n α x p => ⟨(x p).2.le, fun i => (x p).2.pos_le⟩, fun p hp hfatal => ?_, fun p hp => ?_,
    fun p hp => ?_, hpos, fun loop => ⟨hrecord.turns loop, (hrecord.turns loop).count_le.trans hpos⟩,
    fun t ht hloop => ?_, fun hts => ?_, fun src hsrc => Parser.read_eq_ofText w hsrc length⟩
  · exact ⟨pos_lt_orRecover (item_takes p) (Cursor.kind_ne_of_before hp), run_items_turn ⟨hp, hfatal⟩⟩
  · exact ⟨pos_lt_synchronize statement_takes hp, run_statements_turn hp⟩
  · exact ⟨pos_lt_attempt conts (statement_takes p) hp, fun h => val_synchronize_again statement_takes hp h,
      fun o h => val_synchronize_done statement_takes hp h⟩
  · refine hrecord.inside t ht ?_
    cases hlevel : t.loop with
    | attempts => decide
    | statements => decide
    | items => exact absurd hlevel hloop
  · refine ⟨Parser.read_eq_ofTokens rfl hts w length, fun hmild => ?_⟩
    have hfinish : (⟨.finish, span⟩ : Token).kind = .finish := rfl
    obtain ⟨p, -, hturns, hadds⟩ := Parser.read_addsAll hfinish hts w length
    rcases hadds.outcome with ⟨-, hfatal⟩ | ⟨-, -, hfaces, hitems, hattempts⟩
    · exact absurd (hmild.any_eq_false.symm.trans hfatal) Bool.false_ne_true
    · have hend := hfaces.pos
      rw [hreaches.tokens] at hend
      simp only [Cursor.count, hturns, List.countP_nil, Nat.zero_add] at hitems hattempts
      refine ⟨?_, hitems, hattempts⟩
      simpa [Parser.start] using hend

/-- `;` and `}` are items, as are `x{;}` and what is open at the end; the first statement takes three attempts. -/
example :
    let src := "object 8 A;;\x7d8 f(8 a)\x7b)a;(;a=1;*\x7d\x7dx\x7b;\x7d8 g("
    let c := Parser.read .w64 src.utf8ByteSize (Token.scan src ++ [Token.finishOf src])
    (c.count .items, c.count .statements, c.count .attempts, c.pos) = (6, 2, 4, 32) := by
  decide +kernel

end Progress
end Bitpack
