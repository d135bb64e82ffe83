import Mathlib
import Bitpack.Proofs.Language
import Bitpack.Proofs.Tiling

/-! Where the items of a unit stand. A property of places that holds of the tokens of a text and of what joins two
places holds of every place that is noted in reading its items: of their names and of the problems found in them, none
of which is fatal. -/

namespace Bitpack

/-- A property of places that passes to the place around two. -/
def Span.JoinClosed (P : Span → Prop) : Prop :=
  ∀ a b : Span, P a → P b → P (a.join b)

variable {P : Span → Prop}

section Tokens

/-- Tokens whose places have a property, each after those before it. -/
structure Token.Located (P : Span → Prop) (ts : List Token) : Prop where
  span : ∀ t ∈ ts, P t.span
  ordered : ts.Pairwise fun t t' => t.span.hi ≤ t'.span.lo

theorem Token.Located.sublist {ts ts' : List Token} (h : Located P ts) (hts : List.Sublist ts' ts) : Located P ts' :=
  ⟨fun t ht => h.span t (hts.subset ht), h.ordered.sublist hts⟩

theorem Token.scan_located {src : String} (h : ∀ t ∈ Token.scan src ++ [Token.finishOf src], P t.span) :
    Located P (Token.scan src ++ [Token.finishOf src]) :=
  ⟨h, (tiling_scanFrom 0 _ src.toList (Nat.zero_add _).symm).ordered.imp And.right⟩

theorem Token.Located.hi_le_getLast {ts : List Token} (h : Located P ts) {t : Token} (ht : t ∈ ts) :
    t.span.hi ≤ (ts.getLast (List.ne_nil_of_mem ht)).span.hi := by
  have hsplit := List.dropLast_append_getLast (List.ne_nil_of_mem ht)
  have hordered := h.ordered
  rw [← hsplit] at ht hordered
  rcases List.mem_append.1 ht with ht | ht
  · have hbefore := (List.pairwise_append.1 hordered).2.2 t ht _ (List.mem_singleton_self _)
    exact hbefore.trans (Nat.le_add_right _ _)
  · exact le_of_eq (congrArg (·.span.hi) (List.mem_singleton.1 ht))

def Clause.Located (P : Span → Prop) (c : Clause) : Prop :=
  Token.Located P (c.tokens ++ [c.stop])

namespace Clause.Located

variable {c : Clause} {t : Token} {ts rest : List Token} {stop : Token}

theorem stop_span (h : c.Located P) : P c.stop.span :=
  h.span c.stop (by simp)

theorem head_span (h : Clause.Located P ⟨t :: ts, stop⟩) : P t.span :=
  h.span t List.mem_cons_self

theorem next_span (h : c.Located P) : P c.next.span := by
  obtain ⟨tokens, stop⟩ := c
  cases tokens with
  | nil => exact h.stop_span
  | cons t ts => exact h.head_span

theorem suffix (h : Clause.Located P ⟨ts, stop⟩) (hrest : rest <:+ ts) : Clause.Located P ⟨rest, stop⟩ :=
  Token.Located.sublist h (hrest.sublist.append_right [stop])

theorem tail (h : Clause.Located P ⟨t :: ts, stop⟩) : Clause.Located P ⟨ts, stop⟩ :=
  h.suffix (List.suffix_cons t ts)

end Clause.Located

theorem Clause.cut_prefix (stops : Kind → Bool) (finish : Token) (ts : List Token) :
    (cut stops finish ts).1.tokens ++ [(cut stops finish ts).1.stop] <+: ts ++ [finish] := by
  induction ts with
  | nil => exact List.prefix_refl _
  | cons t ts ih =>
    rw [cut]
    split_ifs
    · exact List.cons_prefix_cons.2 ⟨rfl, List.nil_prefix⟩
    · exact List.cons_prefix_cons.2 ⟨rfl, ih⟩

theorem Clause.cut_suffix (stops : Kind → Bool) (finish : Token) (ts : List Token) :
    (cut stops finish ts).2 <:+ ts := by
  induction ts with
  | nil => exact List.suffix_refl _
  | cons t ts ih =>
    rw [cut]
    split_ifs
    · exact List.suffix_cons t ts
    · exact ih.trans (List.suffix_cons t ts)

theorem skipBlock_suffix (ts : List Token) : ∀ depth, skipBlock depth ts <:+ ts := by
  induction ts with
  | nil => exact fun _ => List.suffix_refl _
  | cons t ts ih =>
    intro depth
    have htail := List.suffix_cons t ts
    simp only [skipBlock]
    split
    · exact (ih _).trans htail
    · split
      · exact htail
      · exact (ih _).trans htail
    · exact (ih _).trans htail

theorem Clause.skip_suffix (c : Clause) (rest : List Token) : c.skip rest <:+ rest := by
  unfold Clause.skip
  split_ifs
  · exact skipBlock_suffix rest 0
  · exact List.suffix_refl _

theorem Block.split_suffix (finish : Token) (ts : List Token) : (Block.split finish ts).2 <:+ ts := by
  induction ts with
  | nil => exact List.suffix_refl _
  | cons t ts ih =>
    rw [Block.split]
    split_ifs
    · exact List.suffix_cons t ts
    · exact ih.trans (List.suffix_cons t ts)
    · exact ih.trans (List.suffix_cons t ts)

theorem readTags_suffix {stop : Token} {access access' : Access} {ts rest : List Token}
    (h : (readTags stop access ts).2 = .ok (access', rest)) : rest <:+ ts := by
  fun_induction readTags stop access ts with
  | case1 _ _ _ _ _ _ _ ih => exact (ih h).trans ((List.suffix_cons _ _).trans (List.suffix_cons _ _))
  | case2 _ _ _ _ _ _ _ _ heq ih =>
    rw [heq] at ih
    exact (ih h).trans ((List.suffix_cons _ _).trans (List.suffix_cons _ _))
  | case3 => cases h
  | case4 =>
    cases h
    exact List.suffix_refl _

/-- Statements whose tokens are in place, and the end of the body with them. -/
structure Block.Located (P : Span → Prop) (b : Block) : Prop where
  clauses : ∀ c ∈ b.clauses, c.Located P
  close : P b.close.span

theorem Block.split_sublist (finish : Token) (ts : List Token) :
    (∀ c ∈ (Block.split finish ts).1.clauses, List.Sublist (c.tokens ++ [c.stop]) (ts ++ [finish])) ∧
      (Block.split finish ts).1.close ∈ ts ++ [finish] := by
  induction ts with
  | nil => exact ⟨List.forall_mem_nil _, List.mem_singleton_self _⟩
  | cons t ts ih =>
    obtain ⟨hclauses, hclose⟩ := ih
    rw [Block.split]
    split_ifs
    · exact ⟨List.forall_mem_nil _, List.mem_cons_self⟩
    · refine ⟨List.forall_mem_cons.2 ⟨?_, fun c hc => (hclauses c hc).cons t⟩, List.mem_cons_of_mem t hclose⟩
      exact List.singleton_sublist.2 List.mem_cons_self
    · simp only [Block.cons]
      split
      · refine ⟨List.forall_mem_singleton.2 ?_, List.mem_cons_of_mem t hclose⟩
        exact (List.singleton_sublist.2 hclose).cons_cons t
      · rename_i c cs hcs
        rw [hcs] at hclauses
        obtain ⟨hc, hcs⟩ := List.forall_mem_cons.1 hclauses
        exact ⟨List.forall_mem_cons.2 ⟨hc.cons_cons t, fun c hc => (hcs c hc).cons t⟩, List.mem_cons_of_mem t hclose⟩

theorem Block.split_located {finish : Token} {ts : List Token} (h : Clause.Located P ⟨ts, finish⟩) :
    (Block.split finish ts).1.Located P := by
  obtain ⟨hclauses, hclose⟩ := Block.split_sublist finish ts
  exact ⟨fun c hc => h.sublist (hclauses c hc), h.span _ hclose⟩

end Tokens

/-- A problem that is not fatal, at a place with a property. -/
structure Diagnostic.Minor (P : Span → Prop) (d : Diagnostic) : Prop where
  isFatal : d.isFatal = false
  span : P d.span

theorem Token.unexpected_minor {t : Token} (h : P t.span) (expected : String) : (t.unexpected expected).Minor P := by
  unfold Token.unexpected
  split <;> exact ⟨rfl, h⟩

section Headings

variable {α β : Type} {R : α → Prop} {S : β → Prop}

/-- A failure is a minor problem; what is found has a property, and what is left is in place. -/
def Read.Lands (P : Span → Prop) (R : α → Prop) : Except Diagnostic (α × Clause) → Prop
  | .error d => d.Minor P
  | .ok (a, c) => R a ∧ c.Located P

def Read.Locates (P : Span → Prop) (R : α → Prop) (x : Read α) : Prop :=
  ∀ c : Clause, c.Located P → Lands P R (x c)

/-- A heading whose names are in place. -/
structure Heading.Located (P : Span → Prop) (h : Heading) : Prop where
  result : P h.result.span
  params : ∀ d ∈ h.params, P d.span

namespace Read

theorem Lands.bind {r : Except Diagnostic (α × Clause)} {f : α × Clause → Except Diagnostic (β × Clause)}
    (h : Lands P R r) (hf : ∀ {a c}, R a → c.Located P → Lands P S (f (a, c))) : Lands P S (r >>= f) := by
  cases r with
  | error d => exact h
  | ok p => exact hf h.1 h.2

theorem Locates.bind {x : Read α} {f : α → Read β} (hx : x.Locates P R) (hf : ∀ a, R a → (f a).Locates P S) :
    (x >>= f).Locates P S :=
  fun c hc => (hx c hc).bind fun ha hc' => hf _ ha _ hc'

theorem locates_pure {a : α} (ha : R a) : (pure a : Read α).Locates P R :=
  fun _ hc => ⟨ha, hc⟩

variable {x : Read α} {c c' : Clause} {a : α} {d : Diagnostic}

theorem Locates.error (hx : x.Locates P R) (hc : c.Located P) (h : x c = .error d) : d.Minor P := by
  have hd := hx c hc
  rwa [h] at hd

theorem Locates.ok (hx : x.Locates P R) (hc : c.Located P) (h : x c = .ok (a, c')) : R a ∧ c'.Located P := by
  have ha := hx c hc
  rwa [h] at ha

theorem locates_number (expected : String) : (number expected).Locates P fun _ => True := by
  rintro ⟨tokens, stop⟩ hc
  unfold number
  split
  · rename_i text span rest htokens
    obtain rfl : tokens = _ := htokens
    split
    · exact ⟨trivial, hc.tail⟩
    · exact ⟨rfl, hc.head_span⟩
  · exact Token.unexpected_minor hc.next_span _

theorem locates_name : name.Locates P fun x => P x.2 := by
  rintro ⟨tokens, stop⟩ hc
  unfold name
  split
  · rename_i text span rest htokens
    obtain rfl : tokens = _ := htokens
    exact ⟨hc.head_span, hc.tail⟩
  · exact Token.unexpected_minor hc.next_span _

theorem locates_mark (m : Mark) : (mark m).Locates P fun _ => True := by
  rintro ⟨tokens, stop⟩ hc
  unfold mark
  simp only
  split
  · split_ifs
    · exact ⟨trivial, hc.tail⟩
    · exact Token.unexpected_minor hc.next_span _
  · exact Token.unexpected_minor hc.next_span _

theorem locates_stop (kinds : List Kind) (expected : String) : (stop kinds expected).Locates P fun _ => True := by
  intro c hc
  unfold stop
  split_ifs
  · exact ⟨trivial, hc⟩
  · exact Token.unexpected_minor hc.next_span _

theorem locates_declarator (hP : Span.JoinClosed P) : declarator.Locates P fun d => P d.span := by
  intro c hc
  refine (locates_number _ c hc).bind fun _ hc₁ => (locates_name _ hc₁).bind ?_
  rintro _ ⟨tokens, stop⟩ hname hc₂
  simp only
  split
  · exact ⟨hP _ _ hc.next_span hc₂.head_span, hc₂.tail⟩
  · exact ⟨hP _ _ hc.next_span hname, hc₂⟩

/-- A declarator begins before all that follows it. -/
theorem declarator_lo_le {d : Declarator} (hc : c.Located P) (h : declarator c = .ok (d, c')) :
    ∀ t ∈ c'.tokens, d.span.lo ≤ t.span.lo := by
  have hlo : d.span.lo ≤ c.next.span.lo := by
    obtain ⟨_, -, h⟩ := except_bind_ok.1 h
    obtain ⟨_, -, h⟩ := except_bind_ok.1 h
    simp only at h
    split at h <;> cases h <;> exact min_le_left _ _
  obtain ⟨g, front, rfl, hkinds, -⟩ := declarator_sound h
  obtain ⟨t, front, rfl⟩ : ∃ t ts, front = t :: ts := List.exists_cons_of_ne_nil (by
    rintro rfl
    simp [Grammar.Decl.kinds] at hkinds)
  intro t' ht'
  have hbefore : t.span.hi ≤ t'.span.lo := (List.pairwise_cons.1 hc.ordered).1 t' (by simp [ht'])
  exact hlo.trans ((Nat.le_add_right _ _).trans hbefore)

theorem locates_ellipsis : ellipsis.Locates P fun _ => True :=
  (locates_mark _).bind fun _ _ => (locates_mark _).bind fun _ _ => locates_mark _

theorem locates_parameters (hP : Span.JoinClosed P) : Locates P (fun ps => ∀ d ∈ ps.1, P d.span) parameters := by
  intro c hc
  fun_induction parameters c with
  | case1 c hdot => exact (locates_ellipsis c hc).bind fun _ hc' => ⟨List.forall_mem_nil _, hc'⟩
  | case2 c hdot d hd => exact (locates_declarator hP).error hc hd
  | case3 c hdot d c' hd span rest hcomma _ ih =>
    obtain ⟨hspan, hc'⟩ := (locates_declarator hP).ok hc hd
    obtain ⟨tokens, stop⟩ := c'
    obtain rfl : tokens = _ := hcomma
    exact (ih hc'.tail).bind fun hds hc'' => ⟨List.forall_mem_cons.2 ⟨hspan, hds⟩, hc''⟩
  | case4 c hdot d c' hd =>
    obtain ⟨hspan, hc'⟩ := (locates_declarator hP).ok hc hd
    exact ⟨List.forall_mem_singleton.2 hspan, hc'⟩

theorem locates_heading (hP : Span.JoinClosed P) (access : Access) :
    (heading access).Locates P (Heading.Located P) := by
  have hend : ∀ {result params variadic}, P result.span → (∀ d ∈ params, P d.span) →
      Locates P (Heading.Located P) (do
        mark .rparen
        stop [.mark .semicolon, .mark .lbrace] "';' or '\x7b'"
        return (⟨access, result, params, variadic⟩ : Heading)) := fun hresult hparams =>
    (locates_mark _).bind fun _ _ => (locates_stop _ _).bind fun _ _ => locates_pure ⟨hresult, hparams⟩
  refine (locates_declarator hP).bind fun result hresult => (locates_mark _).bind fun _ _ => ?_
  have hget : (get : Read Clause).Locates P fun _ => True := fun _ hc => ⟨trivial, hc⟩
  refine hget.bind fun c _ => ?_
  dsimp only
  split_ifs
  · exact (locates_pure (List.forall_mem_nil _)).bind fun ps hps => hend hresult hps
  · exact (locates_parameters hP).bind fun ps hps => hend hresult hps

theorem locates_importName : importName.Locates P fun x => P x.2 :=
  locates_name.bind fun _ hx => (locates_stop _ _).bind fun _ _ => locates_pure hx

theorem locates_objectHeader : objectHeader.Locates P fun _ => True :=
  (locates_number _).bind fun _ _ => locates_name.bind fun _ _ => (locates_stop _ _).bind fun _ _ =>
    locates_pure trivial

end Read
end Headings

section Entries

/-- An item whose names are in place, and its problems. -/
def Entry.Located (P : Span → Prop) : Entry → Prop
  | .imported _ span => P span
  | .method notes h block => (∀ d ∈ notes, d.Minor P) ∧ h.Located P ∧ ∀ b ∈ block, b.Located P
  | .broken faults => ∀ d ∈ faults, d.Minor P

theorem readTags_minor {stop : Token} (access : Access) {ts : List Token} (h : Clause.Located P ⟨ts, stop⟩) :
    (∀ d ∈ (readTags stop access ts).1, d.Minor P) ∧ ∀ d, (readTags stop access ts).2 = .error d → d.Minor P := by
  fun_induction readTags stop access ts with
  | case1 _ _ _ _ _ _ _ ih => exact ih h.tail.tail
  | case2 _ _ _ _ _ _ _ _ heq ih =>
    rw [heq] at ih
    obtain ⟨hnotes, herror⟩ := ih h.tail.tail
    exact ⟨List.forall_mem_cons.2 ⟨⟨rfl, h.tail.head_span⟩, hnotes⟩, herror⟩
  | case3 =>
    refine ⟨List.forall_mem_nil _, ?_⟩
    rintro d ⟨⟩
    exact Token.unexpected_minor h.tail.next_span _
  | case4 =>
    refine ⟨List.forall_mem_nil _, ?_⟩
    rintro d ⟨⟩

namespace Entry

theorem ofClause_located (hP : Span.JoinClosed P) {c : Clause} (hc : c.Located P) : (ofClause c).Located P := by
  obtain ⟨tokens, stop⟩ := c
  unfold ofClause
  split
  · rename_i span rest htokens
    obtain rfl : tokens = _ := htokens
    split
    · rename_i name span c' hname
      exact (Read.locates_importName.ok hc.tail hname).1
    · rename_i d hd
      exact List.forall_mem_singleton.2 (Read.locates_importName.error hc.tail hd)
  · obtain ⟨hnotes, herror⟩ := readTags_minor .internal hc
    simp only
    split
    · rename_i d hd
      exact List.forall_mem_append.2 ⟨hnotes, List.forall_mem_singleton.2 (herror d hd)⟩
    · rename_i access rest hrest
      have hrest := hc.suffix (readTags_suffix hrest)
      split
      · rename_i h c' hh
        exact ⟨hnotes, ((Read.locates_heading hP access).ok hrest hh).1, by simp⟩
      · rename_i d hd
        exact List.forall_mem_append.2
          ⟨hnotes, List.forall_mem_singleton.2 ((Read.locates_heading hP access).error hrest hd)⟩

theorem head_suffix (finish : Token) (ts : List Token) : (head finish ts).2 <:+ ts :=
  Clause.cut_suffix _ finish ts

/-- What holds of the item that each rest of a text begins with, with the body after it, holds of all items. -/
theorem split_forall {finish : Token} {I : List Token → Prop} {Q : Entry → Prop}
    (hI : ∀ {ts rest}, rest <:+ ts → I ts → I rest) (hQ : ∀ {ts}, I ts → Q (ofClause (head finish ts).1))
    (hmethod : ∀ {ts notes h block}, I ts → ofClause (head finish ts).1 = .method notes h block →
      Q (.method notes h none) ∧ Q (.method notes h (some (Block.split finish (head finish ts).2).1)))
    {ts : List Token} (hts : I ts) : ∀ e ∈ split finish ts, Q e := by
  fun_induction split finish ts with
  | case1 => exact List.forall_mem_nil _
  | case2 t ts c name span hentry ih =>
    exact List.forall_mem_cons.2 ⟨hentry ▸ hQ hts, ih (hI (head_suffix _ _) hts)⟩
  | case3 t ts c faults hentry ih =>
    exact List.forall_mem_cons.2
      ⟨hentry ▸ hQ hts, ih (hI ((Clause.skip_suffix _ _).trans (head_suffix _ _)) hts)⟩
  | case4 t ts c notes h _ hentry _ ih =>
    exact List.forall_mem_cons.2
      ⟨(hmethod hts hentry).2, ih (hI ((Block.split_suffix _ _).trans (head_suffix _ _)) hts)⟩
  | case5 t ts c notes h _ hentry _ ih =>
    exact List.forall_mem_cons.2 ⟨(hmethod hts hentry).1, ih (hI (head_suffix _ _) hts)⟩

theorem split_located (hP : Span.JoinClosed P) {finish : Token} {ts : List Token}
    (h : Clause.Located P ⟨ts, finish⟩) : ∀ e ∈ split finish ts, e.Located P := by
  have hfirst : ∀ {ts}, Clause.Located P ⟨ts, finish⟩ → (ofClause (head finish ts).1).Located P :=
    fun hts => ofClause_located hP (hts.sublist (Clause.cut_prefix _ finish _).sublist)
  refine split_forall (fun hrest hts => Clause.Located.suffix hts hrest) hfirst ?_ h
  intro ts notes heading block hts hentry
  obtain ⟨hnotes, hheading, -⟩ : (Entry.method notes heading block).Located P := hentry ▸ hfirst hts
  refine ⟨⟨hnotes, hheading, by simp⟩, hnotes, hheading, ?_⟩
  rintro b ⟨⟩
  exact Block.split_located (hts.suffix (head_suffix finish ts))

end Entry
end Entries
end Bitpack
