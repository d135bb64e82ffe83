import Mathlib
import Bitpack.Proofs.Acceptance

/-! The grammar of expressions. Reading checks each item against the one before it and counts the parentheses that are
open; what it takes to its end is what the grammar derives. What is left to read at any point is an expression, or the
rest of one, and then whatever closes the parentheses and calls around it. -/

namespace Bitpack

namespace Phrase

/-- The binary operators with the tokens that stand for them. -/
def binaries : List (Kind × Operator) :=
  [(.mark .star, .arith .mul), (.mark .slash, .arith .div), (.mark .plus, .arith .add), (.mark .minus, .arith .sub),
    (.mark .amp, .arith .bitAnd), (.mark .pipe, .arith .bitOr), (.mark .caret, .arith .bitXor),
    (.mark .percent, .arith .rem), (.keyword .and, .arith .and), (.keyword .or, .arith .or), (.mark .colon, .cast)]

inductive Symbol
  /-- `'~' unary | '(' chain ')' | NUMBER | NAME | NAME '(' [chain (',' chain)*] ')'`. -/
  | unary
  /-- `(binary unary)*`. -/
  | tail
  /-- `unary tail`. -/
  | chain
  deriving DecidableEq

inductive Derives : Symbol → List Kind → Prop
  | complement {u : List Kind} (hu : Derives .unary u) : Derives .unary (.mark .tilde :: u)
  | paren {c : List Kind} (hc : Derives .chain c) : Derives .unary (.mark .lparen :: (c ++ [.mark .rparen]))
  | number (text : String) : Derives .unary [.number text]
  | name (x : String) : Derives .unary [.name x]
  | call (x : String) {args : List (List Kind)} (hargs : ∀ a ∈ args, Derives .chain a) :
      Derives .unary (.name x :: .mark .lparen :: ([.mark .comma].intercalate args ++ [.mark .rparen]))
  | nil : Derives .tail []
  | cons {k : Kind} {op : Operator} {u s : List Kind} (hk : (k, op) ∈ binaries) (hu : Derives .unary u)
      (hs : Derives .tail s) : Derives .tail (k :: (u ++ s))
  | chain {u s : List Kind} (hu : Derives .unary u) (hs : Derives .tail s) : Derives .chain (u ++ s)

/-- The item that a token other than a name stands for. -/
inductive Stands : Kind → Item → Prop
  | opening : Stands (.mark .lparen) .opening
  | closing : Stands (.mark .rparen) .closing
  | complement : Stands (.mark .tilde) (.operator .not)
  | binary {k : Kind} {op : Operator} (h : (k, op) ∈ binaries) : Stands k (.operator op)
  | number {text : String} {n : ℕ} (h : Text.ofDecimal? (2 ^ 63) text.toList = some n) :
      Stands (.number text) (.number n)

/-- An argument of a call: its tokens, the infix list of its items, and where it stands. -/
structure Argument where
  kinds : List Kind
  items : List Item
  span : Span

def Argument.expression (a : Argument) : Expression :=
  .mk (toPostfix a.items) a.span

/-- The infix list of a run of tokens, item by item. A call is one item, whose arguments are put in postfix order; any
other name is a variable, or zero if there is no variable of that name. -/
inductive Folds (lookup : String → Option VarId) : List Kind → List Item → Prop
  | nil : Folds lookup [] []
  | token {k : Kind} {i : Item} {ks : List Kind} {is : List Item} (hk : Stands k i) (h : Folds lookup ks is) :
      Folds lookup (k :: ks) (i :: is)
  | name {x : String} {ks : List Kind} {is : List Item} (hks : ks.head? ≠ some (.mark .lparen))
      (h : Folds lookup ks is) : Folds lookup (.name x :: ks) ((lookup x).elim (.number 0) .var :: is)
  | call {x : String} {args : List Argument} {span : Span} {ks : List Kind} {is : List Item}
      (hchains : ∀ a ∈ args, Derives .chain a.kinds) (hargs : ∀ a ∈ args, Folds lookup a.kinds a.items)
      (h : Folds lookup ks is) :
      Folds lookup
        (.name x :: .mark .lparen :: ([.mark .comma].intercalate (args.map (·.kinds)) ++ .mark .rparen :: ks))
        (.call x (args.map (·.expression)) span :: is)

section Kinds

variable {k : Kind} {op : Operator}

theorem mem_binaries : (k, op) ∈ binaries ↔ k.binary? = some op := by
  constructor
  · have htable : ∀ b ∈ binaries, b.1.binary? = some b.2 := by decide
    exact htable (k, op)
  · intro h
    unfold Kind.binary? at h
    split at h <;> cases h <;> decide

theorem intercalate_comma (c : List Kind) (args : List (List Kind)) :
    [.mark .comma].intercalate (c :: args) = c ++ args.flatMap (.mark .comma :: ·) := by
  induction args generalizing c with
  | nil => simp
  | cons a args ih =>
    rw [List.flatMap_cons, List.cons_append, ← ih a]
    simp [List.intercalate]

end Kinds

section Soundness

variable {p q : Place} {depth : ℕ} {outer : List ℕ} {ks : List Kind}

/-- What follows an expression in `depth` parentheses, around which there are calls that stand in as many parentheses as
`outer` says. -/
inductive Closes : ℕ → List ℕ → List Kind → Prop
  | done : Closes 0 [] []
  | paren {depth : ℕ} {outer : List ℕ} {s ks : List Kind} (hs : Derives .tail s) (h : Closes depth outer ks) :
      Closes (depth + 1) outer (.mark .rparen :: (s ++ ks))
  | comma {d : ℕ} {outer : List ℕ} {c ks : List Kind} (hc : Derives .chain c) (h : Closes 0 (d :: outer) ks) :
      Closes 0 (d :: outer) (.mark .comma :: (c ++ ks))
  | callEnd {d : ℕ} {outer : List ℕ} {s ks : List Kind} (hs : Derives .tail s) (h : Closes d outer ks) :
      Closes 0 (d :: outer) (.mark .rparen :: (s ++ ks))

/-- A run that begins with the symbol, and then closes what is open. -/
def Leads (sym : Symbol) (depth : ℕ) (outer : List ℕ) (ks : List Kind) : Prop :=
  ∃ front rest, Derives sym front ∧ Closes depth outer rest ∧ ks = front ++ rest

/-- What has to follow a place. -/
def symbolAt (p : Place) : Symbol :=
  if p.wantsOperand then .chain else .tail

theorem symbolAt_eq (h : p.allows q) : symbolAt p = if q.startsOperand then .chain else .tail := by
  unfold symbolAt
  rw [eq_of_beq h]

theorem Closes.exists_args {ds : List ℕ} {d : ℕ} (h : Closes depth ds ks) (hdepth : depth = 0) (hds : ds = d :: outer) :
    ∃ (args : List (List Kind)) (s rest : List Kind), (∀ a ∈ args, Derives .chain a) ∧ Derives .tail s ∧
      Closes d outer rest ∧ ks = args.flatMap (.mark .comma :: ·) ++ .mark .rparen :: (s ++ rest) := by
  induction h with
  | done => cases hds
  | paren => cases hdepth
  | @comma _ _ c _ hc _ ih =>
    obtain ⟨args, s, rest, hargs, hs, hrest, rfl⟩ := ih rfl hds
    exact ⟨c :: args, s, rest, List.forall_mem_cons.2 ⟨hc, hargs⟩, hs, hrest, by simp⟩
  | @callEnd _ _ s ks hs h =>
    cases hds
    exact ⟨[], s, ks, List.forall_mem_nil _, hs, h, rfl⟩

theorem Leads.operand {u : List Kind} (hu : Derives .unary u) (h : Leads .tail depth outer ks) :
    Leads .chain depth outer (u ++ ks) := by
  obtain ⟨s, rest, hs, hrest, rfl⟩ := h
  exact ⟨u ++ s, rest, .chain hu hs, hrest, (List.append_assoc _ _ _).symm⟩

theorem Closes.leads (h : Closes depth outer ks) : Leads .tail depth outer ks :=
  ⟨[], ks, .nil, h, rfl⟩

theorem Leads.exists_unary (h : Leads .chain depth outer ks) :
    ∃ u ks', Derives .unary u ∧ Leads .tail depth outer ks' ∧ ks = u ++ ks' := by
  obtain ⟨_, rest, hchain, hrest, rfl⟩ := h
  cases hchain with
  | @chain u s hu hs => exact ⟨u, s ++ rest, hu, ⟨s, rest, hs, hrest, rfl⟩, List.append_assoc _ _ _⟩

theorem leads_of_accepts (h : Accepts p depth outer ks) : Leads (symbolAt p) depth outer ks := by
  induction h with
  | finish hp =>
    rw [symbolAt_eq hp]
    exact Closes.done.leads
  | comma hp _ ih =>
    rw [symbolAt_eq hp]
    obtain ⟨c, rest, hc, hrest, rfl⟩ := ih
    exact (Closes.comma hc hrest).leads
  | closing hp _ ih =>
    rw [symbolAt_eq hp]
    obtain ⟨s, rest, hs, hrest, rfl⟩ := ih
    exact (Closes.paren hs hrest).leads
  | callEnd hp _ ih =>
    rw [symbolAt_eq hp]
    obtain ⟨s, rest, hs, hrest, rfl⟩ := ih
    exact (Closes.callEnd hs hrest).leads
  | opening hp _ ih =>
    rw [symbolAt_eq hp]
    obtain ⟨c, rest, hc, hrest, rfl⟩ := ih
    cases hrest with
    | paren hs hrest =>
      have hks := Leads.operand (.paren hc) ⟨_, _, hs, hrest, rfl⟩
      rwa [List.cons_append, List.append_assoc] at hks
  | complement hp _ ih =>
    rw [symbolAt_eq hp]
    obtain ⟨u, ks, hu, hks, rfl⟩ := Leads.exists_unary ih
    exact Leads.operand (.complement hu) hks
  | number hp _ _ ih =>
    rw [symbolAt_eq hp]
    exact Leads.operand (.number _) ih
  | emptyCall hp _ ih =>
    rw [symbolAt_eq hp]
    exact Leads.operand (.call _ (List.forall_mem_nil _)) ih
  | @call _ _ _ _ x hp _ _ ih =>
    rw [symbolAt_eq hp]
    obtain ⟨c, rest, hc, hrest, rfl⟩ := ih
    -- the first argument is what is read next; the others are part of what closes it
    obtain ⟨args, s, rest, hargs, hs, hafter, rfl⟩ := hrest.exists_args rfl rfl
    have hks := Leads.operand (.call x (List.forall_mem_cons.2 ⟨hc, hargs⟩)) ⟨s, rest, hs, hafter, rfl⟩
    simp only [intercalate_comma, List.cons_append, List.append_assoc] at hks
    exact hks
  | var hp _ _ ih =>
    rw [symbolAt_eq hp]
    exact Leads.operand (.name _) ih
  | binary hp hop _ ih =>
    rw [symbolAt_eq hp]
    obtain ⟨u, ks, hu, ⟨s, rest, hs, hrest, rfl⟩, rfl⟩ := Leads.exists_unary ih
    exact ⟨_ :: (u ++ s), rest, .cons (mem_binaries.2 hop) hu hs, hrest, by simp⟩

theorem derives_of_accepts (h : Accepts .start 0 [] ks) : Derives .chain ks := by
  obtain ⟨c, rest, hc, hrest, rfl⟩ := leads_of_accepts h
  cases hrest with
  | done => rwa [List.append_nil]

end Soundness

section Completeness

/-- The numbers among the tokens can be read. -/
def Readable (ks : List Kind) : Prop :=
  ∀ text, .number text ∈ ks → (Text.ofDecimal? (2 ^ 63) text.toList).isSome

theorem Readable.mono {ks ks' : List Kind} (h : Readable ks) (hks : ks' ⊆ ks) : Readable ks' :=
  fun text htext => h text (hks htext)

theorem Derives.head_ne_rparen {sym : Symbol} {ks : List Kind} (h : Derives sym ks) (hsym : sym ≠ .tail)
    (rest : List Kind) : (ks ++ rest).head? ≠ some (.mark .rparen) := by
  induction h generalizing rest with
  | nil | cons => exact absurd rfl hsym
  | @chain u s _ _ ih _ =>
    rw [List.append_assoc]
    exact ih (by decide) (s ++ rest)
  | complement | paren | number | name | call => simp

theorem Derives.head_ne_lparen {s : List Kind} (h : Derives .tail s) : s.head? ≠ some (.mark .lparen) := by
  cases h with
  | nil => simp
  | cons hk =>
    intro hhead
    obtain rfl := Option.some.inj hhead
    exact absurd (mem_binaries.1 hk) (by simp [Kind.binary?])

theorem exists_of_kinds_snoc {ts : List Token} {ks : List Kind} {k : Kind} (h : ts.map (·.kind) = ks ++ [k]) :
    ∃ front span, ts = front ++ [⟨k, span⟩] ∧ front.map (·.kind) = ks := by
  obtain ⟨front, rest, rfl, hfront, hrest⟩ := exists_of_kinds_append h
  obtain ⟨span, rest, rfl, hnil⟩ := exists_of_kinds_cons hrest
  obtain rfl := List.map_eq_nil_iff.1 hnil
  exact ⟨front, span, rfl, hfront⟩

theorem head?_append_ne {ks ks' : List Kind} {k : Kind} (h : ks.head? ≠ some k) (h' : ks'.head? ≠ some k) :
    (ks ++ ks').head? ≠ some k := by
  cases ks with
  | nil => exact h'
  | cons => exact h

variable {lookup : String → Option VarId} {stop : Token}

theorem Folds.append {ks ks' : List Kind} {is is' : List Item} (h : Folds lookup ks is) (h' : Folds lookup ks' is')
    (hks' : ks'.head? ≠ some (.mark .lparen)) : Folds lookup (ks ++ ks') (is ++ is') := by
  induction h with
  | nil => exact h'
  | token hk _ ih => exact .token hk ih
  | name hks _ ih => exact .name (head?_append_ne hks hks') ih
  | @call x args span _ _ hchains hargs _ _ ih =>
    rw [List.cons_append, List.cons_append, List.append_assoc, List.cons_append]
    exact .call hchains hargs ih

/-- The tokens take the reading from one frame to another, and the items they fold into are put on the frame. A name
at their end is known for what it is only by the token behind it. -/
structure Steps (lookup : String → Option VarId) (stop : Token) (f : Frame) (us : List Token) (f' : Frame)
    (is : List Item) : Prop where
  folds : Folds lookup (us.map (·.kind)) is
  items : f'.items = is.reverse ++ f.items
  run : ∀ calls ts, (ts.map (·.kind)).head? ≠ some (.mark .lparen) →
    (readInfix lookup stop f calls (us ++ ts)).result = (readInfix lookup stop f' calls ts).result

namespace Steps

variable {f f₁ f₂ : Frame} {us vs : List Token} {is js : List Item}

theorem refl (f : Frame) : Steps lookup stop f [] f [] :=
  ⟨.nil, rfl, fun _ _ _ => rfl⟩

theorem cons {t : Token} {i : Item} (hi : Stands t.kind i) (hitems : f₁.items = i :: f.items)
    (hrun : ∀ calls ts, readInfix lookup stop f calls (t :: ts) = readInfix lookup stop f₁ calls ts)
    (h : Steps lookup stop f₁ us f₂ is) : Steps lookup stop f (t :: us) f₂ (i :: is) where
  folds := .token hi h.folds
  items := by simp [h.items, hitems]
  run calls ts hts := by
    rw [List.cons_append, hrun]
    exact h.run calls ts hts

theorem trans (h : Steps lookup stop f us f₁ is) (h' : Steps lookup stop f₁ vs f₂ js)
    (hvs : (vs.map (·.kind)).head? ≠ some (.mark .lparen)) : Steps lookup stop f (us ++ vs) f₂ (is ++ js) where
  folds := by
    rw [List.map_append]
    exact h.folds.append h'.folds hvs
  items := by simp [h.items, h'.items]
  run calls ts hts := by
    rw [List.append_assoc, h.run calls (vs ++ ts), h'.run calls ts hts]
    rw [List.map_append]
    exact head?_append_ne hvs hts

end Steps

/-- Every reading of these tokens, begun where an operand is wanted or not, steps over them, and wants no operand
then. -/
def Runs (lookup : String → Option VarId) (stop : Token) (wants : Bool) (ks : List Kind) : Prop :=
  ∀ us : List Token, us.map (·.kind) = ks → Readable ks → ∀ f : Frame, f.last.wantsOperand = wants →
    ∃ f' is, Steps lookup stop f us f' is ∧ f'.depth = f.depth ∧ f'.last.wantsOperand = false

theorem allows_of_wants {p q : Place} (h : p.wantsOperand = q.startsOperand) : p.allows q :=
  beq_of_eq h

section Ends

variable {f : Frame} (call : OpenCall) (calls : List OpenCall) (span : Span) (ts : List Token)
  (hlast : f.last.wantsOperand = false) (hdepth : f.depth = 0)
include hlast hdepth

theorem readInfix_nextArgument : readInfix lookup stop f (call :: calls) (⟨.mark .comma, span⟩ :: ts) =
    readInfix lookup stop {} ({ call with args := f.expression :: call.args } :: calls) ts := by
  have hallows : f.last.allows .finish := allows_of_wants hlast
  rw [readInfix_comma rfl, if_neg (by omega), if_neg (by simp [hallows])]

theorem readInfix_callClose : readInfix lookup stop f (call :: calls) (⟨.mark .rparen, span⟩ :: ts) =
    readInfix lookup stop (({ call with args := f.expression :: call.args } : OpenCall).finish span) calls ts := by
  have hallows : f.last.allows .finish := allows_of_wants hlast
  rw [readInfix_callEnd rfl (by omega), if_neg (by simp [hallows])]

end Ends

/-- The argument that has been read in a frame. -/
def argument (ks : List Kind) (is : List Item) (f : Frame) : Argument :=
  ⟨ks, is, f.span.getD Span.origin⟩

theorem Steps.expression_eq {f : Frame} {us : List Token} {is : List Item} (h : Steps lookup stop {} us f is)
    (ks : List Kind) : f.expression = (argument ks is f).expression := by
  unfold Frame.expression Argument.expression argument
  rw [h.items, List.append_nil, List.reverse_reverse]

/-- The frame around a call that is closed after these arguments. -/
def closeWith (call : OpenCall) (arguments : List Argument) (close : Span) : Frame :=
  ({ call with args := (arguments.map (·.expression)).reverse ++ call.args } : OpenCall).finish close

theorem exists_arguments {c : List Kind} {args : List (List Kind)} (hruns : ∀ a ∈ c :: args, Runs lookup stop true a)
    {us : List Token} (hus : us.map (·.kind) = c ++ args.flatMap (.mark .comma :: ·))
    (hreadable : Readable (c ++ args.flatMap (.mark .comma :: ·))) (call : OpenCall) (close : Span) :
    ∃ arguments : List Argument, arguments.map (·.kinds) = c :: args ∧
      (∀ a ∈ arguments, Folds lookup a.kinds a.items) ∧
      ∀ calls ts, (readInfix lookup stop {} (call :: calls) (us ++ ⟨.mark .rparen, close⟩ :: ts)).result =
        (readInfix lookup stop (closeWith call arguments close) calls ts).result := by
  induction args generalizing c us call with
  | nil =>
    rw [List.flatMap_nil, List.append_nil] at hus hreadable
    obtain ⟨f, is, hf, hdepth, hlast⟩ := hruns c List.mem_cons_self us hus hreadable {} rfl
    refine ⟨[argument c is f], rfl, ?_, fun calls ts => ?_⟩
    · exact List.forall_mem_singleton.2 (hus ▸ hf.folds)
    · rw [hf.run _ _ (by simp), readInfix_callClose call calls close ts hlast hdepth, hf.expression_eq c]
      rfl
  | cons a args ih =>
    rw [List.flatMap_cons, List.cons_append] at hus
    obtain ⟨us₁, us₂, rfl, hus₁, hus₂⟩ := exists_of_kinds_append hus
    obtain ⟨span, us₂, rfl, hkinds₂⟩ := exists_of_kinds_cons hus₂
    obtain ⟨f, is, hf, hdepth, hlast⟩ := hruns c List.mem_cons_self us₁ hus₁ (hreadable.mono (by simp)) {} rfl
    obtain ⟨arguments, hkinds, hfolds, hrun⟩ := ih (fun b hb => hruns b (List.mem_cons_of_mem c hb)) hkinds₂
      (hreadable.mono (by simp)) { call with args := f.expression :: call.args }
    refine ⟨argument c is f :: arguments, by rw [List.map_cons, hkinds]; rfl, ?_, fun calls ts => ?_⟩
    · exact List.forall_mem_cons.2 ⟨hus₁ ▸ hf.folds, hfolds⟩
    · rw [List.append_assoc, List.cons_append, hf.run _ _ (by simp),
        readInfix_nextArgument call calls span _ hlast hdepth, hrun]
      simp [closeWith, hf.expression_eq c]

theorem exists_call {args : List (List Kind)} (hchains : ∀ a ∈ args, Derives .chain a)
    (hruns : ∀ a ∈ args, Runs lookup stop true a) {us : List Token}
    (hus : us.map (·.kind) = [.mark .comma].intercalate args) (hreadable : Readable ([.mark .comma].intercalate args))
    (x : String) (span lspan close : Span) {f : Frame} (hallows : f.last.allows .operand) :
    ∃ arguments : List Argument, arguments.map (·.kinds) = args ∧ (∀ a ∈ arguments, Folds lookup a.kinds a.items) ∧
      ∀ calls ts, (readInfix lookup stop f calls
          (⟨.name x, span⟩ :: ⟨.mark .lparen, lspan⟩ :: (us ++ ⟨.mark .rparen, close⟩ :: ts))).result =
        (readInfix lookup stop (closeWith ⟨x, span, [], f⟩ arguments close) calls ts).result := by
  cases args with
  | nil =>
    obtain rfl := List.map_eq_nil_iff.1 hus
    refine ⟨[], rfl, List.forall_mem_nil _, fun calls ts => ?_⟩
    rw [List.nil_append, readInfix_emptyCall rfl rfl rfl, if_neg (by simp [hallows])]
    rfl
  | cons c args =>
    rw [intercalate_comma] at hus hreadable
    obtain ⟨arguments, hkinds, hfolds, hrun⟩ := exists_arguments hruns hus hreadable ⟨x, span, [], f⟩ close
    refine ⟨arguments, hkinds, hfolds, fun calls ts => ?_⟩
    rw [readInfix_call rfl rfl, if_neg (by simp [hallows]), hrun]
    rw [List.map_append, hus, List.append_assoc]
    exact (hchains c List.mem_cons_self).head_ne_rparen (by decide) _

namespace Runs

variable {wants wants' : Bool} {u s c ks : List Kind}

theorem nil : Runs lookup stop false [] := by
  intro us hus _ f hf
  obtain rfl := List.map_eq_nil_iff.1 hus
  exact ⟨f, [], .refl f, rfl, hf⟩

theorem append (hu : Runs lookup stop wants u) (hs : Runs lookup stop false s)
    (hhead : s.head? ≠ some (.mark .lparen)) : Runs lookup stop wants (u ++ s) := by
  intro us hus hreadable f hf
  obtain ⟨us₁, us₂, rfl, hus₁, hus₂⟩ := exists_of_kinds_append hus
  obtain ⟨f₁, is, hf₁, hdepth₁, hlast₁⟩ := hu us₁ hus₁ (hreadable.mono (List.subset_append_left u s)) f hf
  obtain ⟨f₂, js, hf₂, hdepth₂, hlast₂⟩ := hs us₂ hus₂ (hreadable.mono (List.subset_append_right u s)) f₁ hlast₁
  exact ⟨f₂, is ++ js, hf₁.trans hf₂ (hus₂ ▸ hhead), hdepth₂.trans hdepth₁, hlast₂⟩

theorem cons {k : Kind} {i : Item} (place : Place) (hi : Stands k i) (hplace : place.wantsOperand = wants')
    (hrun : ∀ (f : Frame) span calls ts, f.last.wantsOperand = wants →
      readInfix lookup stop f calls (⟨k, span⟩ :: ts) = readInfix lookup stop (f.push place i span) calls ts)
    (h : Runs lookup stop wants' ks) : Runs lookup stop wants (k :: ks) := by
  intro us hus hreadable f hf
  obtain ⟨span, us, rfl, hkinds⟩ := exists_of_kinds_cons hus
  obtain ⟨f', is, hf', hdepth, hlast⟩ := h us hkinds (hreadable.mono (List.subset_cons_self k ks))
    (f.push place i span) hplace
  exact ⟨f', i :: is, hf'.cons hi rfl fun calls ts => hrun f span calls ts hf, hdepth, hlast⟩

theorem complement (hu : Runs lookup stop true u) : Runs lookup stop true (.mark .tilde :: u) := by
  refine cons .complement .complement rfl (fun f span calls ts hf => ?_) hu
  have hallows : f.last.allows .complement := allows_of_wants hf
  rw [readInfix_complement rfl, if_neg (by simp [hallows])]

theorem binary {k : Kind} {op : Operator} (hk : (k, op) ∈ binaries) (hc : Runs lookup stop true c) :
    Runs lookup stop false (k :: c) := by
  refine cons .binary (.binary hk) rfl (fun f span calls ts hf => ?_) hc
  have hallows : f.last.allows .binary := allows_of_wants hf
  rw [readInfix_binary (mem_binaries.1 hk), if_neg (by simp [hallows])]

theorem number (text : String) : Runs lookup stop true [.number text] := by
  intro us hus hreadable
  obtain ⟨n, hn⟩ := Option.isSome_iff_exists.1 (hreadable text List.mem_cons_self)
  refine cons .operand (.number hn) rfl (fun f span calls ts hf => ?_) nil us hus hreadable
  have hallows : f.last.allows .operand := allows_of_wants hf
  rw [readInfix_number rfl, if_neg (by simp [hallows]), show UInt64.size / 2 = 2 ^ 63 from rfl, hn]

theorem name (x : String) : Runs lookup stop true [.name x] := by
  intro us hus _ f hf
  obtain ⟨span, us, rfl, hkinds⟩ := exists_of_kinds_cons hus
  obtain rfl := List.map_eq_nil_iff.1 hkinds
  have hallows : f.last.allows .operand := allows_of_wants hf
  refine ⟨f.push .operand ((lookup x).elim (.number 0) .var) span, [(lookup x).elim (.number 0) .var],
    ⟨.name (by simp) .nil, rfl, fun calls ts hts => ?_⟩, rfl, rfl⟩
  rw [List.singleton_append, readInfix_var rfl hts, if_neg (by simp [hallows])]
  cases lookup x with
  | some id => rfl
  | none => rfl

theorem paren (hc : Runs lookup stop true c) : Runs lookup stop true (.mark .lparen :: (c ++ [.mark .rparen])) := by
  intro us hus hreadable f hf
  obtain ⟨span, vs, rfl, hvs⟩ := exists_of_kinds_cons hus
  obtain ⟨us, close, rfl, hkinds⟩ := exists_of_kinds_snoc hvs
  obtain ⟨f₁, is, hf₁, hdepth, hlast⟩ := hc us hkinds (hreadable.mono (by simp))
    { f.push .opening .opening span with depth := f.depth + 1 } rfl
  have hopening : f.last.allows .opening := allows_of_wants hf
  have hclosing : f₁.last.allows .closing := allows_of_wants hlast
  have hpos : 0 < f₁.depth := hdepth ▸ Nat.succ_pos _
  have hclose : Steps lookup stop f₁ [⟨.mark .rparen, close⟩]
      { f₁.push .closing .closing close with depth := f₁.depth - 1 } [.closing] := by
    refine .cons .closing rfl (fun calls ts => ?_) (.refl _)
    rw [readInfix_closing rfl hpos, if_neg (by simp [hclosing])]
  refine ⟨_, _, .cons .opening rfl (fun calls ts => ?_) (hf₁.trans hclose (by simp)), ?_, rfl⟩
  · rw [readInfix_opening rfl, if_neg (by simp [hopening])]
  · exact congrArg Nat.pred hdepth

theorem call (x : String) {args : List (List Kind)} (hchains : ∀ a ∈ args, Derives .chain a)
    (hruns : ∀ a ∈ args, Runs lookup stop true a) :
    Runs lookup stop true (.name x :: .mark .lparen :: ([.mark .comma].intercalate args ++ [.mark .rparen])) := by
  intro us hus hreadable f hf
  obtain ⟨span, vs, rfl, hvs⟩ := exists_of_kinds_cons hus
  obtain ⟨lspan, vs, rfl, hws⟩ := exists_of_kinds_cons hvs
  obtain ⟨us, close, rfl, hkinds⟩ := exists_of_kinds_snoc hws
  have hargs : Readable ([.mark .comma].intercalate args) :=
    hreadable.mono (List.subset_cons_of_subset _ (List.subset_cons_of_subset _ (List.subset_append_left _ _)))
  obtain ⟨arguments, rfl, hfolds, hrun⟩ := exists_call hchains hruns hkinds hargs x span lspan close
    (allows_of_wants hf)
  refine ⟨closeWith ⟨x, span, [], f⟩ arguments close, [.call x (arguments.map (·.expression)) (span.join close)],
    ⟨?_, ?_, fun calls ts _ => ?_⟩, rfl, rfl⟩
  · rw [hus]
    exact .call (List.forall_mem_map.1 hchains) hfolds .nil
  · simp [closeWith, OpenCall.finish, Frame.push]
  · simpa using hrun calls ts

end Runs

/-- Whether a symbol begins with an operand. -/
def Symbol.wants : Symbol → Bool
  | .tail => false
  | .unary | .chain => true

theorem Derives.runs {sym : Symbol} {ks : List Kind} (h : Derives sym ks) : Runs lookup stop sym.wants ks := by
  induction h with
  | complement _ ih => exact .complement ih
  | paren _ ih => exact .paren ih
  | number text => exact .number text
  | name x => exact .name x
  | call x hargs ih => exact .call x hargs ih
  | nil => exact .nil
  | cons hk _ hs ihu ihs => exact .binary hk (.append ihu ihs hs.head_ne_lparen)
  | chain _ hs ihu ihs => exact .append ihu ihs hs.head_ne_lparen

theorem Derives.readInfix_eq {ts : List Token} (h : Derives .chain (ts.map (·.kind)))
    (hreadable : Readable (ts.map (·.kind))) (lookup : String → Option VarId) (stop : Token) :
    ∃ is span, Folds lookup (ts.map (·.kind)) is ∧
      (readInfix lookup stop {} [] ts).result = .ok (.mk (toPostfix is) span) := by
  have hruns : Runs lookup stop true (ts.map (·.kind)) := h.runs
  obtain ⟨f, is, hf, hdepth, hlast⟩ := hruns ts rfl hreadable {} rfl
  have hallows : f.last.allows .finish := allows_of_wants hlast
  have hrun := hf.run [] [] (by simp)
  rw [List.append_nil, readInfix_nil] at hrun
  refine ⟨is, f.span.getD Span.origin, hf.folds, ?_⟩
  rw [hrun]
  simp [readFinish, hallows, hdepth, Frame.expression, hf.items]

end Completeness

/-- The clause in front of a semicolon is read as an expression exactly if the grammar derives it, and then from the
items that its tokens fold into. -/
theorem readInfix_ok_iff_derives (lookup : String → Option VarId) (finish stop : Token) {ts : List Token}
    (rest : List Token) (hts : ∀ t ∈ ts, ¬ t.kind.endsHead) (hstop : stop.kind = .mark .semicolon)
    (hnumbers : Readable (ts.map (·.kind))) :
    ∃ c : Clause, (Block.split finish (ts ++ stop :: rest)).1.clauses.head? = some c ∧ c.text = ts ++ [stop] ∧
      ((∃ e, (readInfix lookup c.stop {} [] c.tokens).result = .ok e) ↔ Derives .chain (ts.map (·.kind))) ∧
      ∀ e, (readInfix lookup c.stop {} [] c.tokens).result = .ok e →
        ∃ is, Folds lookup (ts.map (·.kind)) is ∧ e.items = toPostfix is := by
  have hsplit := Block.split_append hts hstop (Prod.mk.eta (p := Block.split finish rest)).symm
  have hsound : ∀ e, (readInfix lookup stop {} [] ts).result = .ok e → Derives .chain (ts.map (·.kind)) :=
    fun e he => derives_of_accepts (accepts_of_readInfix he)
  refine ⟨⟨ts, stop⟩, by rw [hsplit]; rfl, rfl, ⟨?_, ?_⟩, ?_⟩
  · rintro ⟨e, he⟩
    exact hsound e he
  · intro h
    obtain ⟨is, span, -, hok⟩ := h.readInfix_eq hnumbers lookup stop
    exact ⟨_, hok⟩
  · intro e he
    obtain ⟨is, span, hfolds, hok⟩ := (hsound e he).readInfix_eq hnumbers lookup stop
    obtain rfl := Except.ok.inj (hok.symm.trans he)
    exact ⟨is, hfolds, rfl⟩

/-- `~f(a, (b)) * 2` -/
def nestedCall : List Token :=
  [.mark .tilde, .name "f", .mark .lparen, .name "a", .mark .comma, .mark .lparen, .name "b", .mark .rparen,
    .mark .rparen, .mark .star, .number "2"].map (⟨·, Span.origin⟩)

theorem readInfix_ok_iff_derives_of_nested : (∀ t ∈ nestedCall, ¬ t.kind.endsHead) ∧
    Readable (nestedCall.map (·.kind)) ∧ Derives .chain (nestedCall.map (·.kind)) ∧
    ∃ c : Clause, c.text = nestedCall ++ [⟨.mark .semicolon, Span.origin⟩] ∧
      ∃ e is, (readInfix (fun x => if x = "a" then some 0 else none) c.stop {} [] c.tokens).result = .ok e ∧
        Folds (fun x => if x = "a" then some 0 else none) (nestedCall.map (·.kind)) is ∧ e.items = toPostfix is := by
  have hargs : ∀ a ∈ [[.name "a"], [.mark .lparen, .name "b", .mark .rparen]], Derives .chain a :=
    List.forall_mem_cons.2 ⟨.chain (.name "a") .nil,
      List.forall_mem_singleton.2 (.chain (.paren (.chain (.name "b") .nil)) .nil)⟩
  have hstar : (.mark .star, .arith .mul) ∈ binaries := List.mem_cons_self
  have hderives : Derives .chain (nestedCall.map (·.kind)) :=
    .chain (.complement (.call "f" hargs)) (.cons hstar (.number "2") .nil)
  have hnumbers : Readable (nestedCall.map (·.kind)) := by
    intro text htext
    obtain rfl : text = "2" := by simpa [nestedCall] using htext
    decide
  obtain ⟨c, -, htext, hiff, hitems⟩ := readInfix_ok_iff_derives (fun x => if x = "a" then some 0 else none)
    ⟨.finish, Span.origin⟩ ⟨.mark .semicolon, Span.origin⟩ [] (by decide) rfl hnumbers
  obtain ⟨e, he⟩ := hiff.2 hderives
  obtain ⟨is, hfolds, his⟩ := hitems e he
  exact ⟨by decide, hnumbers, hderives, c, htext, e, is, he, hfolds, his⟩

end Phrase

end Bitpack
