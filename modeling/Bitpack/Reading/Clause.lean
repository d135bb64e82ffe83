import Bitpack.Token.Basic

/-! Runs of tokens between the marks that end them. An item begins with a run up to a semicolon or a
brace, and a body is a sequence of runs up to semicolons, so what is wrong inside a run never changes
where the next one begins. -/

namespace Bitpack

/-- A run of tokens and the token that ends it, which is not part of the run. -/
structure Clause where
  tokens : List Token
  stop : Token
  deriving Repr

namespace Clause

/-- The token that is to be read next. -/
def next (c : Clause) : Token :=
  c.tokens.headD c.stop

/-- Cuts off the run up to the first token at which it `stops`, or else up to the end of the text,
and gives the tokens that follow its stop. -/
def cut (stops : Kind → Bool) (finish : Token) : List Token → Clause × List Token
  | [] => (⟨[], finish⟩, [])
  | t :: ts =>
    if stops t.kind then (⟨[], t⟩, ts)
    else
      let (c, rest) := cut stops finish ts
      (⟨t :: c.tokens, c.stop⟩, rest)

theorem length_cut_le (stops : Kind → Bool) (finish : Token) (ts : List Token) :
    (cut stops finish ts).2.length ≤ ts.length := by
  induction ts with
  | nil => simp [cut]
  | cons t ts ih =>
    simp only [cut]
    split
    · simp
    · exact Nat.le_succ_of_le ih

theorem length_cut_lt (stops : Kind → Bool) (finish t : Token) (ts : List Token) :
    (cut stops finish (t :: ts)).2.length < ts.length + 1 := by
  simp only [cut]
  split
  · simp
  · exact Nat.lt_succ_of_le (length_cut_le stops finish ts)

end Clause

/-- What ends the first run of an item. -/
def Kind.endsHead : Kind → Bool
  | .mark .semicolon | .mark .lbrace | .mark .rbrace => true
  | _ => false

/-- The tokens after the block of balanced braces that was opened before them, `depth` more of which
are open. -/
def skipBlock (depth : Nat) : List Token → List Token
  | [] => []
  | t :: ts =>
    match t.kind with
    | .mark .lbrace => skipBlock (depth + 1) ts
    | .mark .rbrace =>
      match depth with
      | 0 => ts
      | outer + 1 => skipBlock outer ts
    | _ => skipBlock depth ts

theorem length_skipBlock_le (depth : Nat) (ts : List Token) :
    (skipBlock depth ts).length ≤ ts.length := by
  induction ts generalizing depth with
  | nil => simp [skipBlock]
  | cons t ts ih =>
    simp only [skipBlock]
    split
    · exact Nat.le_succ_of_le (ih _)
    · split
      · simp
      · exact Nat.le_succ_of_le (ih _)
    · exact Nat.le_succ_of_le (ih _)

/-- Where reading goes on after a faulty run: a block that the run announced is skipped with it. -/
def Clause.skip (c : Clause) (rest : List Token) : List Token :=
  if c.stop.kind = .mark .lbrace then skipBlock 0 rest else rest

theorem Clause.length_skip_le (c : Clause) (rest : List Token) :
    (c.skip rest).length ≤ rest.length := by
  unfold Clause.skip
  split
  · exact length_skipBlock_le 0 rest
  · exact Nat.le_refl _

/-- The statements of a body. -/
structure Block where
  clauses : List Clause
  /-- The brace that closes the body, or the end of the text. -/
  close : Token
  deriving Repr

namespace Block

/-- Puts a token in front of the first statement. -/
def cons (t : Token) (b : Block) : Block :=
  match b.clauses with
  | [] => ⟨[⟨[t], b.close⟩], b.close⟩
  | c :: cs => ⟨⟨t :: c.tokens, c.stop⟩ :: cs, b.close⟩

/-- Splits a body into its statements, up to the first closing brace, and gives what follows. -/
def split (finish : Token) : List Token → Block × List Token
  | [] => (⟨[], finish⟩, [])
  | t :: ts =>
    if t.kind = .mark .rbrace then (⟨[], t⟩, ts)
    else
      let (b, rest) := split finish ts
      if t.kind = .mark .semicolon then (⟨⟨[], t⟩ :: b.clauses, b.close⟩, rest)
      else (b.cons t, rest)

theorem length_split_le (finish : Token) (ts : List Token) :
    (split finish ts).2.length ≤ ts.length := by
  induction ts with
  | nil => simp [split]
  | cons t ts ih =>
    simp only [split]
    split
    · simp
    · split <;> exact Nat.le_succ_of_le ih

end Block
end Bitpack
