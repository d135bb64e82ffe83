import Mathlib
import Bitpack.SourceUnit.Postfix

/-! Postfix order is the postorder of the tree that precedence climbing builds. Climbing reads an operand and then
takes every binary operator that binds tightly enough, each with a right operand that binds tighter still. The
operators on the stack of `shunt` are those whose right operand is being read. Only the one on top decides whether the
next operator is taken; where climbing stops at an operator, that operator lets the one on top go out. -/

namespace Bitpack

def Item.isOperand : Item → Bool
  | .var _ | .temp .. | .number _ | .call .. => true
  | .operator _ | .opening | .closing => false

/-- How the items of an infix list belong together. -/
inductive Grouping
  | operand (i : Item)
  | complement (g : Grouping)
  | binary (op : Operator) (left right : Grouping)

/-- Operands before their operator, the left one first. -/
def Grouping.postorder : Grouping → List Item
  | .operand i => [i]
  | .complement g => g.postorder ++ [.operator .not]
  | .binary op left right => left.postorder ++ right.postorder ++ [.operator op]

namespace Infix

inductive Symbol
  /-- `'~' unary | '(' chain ')' | operand`. -/
  | unary
  /-- `(binary unary)*`. -/
  | tail
  /-- `unary tail`. -/
  | chain

inductive Derives : Symbol → List Item → Prop
  | operand {i : Item} (hi : i.isOperand = true) : Derives .unary [i]
  | complement {u : List Item} (hu : Derives .unary u) : Derives .unary (.operator .not :: u)
  | paren {c : List Item} (hc : Derives .chain c) : Derives .unary (.opening :: (c ++ [.closing]))
  | nil : Derives .tail []
  | cons {op : Operator} {u s : List Item} (hop : op.isPrefix = false) (hu : Derives .unary u) (hs : Derives .tail s) :
      Derives .tail (.operator op :: (u ++ s))
  | chain {u s : List Item} (hu : Derives .unary u) (hs : Derives .tail s) : Derives .chain (u ++ s)

/-- What may stand behind an expression whose binary operators all have at least the precedence `least`. -/
inductive Ends (least : ℕ) : List Item → Prop
  | nil : Ends least []
  | closing {rest : List Item} : Ends least (.closing :: rest)
  | operator {op : Operator} {rest : List Item} (hop : op.isPrefix = false) (hlt : op.precedence < least) :
      Ends least (.operator op :: rest)

inductive Aim
  | operand
  /-- An expression whose binary operators, outside of its operands, have at least the precedence `least`. -/
  | expression (least : ℕ)
  /-- The rest of such an expression, behind what has been read of it. -/
  | rest (least : ℕ) (left : Grouping)

/-- Precedence climbing: from the first list it reads a grouping and leaves the second list. The operand of an operator
has binary operators of higher precedence only, so operators of equal precedence group to the left; and no expression
ends before an operator that it may still take. -/
inductive Climbs : Aim → List Item → Grouping → List Item → Prop
  | operand {i : Item} {rest : List Item} (hi : i.isOperand = true) : Climbs .operand (i :: rest) (.operand i) rest
  | complement {items rest : List Item} {g : Grouping}
      (hg : Climbs (.expression (Operator.not.precedence + 1)) items g rest) :
      Climbs .operand (.operator .not :: items) (.complement g) rest
  | paren {items rest : List Item} {g : Grouping} (hg : Climbs (.expression 0) items g (.closing :: rest)) :
      Climbs .operand (.opening :: items) g rest
  | expression {least : ℕ} {items mid rest : List Item} {left g : Grouping} (hleft : Climbs .operand items left mid)
      (hg : Climbs (.rest least left) mid g rest) : Climbs (.expression least) items g rest
  | ends {least : ℕ} {rest : List Item} {left : Grouping} (hrest : Ends least rest) :
      Climbs (.rest least left) rest left rest
  | binary {least : ℕ} {op : Operator} {items mid rest : List Item} {left right g : Grouping}
      (hop : op.isPrefix = false) (hle : least ≤ op.precedence)
      (hright : Climbs (.expression (op.precedence + 1)) items right mid)
      (hg : Climbs (.rest least (.binary op left right)) mid g rest) :
      Climbs (.rest least left) (.operator op :: items) g rest

variable {least : ℕ} {aim : Aim} {items rest stack : List Item} {g : Grouping}

section Climbing

theorem not_ends_operator {op : Operator} (hle : least ≤ op.precedence) : ¬ Ends least (.operator op :: rest) := by
  rintro (_ | _ | ⟨_, hlt⟩)
  omega

theorem Climbs.unique (h : Climbs aim items g rest) : ∀ {g' : Grouping} {rest' : List Item},
    Climbs aim items g' rest' → g' = g ∧ rest' = rest := by
  induction h with
  | operand hi =>
    intro g' rest' h'
    cases h' with
    | operand _ => exact ⟨rfl, rfl⟩
    | complement _ => cases hi
    | paren _ => cases hi
  | complement _ ih =>
    intro g' rest' h'
    cases h' with
    | operand hi => cases hi
    | complement hg =>
      obtain ⟨rfl, rfl⟩ := ih hg
      exact ⟨rfl, rfl⟩
  | paren _ ih =>
    intro g' rest' h'
    cases h' with
    | operand hi => cases hi
    | paren hg =>
      obtain ⟨rfl, hrest⟩ := ih hg
      exact ⟨rfl, (List.cons.inj hrest).2⟩
  | expression _ _ ihleft ih =>
    intro g' rest' h'
    cases h' with
    | expression hleft hg =>
      obtain ⟨rfl, rfl⟩ := ihleft hleft
      exact ih hg
  | ends hrest =>
    intro g' rest' h'
    cases h' with
    | ends _ => exact ⟨rfl, rfl⟩
    | binary _ hle _ _ => exact absurd hrest (not_ends_operator hle)
  | binary _ hle _ _ ihright ih =>
    intro g' rest' h'
    cases h' with
    | ends hrest => exact absurd hrest (not_ends_operator hle)
    | binary _ _ hright hg =>
      obtain ⟨rfl, rfl⟩ := ihright hright
      exact ih hg

theorem Climbs.ends_of_rest {left : Grouping} (h : Climbs (.rest least left) items g rest) : Ends least rest := by
  generalize haim : Aim.rest least left = aim at h
  induction h generalizing left with
  | operand _ | complement _ | paren _ | expression _ _ => cases haim
  | ends hrest =>
    cases haim
    exact hrest
  | binary _ _ _ _ _ ih =>
    cases haim
    exact ih rfl

theorem Climbs.ends_of_expression (h : Climbs (.expression least) items g rest) : Ends least rest := by
  cases h with
  | expression _ hg => exact hg.ends_of_rest

end Climbing

section Existence

theorem Derives.length_pos {u : List Item} (h : Derives .unary u) : 0 < u.length := by
  cases h <;> simp

theorem Ends.mono {least' : ℕ} (hle : least ≤ least') (h : Ends least rest) : Ends least' rest := by
  cases h with
  | nil => exact .nil
  | closing => exact .closing
  | operator hop hlt => exact .operator hop (hlt.trans_le hle)

theorem Derives.eq_nil_of_ends {s after : List Item} (h : Derives .tail s) (hends : Ends 0 (s ++ after)) : s = [] := by
  cases h with
  | nil => rfl
  | cons _ _ _ => exact absurd hends (not_ends_operator (Nat.zero_le _))

/-- Of the tail `s`, in front of what closes all of it, climbing takes a part and leaves a tail that is no longer. -/
def Reaches (aim : Aim) (items s after : List Item) : Prop :=
  ∃ g s', Climbs aim items g (s' ++ after) ∧ Derives .tail s' ∧ s'.length ≤ s.length

def ClimbableBelow (n : ℕ) : Prop :=
  ∀ {u s after : List Item} (least : ℕ), Derives .unary u → Derives .tail s → Ends 0 after → (u ++ s).length < n →
    Reaches (.expression least) (u ++ (s ++ after)) s after

variable {n : ℕ} {s after : List Item}

theorem exists_climbs_rest (hn : ClimbableBelow n) (hs : Derives .tail s) (hafter : Ends 0 after) (hlt : s.length ≤ n)
    (left : Grouping) : Reaches (.rest least left) (s ++ after) s after := by
  induction hk : s.length using Nat.strong_induction_on generalizing s left with
  | _ k ih =>
    cases hs with
    | nil => exact ⟨left, [], .ends (hafter.mono (Nat.zero_le _)), .nil, le_rfl⟩
    | @cons op u s hop hu hs =>
      rw [List.length_cons] at hlt hk
      by_cases hle : least ≤ op.precedence
      · obtain ⟨right, s₁, hright, hs₁, hlen₁⟩ := hn (op.precedence + 1) hu hs hafter hlt
        have hshort : s₁.length < k := by
          rw [List.length_append] at hk
          omega
        obtain ⟨g, s₂, hg, hs₂, hlen₂⟩ := ih s₁.length hshort hs₁ (by omega) (.binary op left right) rfl
        refine ⟨g, s₂, ?_, hs₂, ?_⟩
        · rw [List.cons_append, List.append_assoc]
          exact .binary hop hle hright hg
        · rw [List.length_cons]
          omega
      · exact ⟨left, _, .ends (.operator hop (by omega)), .cons hop hu hs, le_rfl⟩

theorem exists_climbs_operand (hn : ClimbableBelow n) {u : List Item} (hu : Derives .unary u) (hs : Derives .tail s)
    (hafter : Ends 0 after) (hlt : (u ++ s).length ≤ n) : Reaches .operand (u ++ (s ++ after)) s after := by
  cases hu with
  | @operand i hi => exact ⟨.operand i, s, .operand hi, hs, le_rfl⟩
  | @complement u hu =>
    obtain ⟨g, s', hg, hs', hlen⟩ := hn (Operator.not.precedence + 1) hu hs hafter hlt
    exact ⟨.complement g, s', .complement hg, hs', hlen⟩
  | @paren c hc =>
    cases hc with
    | @chain u t hu ht =>
      -- what stands in parentheses is taken up to the closing one
      have hshort : (u ++ t).length < n := by
        simp only [List.length_cons, List.length_append] at hlt ⊢
        omega
      have hclosing : Ends 0 (.closing :: (s ++ after)) := .closing
      obtain ⟨g, t', hg, ht', -⟩ := hn 0 hu ht hclosing hshort
      obtain rfl := ht'.eq_nil_of_ends hg.ends_of_expression
      refine ⟨g, s, ?_, hs, le_rfl⟩
      have htext : .opening :: (u ++ t ++ [.closing]) ++ (s ++ after) =
          Item.opening :: (u ++ (t ++ .closing :: (s ++ after))) := by simp
      rw [htext]
      exact .paren hg

theorem climbableBelow (n : ℕ) : ClimbableBelow n := by
  induction n with
  | zero =>
    intro u s after least _ _ _ hlt
    omega
  | succ n ih =>
    intro u s after least hu hs hafter hlt
    obtain ⟨left, s₁, hleft, hs₁, hlen₁⟩ := exists_climbs_operand ih hu hs hafter (by omega)
    have hshort : s₁.length ≤ n := by
      rw [List.length_append] at hlt
      omega
    obtain ⟨g, s₂, hg, hs₂, hlen₂⟩ := exists_climbs_rest ih hs₁ hafter hshort left
    exact ⟨g, s₂, .expression hleft hg, hs₂, hlen₂.trans hlen₁⟩

theorem Derives.exists_climbs (h : Derives .chain items) : ∃ g, Climbs (.expression 0) items g [] := by
  cases h with
  | @chain u s hu hs =>
    obtain ⟨g, s', hg, hs', -⟩ := climbableBelow _ 0 hu hs .nil (Nat.lt_succ_self _)
    obtain rfl := hs'.eq_nil_of_ends hg.ends_of_expression
    rw [List.append_nil] at hg
    exact ⟨g, hg⟩

end Existence

section Order

/-- A stack on top of which no operator of the precedence `least` or above waits. -/
def Guards (least : ℕ) (stack : List Item) : Prop :=
  ∀ op, stack.head? = some (.operator op) → op.precedence < least

/-- An operator that binds tightly enough is taken by the expression that is being read: nothing goes out before it. -/
theorem shunt_operator {op : Operator} (hstack : Guards least stack) (hop : op.isPrefix = false)
    (hle : least ≤ op.precedence) : shunt stack (.operator op :: rest) = shunt (.operator op :: stack) rest := by
  have hstays : ∀ i ∈ stack.head?, i.yieldsTo op = false := by
    intro i hi
    cases i with
    | operator top =>
      have := hstack top hi
      exact decide_eq_false (by omega)
    | _ => rfl
  rw [shunt, hop, if_neg Bool.false_ne_true]
  cases stack with
  | nil => rfl
  | cons i stack =>
    have hi := hstays i rfl
    rw [List.takeWhile_cons_of_neg (by simp [hi]), List.dropWhile_cons_of_neg (by simp [hi]), List.nil_append]

theorem shunt_of_ends {op : Operator} (h : Ends (op.precedence + 1) rest) :
    shunt (.operator op :: stack) rest = .operator op :: shunt stack rest := by
  cases h with
  | nil => rfl
  | closing => rfl
  | @operator next rest hop hlt =>
    have hyields : Item.yieldsTo next (.operator op) = true := decide_eq_true (by omega)
    rw [shunt, shunt, hop, if_neg Bool.false_ne_true, if_neg Bool.false_ne_true,
      List.takeWhile_cons_of_pos hyields, List.dropWhile_cons_of_pos hyields, List.cons_append]

/-- What is out already of the expression that is being read. -/
def Aim.done : Aim → List Item
  | .operand | .expression _ => []
  | .rest _ left => left.postorder

/-- The stacks over which an aim is read. An operand may stand over any. -/
def Aim.Over : Aim → List Item → Prop
  | .operand, _ => True
  | .expression least, stack | .rest least _, stack => Guards least stack

theorem Climbs.shunt_eq (h : Climbs aim items g rest) : ∀ {stack : List Item}, aim.Over stack →
    aim.done ++ shunt stack items = g.postorder ++ shunt stack rest := by
  induction h with
  | @operand i rest hi =>
    intro stack _
    cases i with
    | operator | opening | closing => cases hi
    | var | temp | number | call => rfl
  | @complement items rest g hg ih =>
    intro stack _
    have hover : Aim.Over (.expression (Operator.not.precedence + 1)) (.operator .not :: stack) := by
      rintro op ⟨⟩
      exact Nat.lt_succ_self _
    calc shunt stack (.operator .not :: items)
        = shunt (.operator .not :: stack) items := rfl
      _ = g.postorder ++ shunt (.operator .not :: stack) rest := ih hover
      _ = (Grouping.complement g).postorder ++ shunt stack rest := by
        rw [shunt_of_ends hg.ends_of_expression, Grouping.postorder, List.append_assoc, List.singleton_append]
  | @paren items rest g _ ih =>
    intro stack _
    have hover : Aim.Over (.expression 0) (.opening :: stack) := by
      rintro op ⟨⟩
    calc shunt stack (.opening :: items)
        = shunt (.opening :: stack) items := rfl
      _ = g.postorder ++ shunt (.opening :: stack) (.closing :: rest) := ih hover
      _ = g.postorder ++ shunt stack rest := rfl
  | expression _ _ ihleft ih =>
    intro stack hstack
    exact (ihleft trivial).trans (ih hstack)
  | ends _ => exact fun _ => rfl
  | @binary least op items mid rest left right g hop hle hright _ ihright ih =>
    intro stack hstack
    have hover : Aim.Over (.expression (op.precedence + 1)) (.operator op :: stack) := by
      rintro top ⟨⟩
      exact Nat.lt_succ_self _
    calc left.postorder ++ shunt stack (.operator op :: items)
        = left.postorder ++ shunt (.operator op :: stack) items := by rw [shunt_operator hstack hop hle]
      _ = left.postorder ++ (right.postorder ++ shunt (.operator op :: stack) mid) := by rw [← ihright hover]; rfl
      _ = (Grouping.binary op left right).postorder ++ shunt stack mid := by
        rw [shunt_of_ends hright.ends_of_expression, Grouping.postorder]
        simp
      _ = g.postorder ++ shunt stack rest := ih hstack

theorem Derives.isOperand_of_singleton {i : Item} (h : Derives .chain [i]) : i.isOperand = true := by
  generalize hlist : [i] = items at h
  cases h with
  | chain hu _ =>
    cases hu with
    | operand hi =>
      obtain ⟨rfl, -⟩ := List.cons.inj hlist
      exact hi
    | complement hu =>
      have := hu.length_pos
      have := congrArg List.length hlist
      simp only [List.length_cons, List.length_nil, List.length_append] at this
      omega
    | paren _ =>
      have := congrArg List.length hlist
      simp only [List.length_cons, List.length_nil, List.length_append] at this
      omega

theorem Derives.toPostfix_eq (h : Derives .chain items) : toPostfix items = shunt [] items := by
  unfold toPostfix
  split
  · rename_i i
    have hi := h.isOperand_of_singleton
    cases i with
    | operator | opening | closing => cases hi
    | var | temp | number | call => rfl
  · rfl

end Order

section Complements

variable {a b c : Item} {op next : Operator}

theorem derives_complement (ha : a.isOperand = true) (hb : b.isOperand = true) (hc : c.isOperand = true)
    (hop : op.isPrefix = false) (hnext : next.isPrefix = false) :
    Derives .chain [a, .operator op, .operator .not, b, .operator next, c] := by
  have hlast : Derives .tail [.operator next, c] := .cons hnext (.operand hc) .nil
  have htail : Derives .tail [.operator op, .operator .not, b, .operator next, c] :=
    .cons hop (.complement (.operand hb)) hlast
  exact .chain (.operand ha) htail

theorem climbs_into_complement (ha : a.isOperand = true) (hb : b.isOperand = true) (hc : c.isOperand = true)
    (hop : op.isPrefix = false) (hnext : next.isPrefix = false) (hlt : Operator.not.precedence < next.precedence) :
    Climbs (.expression 0) [a, .operator op, .operator .not, b, .operator next, c]
      (.binary op (.operand a) (.complement (.binary next (.operand b) (.operand c)))) [] := by
  have hinner : Climbs (.expression (Operator.not.precedence + 1)) [b, .operator next, c]
      (.binary next (.operand b) (.operand c)) [] :=
    .expression (.operand hb) (.binary hnext hlt (.expression (.operand hc) (.ends .nil)) (.ends .nil))
  exact .expression (.operand ha) (.binary hop (Nat.zero_le _)
    (.expression (.complement hinner) (.ends .nil)) (.ends .nil))

theorem climbs_past_complement (ha : a.isOperand = true) (hb : b.isOperand = true) (hc : c.isOperand = true)
    (hop : op.isPrefix = false) (hnext : next.isPrefix = false) (hle : next.precedence ≤ Operator.not.precedence)
    (hop' : next.precedence ≤ op.precedence) :
    Climbs (.expression 0) [a, .operator op, .operator .not, b, .operator next, c]
      (.binary next (.binary op (.operand a) (.complement (.operand b))) (.operand c)) [] := by
  have hinner : Climbs (.expression (Operator.not.precedence + 1)) [b, .operator next, c] (.operand b)
      [.operator next, c] :=
    .expression (.operand hb) (.ends (.operator hnext (Nat.lt_succ_of_le hle)))
  have hright : Climbs (.expression (op.precedence + 1)) [.operator .not, b, .operator next, c]
      (.complement (.operand b)) [.operator next, c] :=
    .expression (.complement hinner) (.ends (.operator hnext (Nat.lt_succ_of_le hop')))
  exact .expression (.operand ha) (.binary hop (Nat.zero_le _) hright
    (.binary hnext (Nat.zero_le _) (.expression (.operand hc) (.ends .nil)) (.ends .nil)))

end Complements
end Infix

/-- Putting an infix list in postfix order gives the postorder of the one tree that precedence climbing builds from
it. -/
theorem toPostfix_climbs {items : List Item} (h : Infix.Derives .chain items) :
    ∃ g, Infix.Climbs (.expression 0) items g [] ∧
      (∀ g' rest, Infix.Climbs (.expression 0) items g' rest → g' = g ∧ rest = []) ∧
      toPostfix items = g.postorder := by
  obtain ⟨g, hg⟩ := h.exists_climbs
  refine ⟨g, hg, fun g' rest h' => hg.unique h', ?_⟩
  calc toPostfix items
      = shunt [] items := h.toPostfix_eq
    _ = g.postorder ++ shunt [] [] := hg.shunt_eq (by rintro op ⟨⟩)
    _ = g.postorder := List.append_nil _

/-- The complement in `1 * ~2 + 3` takes `2 + 3`, and the one in `1 + ~2 & 3` takes `2` only. -/
theorem toPostfix_climbs_of_complements :
    (∃ items : List Item, items = [.number 1, .operator (.arith .mul), .operator .not, .number 2,
        .operator (.arith .add), .number 3] ∧ Infix.Derives .chain items ∧
      Infix.Climbs (.expression 0) items (.binary (.arith .mul) (.operand (.number 1)) (.complement
        (.binary (.arith .add) (.operand (.number 2)) (.operand (.number 3))))) [] ∧
      toPostfix items = [.number 1, .number 2, .number 3, .operator (.arith .add), .operator .not,
        .operator (.arith .mul)]) ∧
    ∃ items : List Item, items = [.number 1, .operator (.arith .add), .operator .not, .number 2,
        .operator (.arith .bitAnd), .number 3] ∧ Infix.Derives .chain items ∧
      Infix.Climbs (.expression 0) items (.binary (.arith .bitAnd) (.binary (.arith .add) (.operand (.number 1))
        (.complement (.operand (.number 2)))) (.operand (.number 3))) [] ∧
      toPostfix items = [.number 1, .number 2, .operator .not, .operator (.arith .add), .number 3,
        .operator (.arith .bitAnd)] := by
  have hone : ∀ {items : List Item} {g : Grouping}, Infix.Derives .chain items →
      Infix.Climbs (.expression 0) items g [] → Infix.Derives .chain items ∧ Infix.Climbs (.expression 0) items g [] ∧
        toPostfix items = g.postorder := by
    intro items g hderives hg
    obtain ⟨_, -, hunique, hpostfix⟩ := toPostfix_climbs hderives
    obtain ⟨rfl, -⟩ := hunique _ _ hg
    exact ⟨hderives, hg, hpostfix⟩
  refine ⟨⟨_, rfl, hone ?_ ?_⟩, _, rfl, hone ?_ ?_⟩
  · exact Infix.derives_complement rfl rfl rfl rfl rfl
  · exact Infix.climbs_into_complement rfl rfl rfl rfl rfl (by decide)
  · exact Infix.derives_complement rfl rfl rfl rfl rfl
  · exact Infix.climbs_past_complement rfl rfl rfl rfl rfl (by decide) (by decide)

end Bitpack
