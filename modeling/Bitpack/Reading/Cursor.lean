import Bitpack.Reading.Unit

/-! A cursor over the tokens of a text. It moves one token at a time, never back and never past the end
of the text, and a reader that fails leaves it where the failure was met. The loops in which statements
and items are read keep a record of their turns. -/

namespace Bitpack

/-- The loops whose turns are recorded, from the innermost one. -/
inductive Loop
  /-- The attempts at a statement, each at what follows the last faulty one. -/
  | attempts
  | statements
  | items
  deriving DecidableEq, Repr

/-- The number of loops inside. -/
def Loop.level : Loop → Nat
  | .attempts => 0
  | .statements => 1
  | .items => 2

/-- A turn of a loop, with the positions at which it began and ended. -/
structure Turn where
  loop : Loop
  start : Nat
  stop : Nat
  deriving DecidableEq, Repr

/-- Turns between two positions, one after the other, each of which takes at least one token. -/
inductive Turns : Nat → List Turn → Nat → Prop
  | nil {lo hi : Nat} (h : lo ≤ hi) : Turns lo [] hi
  | cons {lo hi : Nat} {t : Turn} {ts : List Turn} (hlo : lo ≤ t.start) (hlt : t.start < t.stop)
      (h : Turns t.stop ts hi) : Turns lo (t :: ts) hi

namespace Turns

variable {lo mid hi : Nat} {ts ts' : List Turn}

theorem mono (h : Turns mid ts hi) (hle : lo ≤ mid) : Turns lo ts hi := by
  cases h with
  | nil h => exact .nil (Nat.le_trans hle h)
  | cons hlo hlt h => exact .cons (Nat.le_trans hle hlo) hlt h

theorem append (h : Turns lo ts mid) (h' : Turns mid ts' hi) : Turns lo (ts ++ ts') hi := by
  induction h with
  | nil hle => exact h'.mono hle
  | cons hlo hlt _ ih => exact .cons hlo hlt (ih h')

theorem length_le (h : Turns lo ts hi) : lo + ts.length ≤ hi := by
  induction h with
  | nil hle => exact hle
  | cons hlo hlt _ ih => simp only [List.length_cons]; omega

theorem bounds (h : Turns lo ts hi) {t : Turn} (ht : t ∈ ts) : lo ≤ t.start ∧ t.stop ≤ hi := by
  induction h with
  | nil => cases ht
  | cons hlo hlt h ih =>
    cases ht with
    | head => exact ⟨hlo, Nat.le_trans (Nat.le_add_right _ _) h.length_le⟩
    | tail _ ht =>
      obtain ⟨hs, he⟩ := ih ht
      exact ⟨by omega, he⟩

end Turns

/-- What the loops below level `n` record between two positions: those of each loop follow each other,
and each lies in a turn of the loop around it, as far as that loop is below level `n` too. -/
structure Record (n lo : Nat) (ts : List Turn) (hi : Nat) : Prop where
  level : ∀ t ∈ ts, t.loop.level < n
  turns : ∀ loop, Turns lo (ts.filter (·.loop = loop)) hi
  inside : ∀ t ∈ ts, t.loop.level + 1 < n →
    ∃ u ∈ ts, u.loop.level = t.loop.level + 1 ∧ u.start ≤ t.start ∧ t.stop ≤ u.stop

namespace Record

variable {n lo mid hi : Nat} {ts ts' : List Turn}

theorem nil (h : lo ≤ hi) : Record n lo [] hi :=
  ⟨by simp, fun _ => .nil h, by simp⟩

theorem append (h : Record n lo ts mid) (h' : Record n mid ts' hi) : Record n lo (ts ++ ts') hi where
  level t ht := (List.mem_append.1 ht).elim (h.level t) (h'.level t)
  turns loop := by
    rw [List.filter_append]
    exact (h.turns loop).append (h'.turns loop)
  inside t ht hn := by
    rcases List.mem_append.1 ht with ht | ht
    · obtain ⟨u, hu, hin⟩ := h.inside t ht hn
      exact ⟨u, List.mem_append_left _ hu, hin⟩
    · obtain ⟨u, hu, hin⟩ := h'.inside t ht hn
      exact ⟨u, List.mem_append_right _ hu, hin⟩

/-- A turn of the loop at level `n`, around what was recorded during it. -/
theorem turn (h : Record n lo ts hi) (hlt : lo < hi) {loop : Loop} (hn : loop.level = n) :
    Record (n + 1) lo (ts ++ [⟨loop, lo, hi⟩]) hi where
  level t ht := by
    rcases List.mem_append.1 ht with ht | ht
    · exact Nat.lt_succ_of_lt (h.level t ht)
    · rw [List.mem_singleton.1 ht, hn]
      exact Nat.lt_succ_self n
  turns l := by
    rw [List.filter_append]
    by_cases hl : loop = l
    · have hnone : ts.filter (·.loop = l) = [] := by
        refine List.filter_eq_nil_iff.2 fun t ht heq => ?_
        have := h.level t ht
        rw [of_decide_eq_true heq, ← hl] at this
        omega
      rw [hnone, List.filter_cons_of_pos (by simpa using hl)]
      exact .cons (Nat.le_refl _) hlt (.nil (Nat.le_refl _))
    · rw [List.filter_cons_of_neg (by simpa using hl), List.filter_nil, List.append_nil]
      exact h.turns l
  inside t ht hlevel := by
    rcases List.mem_append.1 ht with ht | ht
    · by_cases hin : t.loop.level + 1 < n
      · obtain ⟨u, hu, hout⟩ := h.inside t ht hin
        exact ⟨u, List.mem_append_left _ hu, hout⟩
      · obtain ⟨hlo, hhi⟩ := (h.turns t.loop).bounds (List.mem_filter.2 ⟨ht, decide_eq_true rfl⟩)
        refine ⟨⟨loop, lo, hi⟩, List.mem_append_right _ (List.mem_singleton.2 rfl), ?_, hlo, hhi⟩
        show loop.level = t.loop.level + 1
        omega
    · rw [List.mem_singleton.1 ht] at hlevel
      change loop.level + 1 < n + 1 at hlevel
      omega

end Record

structure Cursor where
  tokens : Array Token
  /-- The length of the text in bytes. -/
  length : Nat
  pos : Nat := 0
  /-- The turns that have ended, which nothing depends on. -/
  turns : List Turn := []

namespace Cursor

/-- Past the tokens there is only the end of the text. -/
def tokenAt (c : Cursor) (i : Nat) : Token :=
  c.tokens.getD i (Token.finish c.length)

def next (c : Cursor) : Token :=
  c.tokenAt c.pos

/-- The end of the text is never passed. -/
def advance (c : Cursor) : Cursor :=
  if c.next.kind = .finish then c else { c with pos := c.pos + 1 }

/-- The next token is neither one of the `stops` nor the end of the text. -/
def before (c : Cursor) (stops : List Kind) : Bool :=
  !stops.contains c.next.kind && c.next.kind ≠ .finish

/-- Records that a turn which began at `start` has ended. -/
def record (c : Cursor) (loop : Loop) (start : Nat) : Cursor :=
  { c with turns := c.turns ++ [⟨loop, start, c.pos⟩] }

/-- The number of turns of a loop. -/
def count (c : Cursor) (loop : Loop) : Nat :=
  c.turns.countP (·.loop = loop)

/-- The number of tokens that are left. -/
def left (c : Cursor) : Nat :=
  c.tokens.size - c.pos

/-- How the cursor can go on while the loops below level `n` run. -/
structure Reaches (n : Nat) (c d : Cursor) : Prop where
  tokens : d.tokens = c.tokens
  length : d.length = c.length
  le : c.pos ≤ d.pos
  passed : ∀ i, c.pos ≤ i → i < d.pos → (c.tokenAt i).kind ≠ .finish
  turns : ∃ ts, d.turns = c.turns ++ ts ∧ Record n c.pos ts d.pos

variable {n : Nat} {c d e : Cursor}

theorem count_advance (c : Cursor) (loop : Loop) : c.advance.count loop = c.count loop := by
  unfold advance
  split <;> rfl

theorem count_record_self (c : Cursor) (loop : Loop) (start : Nat) :
    (c.record loop start).count loop = c.count loop + 1 := by
  simp [record, count]

theorem count_record_ne (c : Cursor) {loop other : Loop} (h : other ≠ loop) (start : Nat) :
    (c.record other start).count loop = c.count loop := by
  simp [record, count, h]

theorem kind_ne_of_before {stops : List Kind} (h : c.before stops = true) : c.next.kind ≠ .finish := by
  simp only [before, ne_eq, decide_not, Bool.and_eq_true, Bool.not_eq_true', decide_eq_false_iff_not] at h
  exact h.2

theorem pos_lt_size (h : c.next.kind ≠ .finish) : c.pos < c.tokens.size := by
  refine Nat.lt_of_not_le fun hle => h ?_
  rw [next, tokenAt, Array.getD_eq_getD_getElem?, Array.getElem?_eq_none hle]
  rfl

namespace Reaches

theorem refl (c : Cursor) : c.Reaches n c :=
  ⟨rfl, rfl, Nat.le_refl _, fun _ hle hlt => by omega, [], (List.append_nil _).symm, .nil (Nat.le_refl _)⟩

theorem tokenAt (h : c.Reaches n d) (i : Nat) : d.tokenAt i = c.tokenAt i := by
  rw [Cursor.tokenAt, Cursor.tokenAt, h.tokens, h.length]

theorem next_eq (h : c.Reaches n d) (hpos : d.pos = c.pos) : d.next = c.next := by
  rw [next, h.tokenAt, hpos, next]

theorem trans (h : c.Reaches n d) (h' : d.Reaches n e) : c.Reaches n e where
  tokens := h'.tokens.trans h.tokens
  length := h'.length.trans h.length
  le := Nat.le_trans h.le h'.le
  passed i hle hlt := by
    by_cases hi : i < d.pos
    · exact h.passed i hle hi
    · rw [← h.tokenAt]
      exact h'.passed i (Nat.le_of_not_lt hi) hlt
  turns := by
    obtain ⟨ts, hts, hrec⟩ := h.turns
    obtain ⟨ts', hts', hrec'⟩ := h'.turns
    exact ⟨ts ++ ts', by rw [hts', hts, List.append_assoc], hrec.append hrec'⟩

theorem advance (c : Cursor) : c.Reaches n c.advance := by
  unfold Cursor.advance
  split
  · exact refl c
  · rename_i hne
    refine ⟨rfl, rfl, Nat.le_succ _, fun i hle hlt => ?_, [], (List.append_nil _).symm, .nil (Nat.le_succ _)⟩
    have hi : i = c.pos := Nat.le_antisymm (Nat.le_of_lt_succ hlt) hle
    rw [hi]
    exact hne

/-- Around what happened in between there was a turn of the loop at level `n`. -/
theorem record (h : c.Reaches n d) (hlt : c.pos < d.pos) {loop : Loop} (hn : loop.level = n) :
    c.Reaches (n + 1) (d.record loop c.pos) where
  tokens := h.tokens
  length := h.length
  le := h.le
  passed := h.passed
  turns := by
    obtain ⟨ts, hts, hrec⟩ := h.turns
    exact ⟨ts ++ [⟨loop, c.pos, d.pos⟩], by rw [Cursor.record, hts, List.append_assoc], hrec.turn hlt hn⟩

theorem left_le (h : c.Reaches n d) : d.left ≤ c.left := by
  have := h.le
  rw [left, left, h.tokens]
  omega

theorem left_lt (h : c.Reaches n d) (hne : c.next.kind ≠ .finish) (hlt : c.pos < d.pos) : d.left < c.left := by
  have := pos_lt_size hne
  rw [left, left, h.tokens]
  omega

end Reaches

theorem pos_advance (h : c.next.kind ≠ .finish) : c.advance.pos = c.pos + 1 := by
  rw [advance, if_neg h]

theorem pos_lt_advance (h : c.next.kind ≠ .finish) : c.pos < c.advance.pos :=
  Nat.lt_of_lt_of_eq (Nat.lt_succ_self _) (pos_advance h).symm

theorem left_advance_lt (h : c.next.kind ≠ .finish) : c.advance.left < c.left := by
  have := pos_lt_size h
  simp only [advance, if_neg h, left]
  omega

namespace Reaches

theorem left_advance_lt (h : c.Reaches n d) (hd : d.next.kind ≠ .finish) : d.advance.left < c.left :=
  Nat.lt_of_lt_of_le (Cursor.left_advance_lt hd) h.left_le

theorem left_lt_of_advance (h : c.advance.Reaches n d) (hc : c.next.kind ≠ .finish) : d.left < c.left :=
  Nat.lt_of_le_of_lt h.left_le (Cursor.left_advance_lt hc)

end Reaches
end Cursor
end Bitpack
