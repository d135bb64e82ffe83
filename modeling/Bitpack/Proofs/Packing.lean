import Mathlib
import Bitpack.Proofs.FirstFit

/-! What packing promises. Where it comes to an end, it is first fit on the widths in their order: every group is filled
from its start without a gap, and no two slots overlap. It may break off instead, where a load and a width have a sum that
leaves 32 bits. -/

namespace Bitpack

/-- Slots for widths, inside of groups of `g` bits and apart from each other. -/
structure Layout.Packs (l : Layout) (g : ℕ) (widths : List ℕ) : Prop where
  length : l.slots.length = widths.length
  within : ∀ p ∈ l.slots.zip widths, p.1.group < l.groupCount ∧ p.1.offset + p.2 ≤ g
  apart : (l.slots.zip widths).Pairwise fun p q => p.1.Apart p.2 q.1 q.2

/-- The slot of the width with this index. -/
def Layout.slotAt (l : Layout) (i : ℕ) : Slot :=
  l.slots.getD i default

namespace Packing

namespace State

/-- The bits used in a group. -/
def load (s : State) (group : ℕ) : ℕ :=
  (s.used.getD group 0).toNat

def slotAt (s : State) (index : ℕ) : Slot :=
  s.slots.getD index ⟨0, 0⟩

end State

variable {s s' : State} {g width : UInt32} {item : ℕ × ℕ} {k : ℕ}

section Steps

theorem add_eq_ok {a b c : UInt32} : add a b = .ok c ↔ c.toNat = a.toNat + b.toNat := by
  unfold add
  split_ifs with hsum
  · rw [Except.ok.injEq, ← UInt32.toNat_inj, UInt32.toNat_add, Nat.mod_eq_of_lt hsum, eq_comm]
  · refine iff_of_false (by simp) fun h => hsum ?_
    rw [← h]
    exact c.toNat_lt

theorem add_eq_error {a b : UInt32} {e : PackError} :
    add a b = .error e ↔ 2 ^ 32 ≤ a.toNat + b.toNat ∧ e = .overflow := by
  unfold add
  split_ifs with hsum
  · exact iff_of_false (by simp) fun h => absurd hsum (not_lt.2 h.1)
  · rw [Except.error.injEq]
    exact ⟨fun h => ⟨not_lt.1 hsum, h.symm⟩, fun h => h.2.symm⟩

/-- A group is tried and has no room: its load and the width have a sum, and it is too much. -/
def Passes (g width load : ℕ) : Prop :=
  g < load + width ∧ load + width < 2 ^ 32

/-- What the search for a group with room comes to, given the loads of the `n` open groups. -/
inductive Finds (g width : ℕ) (load : ℕ → ℕ) (n : ℕ) : Except PackError (Option ℕ) → Prop
  | room {k : ℕ} (hk : k < n) (hpassed : ∀ j < k, Passes g width (load j)) (hfit : load k + width ≤ g) :
      Finds g width load n (.ok (some k))
  | none (hpassed : ∀ j < n, Passes g width (load j)) : Finds g width load n (.ok none)
  | overflow {k : ℕ} (hk : k < n) (hpassed : ∀ j < k, Passes g width (load j)) (hover : 2 ^ 32 ≤ load k + width) :
      Finds g width load n (.error .overflow)

theorem forall_lt_succ {P : ℕ → Prop} {n : ℕ} (hzero : P 0) (hsucc : ∀ j < n, P (j + 1)) : ∀ j < n + 1, P j := by
  intro j hj
  cases j with
  | zero => exact hzero
  | succ j => exact hsucc j (Nat.lt_of_succ_lt_succ hj)

theorem finds_search (used : List UInt32) : Finds g.toNat width.toNat (fun j => (used.getD j 0).toNat) used.length
    (search g width used) := by
  induction used with
  | nil => exact .none fun j hj => absurd hj (Nat.not_lt_zero j)
  | cons used rest ih =>
    rw [search]
    cases hadd : add used width with
    | error e =>
      obtain ⟨hover, rfl⟩ := add_eq_error.1 hadd
      exact .overflow (k := 0) (Nat.succ_pos _) (fun j hj => absurd hj (Nat.not_lt_zero j)) hover
    | ok sum =>
      have hsum : sum.toNat = used.toNat + width.toNat := add_eq_ok.1 hadd
      change Finds _ _ _ _ (if sum ≤ g then _ else _)
      split_ifs with hfit
      all_goals rw [UInt32.le_iff_toNat_le, hsum] at hfit
      · exact .room (k := 0) (Nat.succ_pos _) (fun j hj => absurd hj (Nat.not_lt_zero j)) hfit
      · have hpass : Passes g.toNat width.toNat used.toNat := ⟨not_le.1 hfit, hsum ▸ sum.toNat_lt⟩
        cases hrest : search g width rest with
        | error e =>
          rw [hrest] at ih
          cases ih with
          | overflow hk hpassed hover =>
            exact .overflow (Nat.succ_lt_succ hk) (forall_lt_succ hpass hpassed) hover
        | ok found =>
          rw [hrest] at ih
          cases ih with
          | room hk hpassed hroom => exact .room (Nat.succ_lt_succ hk) (forall_lt_succ hpass hpassed) hroom
          | none hpassed => exact .none (forall_lt_succ hpass hpassed)

theorem finds_search_used (g width : UInt32) (s : State) :
    Finds g.toNat width.toNat s.load s.used.size (search g width s.used.toList) := by
  have hfinds : Finds _ _ _ _ (search g width s.used.toList) := finds_search s.used.toList
  have hload : (fun j => (s.used.toList.getD j 0).toNat) = s.load := by
    funext j
    rw [List.getD_eq_getElem?_getD, Array.getElem?_toList, State.load, Array.getD_eq_getD_getElem?]
  rwa [hload, Array.length_toList] at hfinds

/-- A width is put in the group `k`, behind all that it holds. All other groups and slots stay as they are. -/
structure Puts (width index k : ℕ) (s s' : State) : Prop where
  load : s'.load k = s.load k + width
  load_of_ne : ∀ j ≠ k, s'.load j = s.load j
  size_slots : s'.slots.size = s.slots.size
  slotAt : index < s.slots.size → s'.slotAt index = ⟨k, s.load k⟩
  slotAt_of_ne : ∀ i ≠ index, s'.slotAt i = s.slotAt i

theorem exists_put {group : ℕ} (index : ℕ) (hgroup : group < s.used.size)
    (hsum : s.load group + width.toNat < 2 ^ 32) :
    ∃ s', s.put group index width = .ok s' ∧ s'.used.size = s.used.size ∧ Puts width.toNat index group s s' := by
  unfold State.put
  dsimp only
  cases hadd : add (s.used.getD group 0) width with
  | error e => exact absurd hsum (not_lt.2 (add_eq_error.1 hadd).1)
  | ok sum =>
    refine ⟨_, rfl, by simp, ?_, fun j hj => ?_, by simp, fun hi => ?_, fun i hi => ?_⟩
    · rw [State.load, Array.getD_eq_getD_getElem?, Array.getElem?_setIfInBounds_self_of_lt hgroup, Option.getD_some]
      exact add_eq_ok.1 hadd
    · rw [State.load, Array.getD_eq_getD_getElem?, Array.getElem?_setIfInBounds_ne hj.symm,
        ← Array.getD_eq_getD_getElem?, ← State.load]
    · rw [State.slotAt, Array.getD_eq_getD_getElem?, Array.getElem?_setIfInBounds_self_of_lt hi, Option.getD_some,
        State.load]
    · rw [State.slotAt, Array.getD_eq_getD_getElem?, Array.getElem?_setIfInBounds_ne hi.symm,
        ← Array.getD_eq_getD_getElem?, ← State.slotAt]

theorem load_push (s : State) (k : ℕ) : State.load { s with used := s.used.push 0 } k = s.load k := by
  unfold State.load
  rw [Array.getD_eq_getD_getElem?, Array.getD_eq_getD_getElem?, Array.getElem?_push]
  split_ifs with hk
  · rw [hk, Array.getElem?_eq_none le_rfl]
    rfl
  · rfl

theorem load_size (s : State) : s.load s.used.size = 0 := by
  simp [State.load]

/-- What a step comes to: the width is put in the first group with room, which may be a new one. -/
inductive Steps (g : ℕ) (s : State) (width index : ℕ) : Except (ℕ × PackError) State → Prop
  | puts {k : ℕ} {s' : State} (hk : k ≤ s.used.size) (hpassed : ∀ j < k, Passes g width (s.load j))
      (hfit : s.load k + width ≤ g) (hroom : k = s.used.size → k < maxGroups)
      (hsize : s'.used.size = max s.used.size (k + 1)) (hputs : Puts width index k s s') :
      Steps g s width index (.ok s')
  | exhausted (hfull : maxGroups ≤ s.used.size) (hpassed : ∀ j < s.used.size, Passes g width (s.load j)) :
      Steps g s width index (.error (index, .exhausted))
  | overflow {k : ℕ} (hk : k < s.used.size) (hpassed : ∀ j < k, Passes g width (s.load j))
      (hover : 2 ^ 32 ≤ s.load k + width) : Steps g s width index (.error (index, .overflow))

theorem toNat_toUInt32_of_le {width : ℕ} (h : width ≤ g.toNat) : width.toUInt32.toNat = width := by
  rw [Nat.toUInt32, UInt32.toNat_ofNat', Nat.mod_eq_of_lt (by have := g.toNat_lt; omega)]

section Place

variable {index : ℕ}

theorem place_of_some {k : ℕ} (h : search g width s.used.toList = .ok (some k)) :
    s.place g index width = s.put k index width := by
  rw [State.place, h]
  rfl

theorem place_of_none (h : search g width s.used.toList = .ok none) (hroom : s.used.size < maxGroups) :
    s.place g index width = State.put { s with used := s.used.push 0 } s.used.size index width := by
  simp only [State.place, h, openGroup?, if_pos hroom]
  rfl

theorem place_of_full (h : search g width s.used.toList = .ok none) (hfull : ¬ s.used.size < maxGroups) :
    s.place g index width = .error .exhausted := by
  simp only [State.place, h, openGroup?, if_neg hfull]
  rfl

theorem place_of_error {e : PackError} (h : search g width s.used.toList = .error e) :
    s.place g index width = .error e := by
  rw [State.place, h]
  rfl

end Place

theorem steps_step (s : State) (hwidth : item.1 ≤ g.toNat) : Steps g.toNat s item.1 item.2 (step g s item) := by
  have htoNat := toNat_toUInt32_of_le hwidth
  have hfinds := finds_search_used g item.1.toUInt32 s
  have hlt := g.toNat_lt
  generalize hsearch : search g item.1.toUInt32 s.used.toList = found at hfinds
  rw [htoNat] at hfinds
  rw [step]
  cases hfinds with
  | @room k hk hpassed hfit =>
    obtain ⟨s', hput, hsize, hputs⟩ := @exists_put s item.1.toUInt32 k item.2 hk (by rw [htoNat]; omega)
    rw [htoNat] at hputs
    rw [place_of_some hsearch, hput]
    exact .puts hk.le hpassed hfit (by omega) (by rw [hsize]; omega) hputs
  | none hpassed =>
    by_cases hroom : s.used.size < maxGroups
    · have hload := load_push s
      obtain ⟨s', hput, hsize, hputs⟩ := @exists_put { s with used := s.used.push 0 } item.1.toUInt32 s.used.size
        item.2 (by simp) (by rw [hload, load_size, htoNat]; omega)
      rw [htoNat] at hputs
      rw [place_of_none hsearch hroom, hput]
      refine .puts le_rfl hpassed (by rw [load_size]; omega) (fun _ => hroom) (by simpa using hsize)
        ⟨?_, fun j hj => ?_, hputs.size_slots, fun hi => ?_, hputs.slotAt_of_ne⟩
      · rw [hputs.load, hload]
      · rw [hputs.load_of_ne j hj, hload]
      · rw [hputs.slotAt hi, hload]
    · rw [place_of_full hsearch hroom]
      exact .exhausted (not_lt.1 hroom) hpassed
  | overflow hk hpassed hover =>
    rw [place_of_error hsearch]
    exact .overflow hk hpassed hover

end Steps

/-- The items of `placed`, each a width with its index, have the slots that first fit gives them, and the state knows
what each group holds. -/
structure Placing (g n : ℕ) (placed : List (ℕ × ℕ)) (s : State) : Prop where
  size : s.slots.size = n
  loads : ∀ k, s.load k = loadOf (placed.map fun p => (p.1, s.slotAt p.2)) k
  firstFit : FirstFit g (placed.map fun p => (p.1, s.slotAt p.2)) s.used.size

theorem Placing.step {n : ℕ} {placed : List (ℕ × ℕ)} (h : Placing g.toNat n placed s) (hwidth : item.1 ≤ g.toNat)
    (hindex : item.2 < n) (hnew : ∀ p ∈ placed, p.2 ≠ item.2) (hs : Packing.step g s item = .ok s') :
    Placing g.toNat n (item :: placed) s' := by
  have hsteps := steps_step s hwidth
  rw [hs] at hsteps
  obtain ⟨hk, hpassed, hfit, hroom, hsize, hputs⟩ := hsteps
  rename_i k
  have hself : s'.slotAt item.2 = ⟨k, s.load k⟩ := hputs.slotAt (by rw [h.size]; exact hindex)
  have hothers : placed.map (fun p => (p.1, s'.slotAt p.2)) = placed.map fun p => (p.1, s.slotAt p.2) :=
    List.map_congr_left fun p hp => by rw [hputs.slotAt_of_ne _ (hnew p hp)]
  refine ⟨by rw [hputs.size_slots, h.size], fun j => ?_, ?_⟩
  · rw [List.map_cons, hself, hothers, loadOf_cons, ← h.loads]
    split_ifs with hj
    · obtain rfl : k = j := hj
      rw [hputs.load, Nat.add_comm]
    · rw [hputs.load_of_ne j (Ne.symm hj), Nat.zero_add]
  · have hroom : k < maxGroups := by
      rcases Nat.lt_or_eq_of_le hk with hlt | heq
      · exact hlt.trans_le h.firstFit.count_le
      · exact hroom heq
    rw [List.map_cons, hself, hothers, hsize, h.loads k]
    refine h.firstFit.place hk hroom (by rw [← h.loads]; exact hfit) fun j hj => ?_
    rw [← h.loads]
    exact (hpassed j hj).1

theorem order_perm (widths : List ℕ) : (order widths).Perm widths.zipIdx :=
  List.mergeSort_perm _ _

theorem mem_order {widths : List ℕ} {p : ℕ × ℕ} :
    p ∈ order widths ↔ p.2 < widths.length ∧ p.1 = widths.getD p.2 0 := by
  rw [(order_perm widths).mem_iff, List.mem_zipIdx_iff_getElem?, List.getElem?_eq_some_iff, List.getD_eq_getElem?_getD]
  constructor
  · rintro ⟨hlt, heq⟩
    exact ⟨hlt, by rw [List.getElem?_eq_getElem hlt, Option.getD_some, heq]⟩
  · rintro ⟨hlt, heq⟩
    exact ⟨hlt, by rw [heq, List.getElem?_eq_getElem hlt, Option.getD_some]⟩

theorem order_nodup (widths : List ℕ) : ((order widths).map (·.2)).Nodup := by
  rw [((order_perm widths).map _).nodup_iff, show (fun p : ℕ × ℕ => p.2) = Prod.snd from rfl, List.zipIdx_map_snd]
  exact List.nodup_range'

theorem front_nodup {widths : List ℕ} {front back : List (ℕ × ℕ)} (h : order widths = front ++ back) :
    (front.map (·.2)).Nodup := by
  have hnodup := order_nodup widths
  rw [h, List.map_append, List.nodup_append] at hnodup
  exact hnodup.1

theorem of_mem_front {widths : List ℕ} {front back : List (ℕ × ℕ)} (h : order widths = front ++ back) {p : ℕ × ℕ}
    (hp : p ∈ front) : p.2 < widths.length ∧ p.1 = widths.getD p.2 0 := by
  rw [← mem_order, h]
  exact List.mem_append_left back hp

theorem getD_le {g : ℕ} {widths : List ℕ} (h : ∀ w ∈ widths, w ≤ g) (i : ℕ) : widths.getD i 0 ≤ g := by
  by_cases hi : i < widths.length
  · rw [List.getD_eq_getElem _ _ hi]
    exact h _ (List.getElem_mem hi)
  · rw [List.getD_eq_default _ _ (by omega)]
    exact Nat.zero_le g

theorem le_of_find? {g : ℕ} {widths : List ℕ} (h : widths.zipIdx.find? (fun item => g < item.1) = none) :
    ∀ w ∈ widths, w ≤ g := by
  intro w hw
  obtain ⟨i, hi, rfl⟩ := List.getElem_of_mem hw
  have := List.find?_eq_none.1 h (widths[i], i) (List.mem_zipIdx_iff_getElem?.2 (List.getElem?_eq_getElem hi))
  simpa using this

/-- Nothing is placed yet. -/
def State.start (n : ℕ) : State :=
  ⟨#[], Array.replicate n ⟨0, 0⟩⟩

/-- The widths that come first in the order lead to the state `s`. -/
def Leads (g : UInt32) (widths : List ℕ) (front : List (ℕ × ℕ)) (s : State) : Prop :=
  front.foldlM (step g) (State.start widths.length) = .ok s

section Runs

variable {widths : List ℕ} {front back : List (ℕ × ℕ)}

theorem Leads.snoc (h : Leads g widths (front ++ [item]) s') :
    ∃ s, Leads g widths front s ∧ step g s item = .ok s' := by
  unfold Leads at *
  rw [List.foldlM_append] at h
  cases hs : front.foldlM (step g) (State.start widths.length) with
  | error e =>
    rw [hs] at h
    cases h
  | ok s =>
    rw [hs] at h
    refine ⟨s, rfl, ?_⟩
    change List.foldlM (step g) s [item] = .ok s' at h
    rw [List.foldlM_cons] at h
    cases hstep : step g s item with
    | error e =>
      rw [hstep] at h
      cases h
    | ok t =>
      rw [hstep] at h
      exact h

theorem Leads.induction {P : List (ℕ × ℕ) → State → Prop} (hstart : P [] (State.start widths.length))
    (hstep : ∀ front item back s s', order widths = front ++ item :: back → Leads g widths front s → P front s →
      step g s item = .ok s' → P (front ++ [item]) s')
    (horder : order widths = front ++ back) (h : Leads g widths front s) : P front s := by
  induction front using List.reverseRecOn generalizing back s with
  | nil =>
    cases h
    exact hstart
  | append_singleton front item ih =>
    obtain ⟨t, ht, hs⟩ := h.snoc
    rw [List.append_assoc, List.singleton_append] at horder
    exact hstep front item back t s horder ht (ih horder ht) hs

theorem of_order (horder : order widths = front ++ item :: back) :
    item.2 < widths.length ∧ item.1 = widths.getD item.2 0 := by
  rw [← mem_order, horder]
  exact List.mem_append_right _ List.mem_cons_self

theorem width_le_of_order (hle : ∀ w ∈ widths, w ≤ g.toNat) (horder : order widths = front ++ item :: back) :
    item.1 ≤ g.toNat :=
  (of_order horder).2 ▸ getD_le hle item.2

theorem ne_of_order (horder : order widths = front ++ item :: back) : ∀ p ∈ front, p.2 ≠ item.2 := by
  intro p hp
  have hnodup := order_nodup widths
  rw [horder, List.map_append, List.nodup_append] at hnodup
  exact hnodup.2.2 _ (List.mem_map_of_mem hp) _ List.mem_cons_self

theorem Leads.placing (hle : ∀ w ∈ widths, w ≤ g.toNat) (horder : order widths = front ++ back)
    (h : Leads g widths front s) : Placing g.toNat widths.length front.reverse s := by
  refine h.induction (P := fun front s => Placing g.toNat widths.length front.reverse s) ?_ ?_ horder
  · exact ⟨by simp [State.start], fun _ => rfl, .nil⟩
  · intro front item back s s' horder _ ih hstep
    rw [List.reverse_append, List.reverse_singleton, List.singleton_append]
    refine ih.step (width_le_of_order hle horder) (of_order horder).1 (fun p hp => ?_) hstep
    exact ne_of_order horder p (List.mem_reverse.1 hp)

end Runs

theorem exists_of_foldlM_error {ε σ α : Type} {f : σ → α → Except ε σ} {e : ε} (items : List α) :
    ∀ {s : σ}, items.foldlM f s = .error e → ∃ front item back s', items = front ++ item :: back ∧
      front.foldlM f s = .ok s' ∧ f s' item = .error e := by
  induction items with
  | nil =>
    intro s h
    cases h
  | cons item items ih =>
    intro s h
    rw [List.foldlM_cons] at h
    cases hstep : f s item with
    | error d =>
      rw [hstep] at h
      cases h
      exact ⟨[], item, items, s, rfl, rfl, hstep⟩
    | ok s₁ =>
      rw [hstep] at h
      obtain ⟨front, last, back, s', rfl, hfront, hlast⟩ := ih h
      refine ⟨item :: front, last, back, s', rfl, ?_, hlast⟩
      rw [List.foldlM_cons, hstep]
      exact hfront

end Packing

/-- The widths with their slots, in the reverse of the order in which they were placed. -/
def Layout.placed (l : Layout) (widths : List ℕ) : List (ℕ × Slot) :=
  (Packing.order widths).reverse.map fun p => (p.1, l.slotAt p.2)

theorem Layout.mem_placed {l : Layout} {widths : List ℕ} {p : ℕ × Slot} :
    p ∈ l.placed widths ↔ ∃ i < widths.length, p = (widths.getD i 0, l.slotAt i) := by
  have horder : ∀ q, q ∈ (Packing.order widths).reverse ↔ widths[q.2]? = some q.1 := fun q =>
    List.mem_reverse.trans ((Packing.order_perm widths).mem_iff.trans List.mem_zipIdx_iff_getElem?)
  constructor
  · intro hp
    obtain ⟨⟨width, i⟩, hmem, rfl⟩ := List.mem_map.1 hp
    have hget := (horder _).1 hmem
    exact ⟨i, (List.getElem?_eq_some_iff.1 hget).1, by rw [List.getD_eq_getElem?_getD, hget, Option.getD_some]⟩
  · rintro ⟨i, hi, rfl⟩
    exact List.mem_map.2 ⟨(widths.getD i 0, i), (horder _).2 (by simp [hi]), rfl⟩

theorem zip_slots_eq {l : Layout} {widths : List ℕ} (h : l.slots.length = widths.length) :
    l.slots.zip widths = widths.zipIdx.map fun p => (l.slotAt p.2, p.1) := by
  apply List.ext_getElem
  · simp [h]
  · intro i h1 h2
    have hi : i < l.slots.length := by
      rw [List.length_map, List.length_zipIdx] at h2
      omega
    simp [Layout.slotAt, hi]

theorem of_pack {g : UInt32} {widths : List ℕ} {l : Layout} (h : pack g widths = .ok l) :
    (∀ w ∈ widths, w ≤ g.toNat) ∧ ∃ s, Packing.Leads g widths (Packing.order widths) s ∧
      l = ⟨s.slots.toList, s.used.size, g.toNat⟩ := by
  unfold pack at h
  split at h
  · cases h
  · rename_i hfind
    refine ⟨Packing.le_of_find? hfind, ?_⟩
    simp only at h
    cases hs : (Packing.order widths).foldlM (Packing.step g) ⟨#[], Array.replicate widths.length ⟨0, 0⟩⟩ with
    | error e => rw [hs] at h; cases h
    | ok s =>
      rw [hs] at h
      cases h
      exact ⟨s, hs, rfl⟩

/-- Packing fails at a width that is too wide, or else at one that cannot be placed behind those that come first. -/
theorem of_pack_error {g : UInt32} {widths : List ℕ} {e : ℕ × PackError} (h : pack g widths = .error e) :
    (∃ width i, widths.zipIdx.find? (fun item => g.toNat < item.1) = some (width, i) ∧
      e = (i, .tooWide width g.toNat)) ∨
    (∀ w ∈ widths, w ≤ g.toNat) ∧ ∃ front item back s, Packing.order widths = front ++ item :: back ∧
      Packing.Leads g widths front s ∧ Packing.Steps g.toNat s item.1 item.2 (.error e) := by
  unfold pack at h
  split at h
  · rename_i width i hfind
    cases h
    exact Or.inl ⟨width, i, hfind, rfl⟩
  · rename_i hfind
    have hle := Packing.le_of_find? hfind
    simp only at h
    cases hs : (Packing.order widths).foldlM (Packing.step g) ⟨#[], Array.replicate widths.length ⟨0, 0⟩⟩ with
    | ok s => rw [hs] at h; cases h
    | error d =>
      rw [hs] at h
      cases h
      obtain ⟨front, item, back, s, horder, hfront, hstep⟩ := Packing.exists_of_foldlM_error _ hs
      exact Or.inr ⟨hle, front, item, back, s, horder, hfront,
        hstep ▸ Packing.steps_step s (Packing.width_le_of_order hle horder)⟩

theorem slotAt_toList (s : Packing.State) (count g i : ℕ) :
    (⟨s.slots.toList, count, g⟩ : Layout).slotAt i = s.slotAt i := by
  rw [Layout.slotAt, Packing.State.slotAt, List.getD_eq_getElem?_getD, Array.getElem?_toList,
    Array.getD_eq_getD_getElem?]
  rfl

theorem pack_firstFit {g : UInt32} {widths : List ℕ} {l : Layout} (h : pack g widths = .ok l) :
    l.groupWidth = g.toNat ∧ l.slots.length = widths.length ∧
      Packing.FirstFit g.toNat (l.placed widths) l.groupCount := by
  obtain ⟨hle, s, hs, rfl⟩ := of_pack h
  have hend := hs.placing hle (List.append_nil _).symm
  refine ⟨rfl, by simp [hend.size], ?_⟩
  simpa only [Layout.placed, slotAt_toList] using hend.firstFit

theorem Packing.FirstFit.packs {g : ℕ} {widths : List ℕ} {l : Layout} (hlength : l.slots.length = widths.length)
    (hfit : Packing.FirstFit g (l.placed widths) l.groupCount) : l.Packs g widths := by
  have hback : (Packing.order widths).reverse.Perm widths.zipIdx :=
    (List.reverse_perm _).trans (Packing.order_perm widths)
  refine ⟨hlength, ?_, ?_⟩
  · intro p hp
    rw [zip_slots_eq hlength, List.mem_map] at hp
    obtain ⟨q, hq, rfl⟩ := hp
    have hplaced : (q.1, l.slotAt q.2) ∈ l.placed widths := List.mem_map.2 ⟨q, hback.mem_iff.2 hq, rfl⟩
    exact ⟨hfit.group_lt _ hplaced, (hfit.end_le_load _ hplaced).trans (hfit.load_le _)⟩
  · rw [zip_slots_eq hlength, List.pairwise_map]
    exact (hback.pairwise_iff fun hab => hab.symm).1 (List.pairwise_map.1 hfit.apart)

theorem pack_packs {g : UInt32} {widths : List ℕ} {l : Layout} (h : pack g widths = .ok l) :
    l.groupWidth = g.toNat ∧ l.Packs g.toNat widths := by
  obtain ⟨hwidth, hlength, hfit⟩ := pack_firstFit h
  exact ⟨hwidth, hfit.packs hlength⟩

theorem Word.toNat_bits (w : Word) : w.bits.toUInt32.toNat = w.bits := by
  cases w <;> rfl

theorem pack_word {w : Word} {widths : List ℕ} {l : Layout} (h : pack w.bits.toUInt32 widths = .ok l) :
    l.Packs w.bits widths := by
  have := (pack_packs h).2
  rwa [w.toNat_bits] at this

theorem pack_error_lt {g : UInt32} {widths : List ℕ} {index : ℕ} {e : PackError}
    (h : pack g widths = .error (index, e)) : index < widths.length := by
  rcases of_pack_error h with ⟨width, i, hfind, heq⟩ | ⟨-, front, item, back, s, horder, -, hsteps⟩
  · cases heq
    exact List.snd_lt_of_mem_zipIdx (List.mem_of_find?_eq_some hfind)
  · cases hsteps <;> exact (Packing.of_order horder).1

namespace Layout

variable {l : Layout} {g : ℕ} {widths : List ℕ}

theorem Packs.getElem_zip (h : l.Packs g widths) {i : ℕ} (hi : i < widths.length) :
    ∃ hz : i < (l.slots.zip widths).length, (l.slots.zip widths)[i] = (l.slotAt i, widths.getD i 0) := by
  have hs : i < l.slots.length := by rw [h.length]; exact hi
  refine ⟨by simp [hs, hi], ?_⟩
  simp [slotAt, hs, hi]

theorem Packs.slotAt_within (h : l.Packs g widths) {i : ℕ} (hi : i < widths.length) :
    (l.slotAt i).group < l.groupCount ∧ (l.slotAt i).offset + widths.getD i 0 ≤ g := by
  obtain ⟨hz, heq⟩ := h.getElem_zip hi
  have := h.within _ (List.getElem_mem hz)
  rwa [heq] at this

theorem Packs.slotAt_apart (h : l.Packs g widths) {i j : ℕ} (hi : i < widths.length) (hj : j < widths.length)
    (hij : i ≠ j) : (l.slotAt i).Apart (widths.getD i 0) (l.slotAt j) (widths.getD j 0) := by
  obtain ⟨hzi, hei⟩ := h.getElem_zip hi
  obtain ⟨hzj, hej⟩ := h.getElem_zip hj
  have hpair := List.pairwise_iff_getElem.1 h.apart
  rcases Nat.lt_or_gt_of_ne hij with hlt | hgt
  · have := hpair i j hzi hzj hlt
    rwa [hei, hej] at this
  · have := hpair j i hzj hzi hgt
    rw [hei, hej] at this
    exact this.symm

/-- The bits of its group that the width with this index has. -/
def bitsAt (l : Layout) (widths : List ℕ) (i : ℕ) : Finset ℕ :=
  Finset.Ico (l.slotAt i).offset ((l.slotAt i).offset + widths.getD i 0)

/-- A layout of widths in groups of `g` bits that wastes nothing. -/
structure Fills (l : Layout) (g : ℕ) (widths : List ℕ) : Prop where
  /-- There is one slot for each width. -/
  length : l.slots.length = widths.length
  /-- No slot straddles the end of its group. -/
  within : ∀ i < widths.length, (l.slotAt i).offset + widths.getD i 0 ≤ g ∧ (l.slotAt i).group < l.groupCount
  /-- Slots of one group do not overlap. -/
  disjoint : ∀ i < widths.length, ∀ j < widths.length, i ≠ j → (l.slotAt i).group = (l.slotAt j).group →
    Disjoint (l.bitsAt widths i) (l.bitsAt widths j)
  /-- No group is empty. -/
  inhabited : ∀ k < l.groupCount, ∃ i < widths.length, (l.slotAt i).group = k
  /-- The slots of a group cover it from its start up to where the last one ends. -/
  gapless : ∀ k < l.groupCount, ∃ stop,
    (∀ i < widths.length, (l.slotAt i).group = k → (l.slotAt i).offset + widths.getD i 0 ≤ stop) ∧
    ∀ bit < stop, ∃ i < widths.length, (l.slotAt i).group = k ∧ bit ∈ l.bitsAt widths i

end Layout

/-- Packing fills groups from their starts, without gaps or overlaps, and opens none in vain. -/
theorem pack_fills {g : UInt32} {widths : List ℕ} {l : Layout} (h : pack g widths = .ok l) :
    l.Fills g.toNat widths := by
  obtain ⟨-, hlength, hfit⟩ := pack_firstFit h
  have hpacks := (pack_packs h).2
  refine ⟨hlength, fun i hi => (hpacks.slotAt_within hi).symm, ?_, ?_, ?_⟩
  · intro i hi j hj hij hgroup
    rw [Layout.bitsAt, Layout.bitsAt, Finset.disjoint_left]
    intro bit hbit hbit'
    rw [Finset.mem_Ico] at hbit hbit'
    rcases hpacks.slotAt_apart hi hj hij with hne | hle | hle
    · exact hne hgroup
    · omega
    · omega
  · intro k hk
    obtain ⟨p, hp, rfl⟩ := hfit.exists_group_eq hk
    obtain ⟨i, hi, rfl⟩ := Layout.mem_placed.1 hp
    exact ⟨i, hi, rfl⟩
  · intro k _
    refine ⟨Packing.loadOf (l.placed widths) k, ?_, ?_⟩
    · rintro i hi rfl
      exact hfit.end_le_load _ (Layout.mem_placed.2 ⟨i, hi, rfl⟩)
    · intro bit hbit
      obtain ⟨p, hp, hgroup, hle, hlt⟩ := hfit.covers hbit
      obtain ⟨i, hi, rfl⟩ := Layout.mem_placed.1 hp
      exact ⟨i, hi, hgroup, Finset.mem_Ico.2 ⟨hle, hlt⟩⟩

/-- A group that is full, a width of zero at its end, and a width that is placed ahead of one given before it. -/
theorem pack_fills_of_zero_width :
    pack 16 [3, 0, 8, 8, 5] = .ok ⟨[⟨1, 5⟩, ⟨0, 16⟩, ⟨0, 0⟩, ⟨0, 8⟩, ⟨1, 0⟩], 2, 16⟩ ∧
    Layout.Fills ⟨[⟨1, 5⟩, ⟨0, 16⟩, ⟨0, 0⟩, ⟨0, 8⟩, ⟨1, 0⟩], 2, 16⟩ 16 [3, 0, 8, 8, 5] := by
  have hpack : pack 16 [3, 0, 8, 8, 5] = .ok ⟨[⟨1, 5⟩, ⟨0, 16⟩, ⟨0, 0⟩, ⟨0, 8⟩, ⟨1, 0⟩], 2, 16⟩ := by cbv
  exact ⟨hpack, pack_fills hpack⟩

end Bitpack
