import Mathlib
import Bitpack.Proofs.Decreasing

/-! The order in which widths are given. First fit sees widths only, the widest first, so any two orders of the same
widths take the same slots, and take as much storage. The order given shows where widths are equal: each of them
comes behind the ones given before it. -/

namespace Bitpack

/-- A slot that comes first: its group is before the other's, or its offset is before in the same group. -/
def Slot.Before (a b : Slot) : Prop :=
  a.group < b.group ∨ a.group = b.group ∧ a.offset < b.offset

namespace Packing

section FirstFit

variable {g count count' : ℕ} {placed placed' : List (ℕ × Slot)}

theorem FirstFit.eq_of_widths (h : FirstFit g placed count) : ∀ {placed' : List (ℕ × Slot)} {count' : ℕ},
    FirstFit g placed' count' → placed.map (·.1) = placed'.map (·.1) → placed = placed' := by
  induction h with
  | nil =>
    intro placed' count' _ hwidths
    exact (List.map_eq_nil_iff.1 hwidths.symm).symm
  | @place placed count width k h hk hroom hfit hfirst ih =>
    intro placed' count' h' hwidths
    obtain ⟨⟨width', s⟩, rest, rfl, rfl, hrest⟩ := List.map_eq_cons_iff.1 hwidths.symm
    obtain ⟨⟨count₀, h₀⟩, hleast, hoffset, -⟩ := h'.of_cons
    obtain rfl := ih h₀ hrest.symm
    obtain ⟨-, hleast', -⟩ := (h.place hk hroom hfit hfirst).of_cons
    obtain rfl : k = s.group := hleast'.unique hleast
    rw [← hoffset]

theorem FirstFit.count_le_count (h : FirstFit g placed count) (h' : FirstFit g placed count') : count ≤ count' := by
  by_contra hlt
  obtain ⟨p, hp, hgroup⟩ := h.exists_group_eq (not_le.1 hlt)
  exact absurd (h'.group_lt p hp) (by omega)

end FirstFit

section Order

variable {widths widths' : List ℕ}

theorem order_widths_perm (widths : List ℕ) : ((order widths).map (·.1)).Perm widths := by
  have hperm := (order_perm widths).map Prod.fst
  rwa [List.zipIdx_map_fst] at hperm

theorem order_widths_eq (h : widths.Perm widths') : (order widths).map (·.1) = (order widths').map (·.1) := by
  have hsorted : ∀ widths, ((order widths).map (·.1)).Pairwise (· ≥ ·) := fun widths =>
    List.pairwise_map.2 (order_sorted widths)
  exact ((order_widths_perm widths).trans (h.trans (order_widths_perm widths').symm)).eq_of_pairwise'
    (hsorted widths) (hsorted widths')

theorem placed_widths (l : Layout) (widths : List ℕ) :
    (l.placed widths).map (·.1) = ((order widths).map (·.1)).reverse := by
  rw [Layout.placed, List.map_map, List.map_reverse]
  rfl

theorem exists_slot_eq (items : List (ℕ × ℕ)) : ∀ {placed : List (ℕ × Slot)}, (items.map (·.2)).Nodup →
    placed.map (·.1) = items.map (·.1) → ∃ slot : ℕ → Slot, placed = items.map fun p => (p.1, slot p.2) := by
  induction items with
  | nil =>
    intro placed _ hwidths
    exact ⟨fun _ => default, List.map_eq_nil_iff.1 hwidths⟩
  | cons p items ih =>
    intro placed hnodup hwidths
    obtain ⟨⟨w, s⟩, rest, rfl, hw, hrest⟩ := List.map_eq_cons_iff.1 hwidths
    obtain rfl : w = p.1 := hw
    rw [List.map_cons, List.nodup_cons] at hnodup
    obtain ⟨slot, rfl⟩ := ih hnodup.2 hrest
    refine ⟨Function.update slot p.2 s, ?_⟩
    rw [List.map_cons, Function.update_self]
    refine congrArg _ (List.map_congr_left fun q hq => ?_)
    have hne : q.2 ≠ p.2 := fun heq => hnodup.1 (List.mem_map.2 ⟨q, hq, heq⟩)
    rw [Function.update_of_ne hne]

end Order

section Success

variable {g : UInt32} {widths widths' : List ℕ}

theorem exists_pack_of_firstFit (hg : 2 * g.toNat < 2 ^ 32) (hle : ∀ w ∈ widths, w ≤ g.toNat) {count : ℕ}
    {placed : List (ℕ × Slot)} (h : FirstFit g.toNat placed count)
    (hwidths : placed.map (·.1) = ((order widths).map (·.1)).reverse) : ∃ l, pack g widths = .ok l := by
  have hnodup : ((order widths).reverse.map (·.2)).Nodup := by
    rw [List.map_reverse, List.nodup_reverse]
    exact order_nodup widths
  obtain ⟨slot, rfl⟩ := exists_slot_eq _ hnodup (hwidths.trans List.map_reverse.symm)
  have hplaced : ∀ i < widths.length, Placed g.toNat widths slot i := fun i hi =>
    h.placed_of_order (List.append_nil _).symm (widths.getD i 0, i) (mem_order.2 ⟨hi, rfl⟩)
  have houtcome := outcome_pack hg widths
  cases hpack : pack g widths with
  | ok l => exact ⟨l, rfl⟩
  | error e =>
    rw [hpack] at houtcome
    cases houtcome with
    | tooWide hi => exact absurd (getD_le hle _) (not_le.2 hi.1)
    | exhausted _ hi => exact absurd hplaced hi.not_all_placed

theorem exists_pack_of_perm (hg : 2 * g.toNat < 2 ^ 32) (hperm : widths.Perm widths') {l : Layout}
    (h : pack g widths = .ok l) : ∃ l', pack g widths' = .ok l' := by
  obtain ⟨-, -, hfit⟩ := pack_firstFit h
  refine exists_pack_of_firstFit hg (fun w hw => (of_pack h).1 w (hperm.mem_iff.2 hw)) hfit ?_
  rw [placed_widths, order_widths_eq hperm]

/-- In both orders the widths that are visited in the same place have the same slot. -/
theorem placed_eq_of_perm (hperm : widths.Perm widths') {l l' : Layout}
    (h : pack g widths = .ok l) (h' : pack g widths' = .ok l') : l.placed widths = l'.placed widths' := by
  obtain ⟨-, -, hfit⟩ := pack_firstFit h
  obtain ⟨-, -, hfit'⟩ := pack_firstFit h'
  refine hfit.eq_of_widths hfit' ?_
  rw [placed_widths, placed_widths, order_widths_eq hperm]

theorem groupCount_eq_of_perm (hperm : widths.Perm widths') {l l' : Layout}
    (h : pack g widths = .ok l) (h' : pack g widths' = .ok l') : l.groupCount = l'.groupCount := by
  obtain ⟨-, -, hfit⟩ := pack_firstFit h
  obtain ⟨-, -, hfit'⟩ := pack_firstFit h'
  rw [placed_eq_of_perm hperm h h'] at hfit
  exact le_antisymm (hfit.count_le_count hfit') (hfit'.count_le_count hfit)

theorem zip_slots_perm {l : Layout} (h : l.slots.length = widths.length) :
    (widths.zip l.slots).Perm (l.placed widths) := by
  have hzip := congrArg (List.map Prod.swap) (zip_slots_eq h)
  rw [List.zip_swap, List.map_map] at hzip
  rw [hzip]
  exact (((List.reverse_perm _).trans (order_perm widths)).map _).symm

end Success

section Ties

variable {g i j : ℕ} {widths : List ℕ} {slot : ℕ → Slot}

theorem heldAhead_le_heldAhead (slot : ℕ → Slot) (h : i ∈ ahead widths j) (k : ℕ) :
    heldAhead widths slot i k ≤ heldAhead widths slot j k :=
  Finset.sum_le_sum_of_subset (Finset.filter_subset_filter _ (ahead_subset h))

theorem heldAhead_add_le_heldAhead (slot : ℕ → Slot) (h : i ∈ ahead widths j) :
    heldAhead widths slot i (slot i).group + widths.getD i 0 ≤ heldAhead widths slot j (slot i).group := by
  have hnot : i ∉ (ahead widths i).filter fun k => (slot k).group = (slot i).group := by
    intro hi
    have hself := (mem_ahead.1 (Finset.mem_filter.1 hi).1).2
    exact hself.not_ahead hself
  have hinsert := Finset.sum_insert hnot (f := fun k => widths.getD k 0)
  unfold heldAhead
  rw [add_comm, ← hinsert]
  refine Finset.sum_le_sum_of_subset (Finset.insert_subset ?_ ?_)
  · exact Finset.mem_filter.2 ⟨h, rfl⟩
  · exact Finset.filter_subset_filter _ (ahead_subset h)

theorem Lands.before (hi : Lands g widths slot i) (hj : Lands g widths slot j) (hlt : i < j) (hjlen : j < widths.length)
    (hwidth : widths.getD i 0 = widths.getD j 0) (hpos : 0 < widths.getD i 0) : (slot i).Before (slot j) := by
  have hahead : i ∈ ahead widths j := mem_ahead.2 ⟨by omega, Or.inr ⟨hwidth, hlt⟩⟩
  have hroom : heldAhead widths slot i (slot j).group + widths.getD i 0 ≤ g := by
    have hfit : heldAhead widths slot j (slot j).group + widths.getD j 0 ≤ g := hj.group.1
    have hgrow := heldAhead_le_heldAhead slot hahead (slot j).group
    omega
  rcases Nat.eq_or_lt_of_le (hi.group.2 hroom) with heq | hbefore
  · refine Or.inr ⟨heq, ?_⟩
    have hheld := heldAhead_add_le_heldAhead slot hahead
    rw [← hi.offset, heq, ← hj.offset] at hheld
    omega
  · exact Or.inl hbefore

end Ties
end Packing

/-- The order in which widths are given does not matter to the storage they take, nor to the slots that each width is
given. It matters to which of equal widths has which slot. -/
theorem pack_perm {g : UInt32} (hg : 2 * g.toNat < UInt32.size) {widths widths' : List ℕ}
    (hperm : widths.Perm widths') :
    ((∃ l, pack g widths = .ok l) ↔ ∃ l', pack g widths' = .ok l') ∧
    (∀ l l', pack g widths = .ok l → pack g widths' = .ok l' → l.groupCount = l'.groupCount ∧
      l.totalBits = l'.totalBits ∧ (widths.zip l.slots).Perm (widths'.zip l'.slots)) ∧
    ∀ l, pack g widths = .ok l → ∀ i j, i < j → j < widths.length → widths.getD i 0 = widths.getD j 0 →
      0 < widths.getD i 0 → (l.slotAt i).Before (l.slotAt j) := by
  refine ⟨⟨fun ⟨l, h⟩ => ?_, fun ⟨l', h'⟩ => ?_⟩, fun l l' h h' => ?_, fun l h i j hij hj hwidth hpos => ?_⟩
  · exact Packing.exists_pack_of_perm hg hperm h
  · exact Packing.exists_pack_of_perm hg hperm.symm h'
  · obtain ⟨hgroup, hlength, -⟩ := pack_firstFit h
    obtain ⟨hgroup', hlength', -⟩ := pack_firstFit h'
    have hcount := Packing.groupCount_eq_of_perm hperm h h'
    refine ⟨hcount, by rw [Layout.totalBits, Layout.totalBits, hcount, hgroup, hgroup'], ?_⟩
    refine (Packing.zip_slots_perm hlength).trans ?_
    rw [Packing.placed_eq_of_perm hperm h h']
    exact (Packing.zip_slots_perm hlength').symm
  · have hplaced := Packing.placed_of_pack h
    exact (hplaced i (hij.trans hj)).1.before (hplaced j hj).1 hij hj hwidth hpos

/-- Two equal widths change places in the order given, and keep the order of their slots. -/
theorem pack_perm_of_ties : 2 * (16 : UInt32).toNat < UInt32.size ∧ [5, 3, 8, 5].Perm [8, 5, 5, 3] ∧
    pack 16 [5, 3, 8, 5] = .ok ⟨[⟨0, 8⟩, ⟨0, 13⟩, ⟨0, 0⟩, ⟨1, 0⟩], 2, 16⟩ ∧
    pack 16 [8, 5, 5, 3] = .ok ⟨[⟨0, 0⟩, ⟨0, 8⟩, ⟨1, 0⟩, ⟨0, 13⟩], 2, 16⟩ ∧
    ([5, 3, 8, 5].zip [⟨0, 8⟩, ⟨0, 13⟩, ⟨0, 0⟩, ⟨1, 0⟩]).Perm
      ([8, 5, 5, 3].zip [(⟨0, 0⟩ : Slot), ⟨0, 8⟩, ⟨1, 0⟩, ⟨0, 13⟩]) ∧
    Slot.Before ⟨0, 8⟩ ⟨1, 0⟩ := by
  have hperm : [5, 3, 8, 5].Perm [8, 5, 5, 3] := by decide
  have hpack : pack 16 [5, 3, 8, 5] = .ok ⟨[⟨0, 8⟩, ⟨0, 13⟩, ⟨0, 0⟩, ⟨1, 0⟩], 2, 16⟩ := by cbv
  have hpack' : pack 16 [8, 5, 5, 3] = .ok ⟨[⟨0, 0⟩, ⟨0, 8⟩, ⟨1, 0⟩, ⟨0, 13⟩], 2, 16⟩ := by cbv
  obtain ⟨-, hsame, hties⟩ := pack_perm (g := 16) (by decide) hperm
  exact ⟨by decide, hperm, hpack, hpack', (hsame _ _ hpack hpack').2.2,
    hties _ hpack 0 3 (by decide) (by decide) (by decide) (by decide)⟩

end Bitpack
