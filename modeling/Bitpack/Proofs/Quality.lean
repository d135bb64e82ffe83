import Mathlib
import Bitpack.Proofs.Decreasing

/-! How many groups packing takes. No other placement of the widths has fewer than two thirds of them. Take the group
two thirds of the way through. If it holds a width of more than half a group, so does every group before it, and no two
of these widths ever share a group. Otherwise all widths in it and behind it are at most half a group wide, so there are
enough of them for each group before it to be paired with one that did not fit there. -/

namespace Bitpack

namespace Packing

/-- The widths have room in `m` groups of `g` bits: none straddles the end of its group, and no two share a bit. -/
def Packable (g m : ℕ) (widths : List ℕ) : Prop :=
  ∃ slot : ℕ → Slot,
    (∀ i < widths.length, (slot i).group < m ∧ (slot i).offset + widths.getD i 0 ≤ g) ∧
    ∀ i < widths.length, ∀ j < widths.length, i ≠ j → (slot i).group = (slot j).group →
      Disjoint (Finset.Ico (slot i).offset ((slot i).offset + widths.getD i 0))
        (Finset.Ico (slot j).offset ((slot j).offset + widths.getD j 0))

/-- The indices of the widths that are put in the group `h`. -/
def members (widths : List ℕ) (group : ℕ → ℕ) (h : ℕ) : Finset ℕ :=
  (Finset.range widths.length).filter fun i => group i = h

/-- The indices of the widths that are put in the group `h` or behind it. -/
def behind (widths : List ℕ) (group : ℕ → ℕ) (h : ℕ) : Finset ℕ :=
  (Finset.range widths.length).filter fun i => h ≤ group i

/-- The bits that the widths of a group take. -/
def bitsIn (widths : List ℕ) (group : ℕ → ℕ) (h : ℕ) : ℕ :=
  ∑ i ∈ members widths group h, widths.getD i 0

variable {g m : ℕ} {widths : List ℕ} {group : ℕ → ℕ}

theorem mem_members {i h : ℕ} : i ∈ members widths group h ↔ i < widths.length ∧ group i = h := by
  rw [members, Finset.mem_filter, Finset.mem_range]

theorem mem_behind {i h : ℕ} : i ∈ behind widths group h ↔ i < widths.length ∧ h ≤ group i := by
  rw [behind, Finset.mem_filter, Finset.mem_range]

theorem members_disjoint (s : Set ℕ) : s.PairwiseDisjoint (members widths group) := by
  intro k _ k' _ hne
  refine Finset.disjoint_left.2 fun i hi hi' => hne ?_
  rw [← (mem_members.1 hi).2, (mem_members.1 hi').2]

section Capacity

theorem Packable.exists_group (h : Packable g m widths) :
    ∃ group : ℕ → ℕ, (∀ i < widths.length, group i < m) ∧ ∀ k, bitsIn widths group k ≤ g := by
  obtain ⟨slot, hwithin, hdisjoint⟩ := h
  refine ⟨fun i => (slot i).group, fun i hi => (hwithin i hi).1, fun k => ?_⟩
  let bits := fun i => Finset.Ico (slot i).offset ((slot i).offset + widths.getD i 0)
  have hcard : ∀ i, (bits i).card = widths.getD i 0 := fun i => by rw [Nat.card_Ico, Nat.add_sub_cancel_left]
  have hunion : ((members widths (fun i => (slot i).group) k).biUnion bits).card =
      bitsIn widths (fun i => (slot i).group) k := by
    rw [Finset.card_biUnion, bitsIn]
    · exact Finset.sum_congr rfl fun i _ => hcard i
    · intro i hi j hj hij
      obtain ⟨hilt, hik⟩ := mem_members.1 hi
      obtain ⟨hjlt, hjk⟩ := mem_members.1 hj
      exact hdisjoint i hilt j hjlt hij (hik.trans hjk.symm)
  have hsubset : (members widths (fun i => (slot i).group) k).biUnion bits ⊆ Finset.range g := by
    refine Finset.biUnion_subset.2 fun i hi bit hbit => ?_
    have hend := (hwithin i (mem_members.1 hi).1).2
    rw [Finset.mem_Ico] at hbit
    exact Finset.mem_range.2 (by omega)
  rw [← hunion]
  exact (Finset.card_le_card hsubset).trans (Finset.card_range g).le

/-- The widths of more than half a group. -/
def wide (g : ℕ) (widths : List ℕ) : Finset ℕ :=
  (Finset.range widths.length).filter fun i => g < 2 * widths.getD i 0

theorem mem_wide {i : ℕ} : i ∈ wide g widths ↔ i < widths.length ∧ g < 2 * widths.getD i 0 := by
  rw [wide, Finset.mem_filter, Finset.mem_range]

theorem card_wide_le (hgroup : ∀ i < widths.length, group i < m) (hcap : ∀ k, bitsIn widths group k ≤ g) :
    (wide g widths).card ≤ m := by
  rw [← Finset.card_range m]
  refine Finset.card_le_card_of_injOn group (fun i hi => ?_) fun i hi j hj hij => ?_
  · exact Finset.mem_coe.2 (Finset.mem_range.2 (hgroup i (mem_wide.1 hi).1))
  · obtain ⟨hilt, hi⟩ := mem_wide.1 hi
    obtain ⟨hjlt, hj⟩ := mem_wide.1 hj
    by_contra hne
    have hpair : ({i, j} : Finset ℕ) ⊆ members widths group (group j) := by
      intro x hx
      rcases Finset.mem_insert.1 hx with rfl | hx
      · exact mem_members.2 ⟨hilt, hij⟩
      · obtain rfl := Finset.mem_singleton.1 hx
        exact mem_members.2 ⟨hjlt, rfl⟩
    have hsum := Finset.sum_le_sum_of_subset hpair (f := fun i => widths.getD i 0)
    rw [Finset.sum_pair hne] at hsum
    have := hsum.trans (hcap (group j))
    omega

theorem sum_widths_le (hgroup : ∀ i < widths.length, group i < m) (hcap : ∀ k, bitsIn widths group k ≤ g) :
    ∑ i ∈ Finset.range widths.length, widths.getD i 0 ≤ m * g := by
  rw [← Finset.sum_fiberwise_of_maps_to (t := Finset.range m) (g := group)
    fun i hi => Finset.mem_range.2 (hgroup i (Finset.mem_range.1 hi))]
  have hsum := Finset.sum_le_card_nsmul (Finset.range m) (bitsIn widths group) g fun k _ => hcap k
  rwa [Finset.card_range, smul_eq_mul] at hsum

end Capacity

section Pairing

/-- If each member of the one set comes with each of the other to `c` or more, and the other set is no smaller, then so
does each with a partner of its own. -/
theorem card_mul_le_sum_add_sum {α β : Type} [DecidableEq α] [DecidableEq β] {c : ℕ} {f : α → ℕ} {w : β → ℕ}
    (A : Finset α) : ∀ {B : Finset β}, A.card ≤ B.card → (∀ a ∈ A, ∀ b ∈ B, c ≤ f a + w b) →
      A.card * c ≤ ∑ a ∈ A, f a + ∑ b ∈ B, w b := by
  induction A using Finset.induction_on with
  | empty => simp
  | insert a A ha ih =>
    intro B hcard hpair
    rw [Finset.card_insert_of_notMem ha] at hcard ⊢
    obtain ⟨b, hb⟩ := Finset.card_pos.1 (by omega : 0 < B.card)
    have hrest := ih (B := B.erase b) (by rw [Finset.card_erase_of_mem hb]; omega) fun a' ha' b' hb' =>
      hpair a' (Finset.mem_insert_of_mem ha') b' (Finset.mem_of_mem_erase hb')
    have hfirst := hpair a (Finset.mem_insert_self a A) b hb
    rw [Finset.sum_insert ha, ← Finset.add_sum_erase B w hb, Nat.add_mul]
    omega

theorem sum_bitsIn_add_sum_behind_le (h : ℕ) :
    ∑ k ∈ Finset.range h, bitsIn widths group k + ∑ i ∈ behind widths group h, widths.getD i 0 ≤
      ∑ i ∈ Finset.range widths.length, widths.getD i 0 := by
  have hdisjoint : Disjoint ((Finset.range h).biUnion (members widths group)) (behind widths group h) := by
    refine Finset.disjoint_left.2 fun i hi hi' => ?_
    obtain ⟨k, hk, hi⟩ := Finset.mem_biUnion.1 hi
    have hgroup := (mem_members.1 hi).2
    have hle := (mem_behind.1 hi').2
    rw [Finset.mem_range] at hk
    omega
  unfold bitsIn
  rw [← Finset.sum_biUnion (members_disjoint _), ← Finset.sum_union hdisjoint]
  refine Finset.sum_le_sum_of_subset (Finset.union_subset (Finset.biUnion_subset.2 fun k _ => ?_) ?_)
  · exact Finset.filter_subset _ _
  · exact Finset.filter_subset _ _

end Pairing

section FirstFit

/-- The group that a width lands in. -/
abbrev groupOf (slot : ℕ → Slot) (i : ℕ) : ℕ :=
  (slot i).group

variable {slot : ℕ → Slot} {i h last : ℕ}

theorem heldAhead_le_bitsIn (widths : List ℕ) (slot : ℕ → Slot) (i h : ℕ) :
    heldAhead widths slot i h ≤ bitsIn widths (groupOf slot) h := by
  refine Finset.sum_le_sum_of_subset fun j hj => ?_
  obtain ⟨hj, hgroup⟩ := Finset.mem_filter.1 hj
  exact mem_members.2 ⟨(mem_ahead.1 hj).1, hgroup⟩

theorem Lands.lt_heldAhead_add (hi : Lands g widths slot i) (hh : h < groupOf slot i) :
    g < heldAhead widths slot i h + widths.getD i 0 := by
  by_contra hle
  exact absurd (hi.group.2 (not_lt.1 hle)) (not_le.2 hh)

theorem Lands.lt_bitsIn_add (hi : Lands g widths slot i) (hh : h < groupOf slot i) :
    g < bitsIn widths (groupOf slot) h + widths.getD i 0 :=
  (hi.lt_heldAhead_add hh).trans_le (Nat.add_le_add_right (heldAhead_le_bitsIn widths slot i h) _)

theorem Lands.exists_wider (hi : Lands g widths slot i) (hh : h < groupOf slot i) :
    ∃ j < widths.length, groupOf slot j = h ∧ widths.getD i 0 ≤ widths.getD j 0 := by
  have hroom : heldAhead widths slot i (groupOf slot i) + widths.getD i 0 ≤ g := hi.group.1
  have hheld : heldAhead widths slot i h ≠ 0 := by
    have := hi.lt_heldAhead_add hh
    omega
  obtain ⟨j, hj, -⟩ := Finset.exists_ne_zero_of_sum_ne_zero hheld
  obtain ⟨hj, hgroup⟩ := Finset.mem_filter.1 hj
  obtain ⟨hlt, hahead⟩ := mem_ahead.1 hj
  exact ⟨j, hlt, hgroup, hahead.width_le⟩

variable (hlands : ∀ i < widths.length, Lands g widths slot i)
include hlands

theorem groupOf_lt_card_wide (hi : i ∈ wide g widths) : groupOf slot i < (wide g widths).card := by
  have hsub : Finset.range (groupOf slot i + 1) ⊆ (wide g widths).image (groupOf slot) := by
    intro h hh
    obtain ⟨hlt, hwide⟩ := mem_wide.1 hi
    rcases Nat.lt_or_ge h (groupOf slot i) with hbefore | hge
    · obtain ⟨j, hj, hgroup, hle⟩ := (hlands i hlt).exists_wider hbefore
      exact Finset.mem_image.2 ⟨j, mem_wide.2 ⟨hj, by omega⟩, hgroup⟩
    · exact Finset.mem_image.2 ⟨i, hi, by have := Finset.mem_range.1 hh; omega⟩
  have hcard := (Finset.card_le_card hsub).trans Finset.card_image_le
  rwa [Finset.card_range] at hcard

theorem narrow_of_group (hnarrow : ∀ i < widths.length, groupOf slot i = h → 2 * widths.getD i 0 ≤ g) :
    ∀ i < widths.length, h ≤ groupOf slot i → 2 * widths.getD i 0 ≤ g := by
  intro i hi hle
  rcases Nat.eq_or_lt_of_le hle with heq | hlt
  · exact hnarrow i hi heq.symm
  · obtain ⟨j, hj, hgroup, hwider⟩ := (hlands i hi).exists_wider hlt
    have := hnarrow j hj hgroup
    omega

theorem two_le_card_members (hnarrow : ∀ j ∈ members widths (groupOf slot) h, 2 * widths.getD j 0 ≤ g)
    (hi : i < widths.length) (hh : h < groupOf slot i) (hwidth : 2 * widths.getD i 0 ≤ g) :
    2 ≤ (members widths (groupOf slot) h).card := by
  have hfull := (hlands i hi).lt_bitsIn_add hh
  have hsum := Finset.sum_le_card_nsmul _ (fun j => 2 * widths.getD j 0) g hnarrow
  rw [← Finset.mul_sum, smul_eq_mul] at hsum
  change 2 * bitsIn widths (groupOf slot) h ≤ _ at hsum
  by_contra hlt
  have hone : (members widths (groupOf slot) h).card * g ≤ 1 * g := Nat.mul_le_mul_right g (by omega)
  omega

theorem le_card_behind (hopen : ∀ k ≤ last, ∃ i < widths.length, groupOf slot i = k) (hh : h ≤ last)
    (hnarrow : ∀ i < widths.length, h ≤ groupOf slot i → 2 * widths.getD i 0 ≤ g) :
    2 * (last - h) + 1 ≤ (behind widths (groupOf slot) h).card := by
  have hgroups : ∑ k ∈ Finset.Ico h (last + 1), (members widths (groupOf slot) k).card ≤
      (behind widths (groupOf slot) h).card := by
    rw [← Finset.card_biUnion (members_disjoint _)]
    refine Finset.card_le_card (Finset.biUnion_subset.2 fun k hk i hi => ?_)
    obtain ⟨hlt, rfl⟩ := mem_members.1 hi
    exact mem_behind.2 ⟨hlt, (Finset.mem_Ico.1 hk).1⟩
  obtain ⟨i, hi, hlast⟩ := hopen last le_rfl
  have htwo : ∀ k ∈ Finset.Ico h last, 2 ≤ (members widths (groupOf slot) k).card := by
    intro k hk
    obtain ⟨hk, hlt⟩ := Finset.mem_Ico.1 hk
    refine two_le_card_members hlands (fun j hj => ?_) hi (hlast ▸ hlt) (hnarrow i hi (by omega))
    obtain ⟨hjlt, rfl⟩ := mem_members.1 hj
    exact hnarrow j hjlt hk
  have hone : 1 ≤ (members widths (groupOf slot) last).card := Finset.card_pos.2 ⟨i, mem_members.2 ⟨hi, hlast⟩⟩
  have hsum := Finset.card_nsmul_le_sum _ _ 2 htwo
  rw [Nat.card_Ico, smul_eq_mul] at hsum
  rw [Finset.sum_Ico_succ_top hh] at hgroups
  omega

theorem mul_le_sum_of_narrow (hopen : ∀ k ≤ last, ∃ i < widths.length, groupOf slot i = k) (hh : h ≤ last)
    (hmany : h ≤ 2 * (last - h) + 1)
    (hnarrow : ∀ i < widths.length, h ≤ groupOf slot i → 2 * widths.getD i 0 ≤ g) :
    h * (g + 1) ≤ ∑ i ∈ Finset.range widths.length, widths.getD i 0 := by
  have hcard := hmany.trans (le_card_behind hlands hopen hh hnarrow)
  have hpairs : ∀ k ∈ Finset.range h, ∀ i ∈ behind widths (groupOf slot) h,
      g + 1 ≤ bitsIn widths (groupOf slot) k + widths.getD i 0 := by
    intro k hk i hi
    obtain ⟨hlt, hle⟩ := mem_behind.1 hi
    exact (hlands i hlt).lt_bitsIn_add ((Finset.mem_range.1 hk).trans_le hle)
  calc h * (g + 1) = (Finset.range h).card * (g + 1) := by rw [Finset.card_range]
    _ ≤ ∑ k ∈ Finset.range h, bitsIn widths (groupOf slot) k + ∑ i ∈ behind widths (groupOf slot) h, widths.getD i 0 :=
      card_mul_le_sum_add_sum _ ((Finset.card_range h).le.trans hcard) hpairs
    _ ≤ ∑ i ∈ Finset.range widths.length, widths.getD i 0 := sum_bitsIn_add_sum_behind_le h

omit hlands in
theorem pos_of_packable (hm : Packable g m widths) (hi : i < widths.length) : 0 < m := by
  obtain ⟨slot', hwithin, -⟩ := hm
  exact (Nat.zero_le _).trans_lt (hwithin i hi).1

theorem lt_of_packable (h last : ℕ) (hopen : ∀ k ≤ last, ∃ i < widths.length, groupOf slot i = k)
    (hm : Packable g m widths) (hh : h ≤ last) (hmany : h ≤ 2 * (last - h) + 1) : h < m := by
  obtain ⟨group, hgroup, hcap⟩ := hm.exists_group
  by_cases hwide : ∃ i ∈ wide g widths, groupOf slot i = h
  · obtain ⟨i, hi, rfl⟩ := hwide
    exact (groupOf_lt_card_wide hlands hi).trans_le (card_wide_le hgroup hcap)
  · have hnarrow : ∀ i < widths.length, groupOf slot i = h → 2 * widths.getD i 0 ≤ g := by
      intro i hi hgroup
      by_contra hlt
      exact hwide ⟨i, mem_wide.2 ⟨hi, by omega⟩, hgroup⟩
    have hbits := (mul_le_sum_of_narrow hlands hopen hh hmany (narrow_of_group hlands hnarrow)).trans
      (sum_widths_le hgroup hcap)
    obtain ⟨i, hi, -⟩ := hopen last le_rfl
    have hpos := pos_of_packable hm hi
    by_contra hle
    have hmul : m * g ≤ h * g := Nat.mul_le_mul_right g (not_lt.1 hle)
    rw [Nat.mul_succ] at hbits
    omega

end FirstFit
end Packing

/-- Packing takes at most half as many groups again as any other placement of the widths. -/
theorem two_mul_groupCount_le {g : UInt32} {widths : List ℕ} {l : Layout} (h : pack g widths = .ok l) {m : ℕ}
    (hm : Packing.Packable g.toNat m widths) : 2 * l.groupCount ≤ 3 * m := by
  have hlands := fun i hi => (Packing.placed_of_pack h i hi).1
  have hopen : ∀ k < l.groupCount, ∃ i < widths.length, Packing.groupOf l.slotAt i = k := by
    intro k hk
    rw [← Finset.mem_range, ← Packing.image_group_of_pack h] at hk
    obtain ⟨i, hi, hgroup⟩ := Finset.mem_image.1 hk
    exact ⟨i, Finset.mem_range.1 hi, hgroup⟩
  rcases Nat.eq_zero_or_pos l.groupCount with hzero | hpos
  · omega
  · have hlt := Packing.lt_of_packable hlands ((2 * l.groupCount - 1) / 3) (l.groupCount - 1)
      (fun k hk => hopen k (by omega)) hm (by omega) (by omega)
    omega

/-- The bound is reached: packing puts the two widest together and needs a third group. -/
theorem two_mul_groupCount_le_of_tight :
    pack 10 [4, 4, 3, 3, 3, 3] = .ok ⟨[⟨0, 0⟩, ⟨0, 4⟩, ⟨1, 0⟩, ⟨1, 3⟩, ⟨1, 6⟩, ⟨2, 0⟩], 3, 10⟩ ∧
    Packing.Packable 10 2 [4, 4, 3, 3, 3, 3] ∧ 2 * 3 ≤ 3 * 2 := by
  have hpack : pack 10 [4, 4, 3, 3, 3, 3] = .ok ⟨[⟨0, 0⟩, ⟨0, 4⟩, ⟨1, 0⟩, ⟨1, 3⟩, ⟨1, 6⟩, ⟨2, 0⟩], 3, 10⟩ := by cbv
  have hother : Packing.Packable 10 2 [4, 4, 3, 3, 3, 3] := by
    refine ⟨fun i => [⟨0, 0⟩, ⟨1, 0⟩, ⟨0, 4⟩, ⟨0, 7⟩, ⟨1, 4⟩, ⟨1, 7⟩].getD i default, ?_, ?_⟩
    · decide
    · decide
  exact ⟨hpack, hother, two_mul_groupCount_le (g := 10) hpack hother⟩

end Bitpack
