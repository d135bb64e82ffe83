import Mathlib
import Bitpack.Proofs.Packing

/-! First fit decreasing, told by the indices of the widths alone. An index is visited after all wider ones and after
those of its own width given before it; where it lands depends on what these have filled. Packing stops at the first
index that would open one group too many, and gives all others the slots where they land. -/

namespace Bitpack

namespace Packing

section Visits

/-- The width at `i` is visited ahead of the one at `j`: it is wider, or as wide and given before. -/
def Ahead (widths : List ℕ) (i j : ℕ) : Prop :=
  widths.getD j 0 < widths.getD i 0 ∨ widths.getD i 0 = widths.getD j 0 ∧ i < j

instance (widths : List ℕ) (i j : ℕ) : Decidable (Ahead widths i j) :=
  inferInstanceAs (Decidable (_ ∨ _))

variable {widths : List ℕ} {i j k : ℕ}

theorem Ahead.trans (hij : Ahead widths i j) (hjk : Ahead widths j k) : Ahead widths i k := by
  unfold Ahead at *
  omega

theorem Ahead.not_ahead (h : Ahead widths i j) : ¬ Ahead widths j i := by
  unfold Ahead at *
  omega

theorem ahead_or_ahead (widths : List ℕ) (h : i ≠ j) : Ahead widths i j ∨ Ahead widths j i := by
  unfold Ahead
  omega

theorem Ahead.width_le (h : Ahead widths i j) : widths.getD j 0 ≤ widths.getD i 0 := by
  unfold Ahead at h
  omega

/-- The indices that are visited ahead of `i`. -/
def ahead (widths : List ℕ) (i : ℕ) : Finset ℕ :=
  (Finset.range widths.length).filter fun j => Ahead widths j i

theorem mem_ahead : j ∈ ahead widths i ↔ j < widths.length ∧ Ahead widths j i := by
  rw [ahead, Finset.mem_filter, Finset.mem_range]

theorem ne_of_mem_ahead (h : j ∈ ahead widths i) : j ≠ i := by
  rintro rfl
  exact (mem_ahead.1 h).2.not_ahead (mem_ahead.1 h).2

theorem ahead_subset (h : j ∈ ahead widths i) : ahead widths j ⊆ ahead widths i := by
  intro k hk
  rw [mem_ahead] at h hk ⊢
  exact ⟨hk.1, hk.2.trans h.2⟩

theorem card_ahead_lt (h : j ∈ ahead widths i) : (ahead widths j).card < (ahead widths i).card := by
  refine Finset.card_lt_card (Finset.ssubset_iff_subset_ne.2 ⟨ahead_subset h, fun heq => ?_⟩)
  rw [← heq] at h
  exact ne_of_mem_ahead h rfl

theorem wider_trans (a b c : ℕ × ℕ) (hab : decide (b.1 ≤ a.1) = true) (hbc : decide (c.1 ≤ b.1) = true) :
    decide (c.1 ≤ a.1) = true := by
  rw [decide_eq_true_eq] at *
  omega

theorem wider_total (a b : ℕ × ℕ) : (decide (b.1 ≤ a.1) || decide (a.1 ≤ b.1)) = true := by
  rw [Bool.or_eq_true, decide_eq_true_eq, decide_eq_true_eq]
  omega

theorem order_sorted (widths : List ℕ) : (order widths).Pairwise fun p q => q.1 ≤ p.1 :=
  (List.pairwise_mergeSort wider_trans wider_total widths.zipIdx).imp of_decide_eq_true

/-- Equal widths stay in the order given, since the sort is stable. -/
theorem filter_order (widths : List ℕ) (w : ℕ) :
    (order widths).filter (·.1 = w) = widths.zipIdx.filter (·.1 = w) := by
  have hequal : (widths.zipIdx.filter (·.1 = w)).Pairwise fun p q => decide (q.1 ≤ p.1) = true := by
    refine List.pairwise_of_forall_mem_list fun p hp q hq => decide_eq_true ?_
    have hp := of_decide_eq_true (List.mem_filter.1 hp).2
    have hq := of_decide_eq_true (List.mem_filter.1 hq).2
    omega
  have hsub := (List.sublist_mergeSort wider_trans wider_total hequal List.filter_sublist).filter (·.1 = w)
  rw [List.filter_filter] at hsub
  simp only [Bool.and_self] at hsub
  exact (hsub.eq_of_length ((order_perm widths).filter _).length_eq.symm).symm

theorem order_pairwise (widths : List ℕ) : (order widths).Pairwise fun p q => Ahead widths p.2 q.2 := by
  have hgiven : widths.zipIdx.Pairwise fun p q => p.2 < q.2 := by
    have hsnd := List.pairwise_lt_range' (s := 0) (n := widths.length)
    rwa [← List.zipIdx_map_snd, List.pairwise_map] at hsnd
  rw [List.pairwise_iff_forall_sublist]
  intro p q hpq
  have hle := List.pairwise_iff_forall_sublist.1 (order_sorted widths) hpq
  have hp := (mem_order.1 (hpq.subset List.mem_cons_self)).2
  have hq := (mem_order.1 (hpq.subset (List.mem_cons_of_mem _ List.mem_cons_self))).2
  by_cases hwidth : q.1 = p.1
  · have hfilter := hpq.filter (·.1 = p.1)
    rw [filter_order, List.filter_cons_of_pos (by simp), List.filter_cons_of_pos (by simpa using hwidth)] at hfilter
    have hlt := List.pairwise_iff_forall_sublist.1 hgiven (hfilter.trans List.filter_sublist)
    exact Or.inr ⟨by omega, hlt⟩
  · exact Or.inl (by omega)

theorem ahead_eq_of_order {front back : List (ℕ × ℕ)} {w : ℕ} (h : order widths = front ++ (w, i) :: back) :
    ahead widths i = (front.map (·.2)).toFinset := by
  have hpairs := order_pairwise widths
  rw [h, List.pairwise_append, List.pairwise_cons] at hpairs
  obtain ⟨-, ⟨hback, -⟩, hfront⟩ := hpairs
  ext j
  rw [mem_ahead, List.mem_toFinset, List.mem_map]
  constructor
  · rintro ⟨hj, hahead⟩
    have hmem : (widths.getD j 0, j) ∈ order widths := mem_order.2 ⟨hj, rfl⟩
    rw [h, List.mem_append, List.mem_cons] at hmem
    rcases hmem with hmem | hmem | hmem
    · exact ⟨_, hmem, rfl⟩
    · cases hmem
      exact absurd hahead hahead.not_ahead
    · exact absurd (hback _ hmem) hahead.not_ahead
  · rintro ⟨p, hp, rfl⟩
    exact ⟨(of_mem_front h hp).1, hfront p hp _ List.mem_cons_self⟩

end Visits

section Landing

/-- The bits of the group `h` that are taken when `i` is visited. -/
def heldAhead (widths : List ℕ) (slot : ℕ → Slot) (i h : ℕ) : ℕ :=
  ∑ j ∈ ahead widths i with (slot j).group = h, widths.getD j 0

/-- The width at `i` lands in the first group with room for it, behind all that the group holds by then. A group that
holds nothing has room for every width, so that a new group is opened where no other has room. -/
structure Lands (g : ℕ) (widths : List ℕ) (slot : ℕ → Slot) (i : ℕ) : Prop where
  group : IsLeast {h | heldAhead widths slot i h + widths.getD i 0 ≤ g} (slot i).group
  offset : (slot i).offset = heldAhead widths slot i (slot i).group

/-- The width at `i` lands in one of the groups that a layout may have. -/
def Placed (g : ℕ) (widths : List ℕ) (slot : ℕ → Slot) (i : ℕ) : Prop :=
  Lands g widths slot i ∧ (slot i).group < maxGroups

/-- The width at `i` is the first one visited that would open one group too many. -/
structure Stops (g : ℕ) (widths : List ℕ) (slot : ℕ → Slot) (i : ℕ) : Prop where
  lt : i < widths.length
  placed : ∀ j ∈ ahead widths i, Placed g widths slot j
  lands : Lands g widths slot i
  group : (slot i).group = maxGroups

/-- What first fit decreasing comes to on `widths`, in groups of `g` bits. -/
inductive Outcome (g : ℕ) (widths : List ℕ) : Except (ℕ × PackError) Layout → Prop
  /-- The first width that is too wide for a group is refused. -/
  | tooWide {i : ℕ} (hi : IsLeast {i | g < widths.getD i 0} i) :
      Outcome g widths (.error (i, .tooWide (widths.getD i 0) g))
  | exhausted {slot : ℕ → Slot} {i : ℕ} (hle : ∀ w ∈ widths, w ≤ g) (hi : Stops g widths slot i) :
      Outcome g widths (.error (i, .exhausted))
  /-- Every width has the slot where it lands, and the groups that were opened are counted. -/
  | packed {slot : ℕ → Slot} (hle : ∀ w ∈ widths, w ≤ g) (hslot : ∀ i < widths.length, Placed g widths slot i) :
      Outcome g widths (.ok ⟨(List.range widths.length).map slot,
        ((Finset.range widths.length).image fun i => (slot i).group).card, g⟩)

variable {g : ℕ} {widths : List ℕ} {slot slot' : ℕ → Slot} {i i' : ℕ}

theorem heldAhead_congr (h : ∀ j ∈ ahead widths i, slot j = slot' j) (k : ℕ) :
    heldAhead widths slot i k = heldAhead widths slot' i k := by
  unfold heldAhead
  refine Finset.sum_congr (Finset.filter_congr fun j hj => ?_) fun _ _ => rfl
  rw [h j hj]

theorem Placed.congr (h : Placed g widths slot i) (hself : slot i = slot' i)
    (hahead : ∀ j ∈ ahead widths i, slot j = slot' j) : Placed g widths slot' i := by
  obtain ⟨⟨hgroup, hoffset⟩, hlt⟩ := h
  simp only [hself, heldAhead_congr hahead] at hgroup hoffset hlt
  exact ⟨⟨hgroup, hoffset⟩, hlt⟩

theorem Lands.eq (h : Lands g widths slot i) (h' : Lands g widths slot' i)
    (hahead : ∀ j ∈ ahead widths i, slot j = slot' j) : slot i = slot' i := by
  have hheld := heldAhead_congr hahead
  have hgroup : (slot i).group = (slot' i).group := by
    have hleast := h.group
    simp only [hheld] at hleast
    exact hleast.unique h'.group
  have hoffset : (slot i).offset = (slot' i).offset := by rw [h.offset, h'.offset, hheld, hgroup]
  cases hs : slot i
  cases hs' : slot' i
  rw [hs, hs'] at hgroup hoffset
  exact congrArg₂ Slot.mk hgroup hoffset

theorem lands_unique (hahead : ∀ j ∈ ahead widths i, Lands g widths slot j) (h : Lands g widths slot i)
    (hahead' : ∀ j ∈ ahead widths i, Lands g widths slot' j) (h' : Lands g widths slot' i) : slot i = slot' i := by
  induction hn : (ahead widths i).card using Nat.strong_induction_on generalizing i with
  | _ n ih =>
    refine h.eq h' fun j hj => ?_
    exact ih _ (hn ▸ card_ahead_lt hj) (fun k hk => hahead k (ahead_subset hj hk)) (hahead j hj)
      (fun k hk => hahead' k (ahead_subset hj hk)) (hahead' j hj) rfl

theorem Stops.not_placed (h : Stops g widths slot i) (hahead : ∀ j ∈ ahead widths i, Placed g widths slot' j) :
    ¬ Placed g widths slot' i := by
  rintro ⟨hlands, hlt⟩
  have heq := lands_unique (fun j hj => (h.placed j hj).1) h.lands (fun j hj => (hahead j hj).1) hlands
  rw [← heq, h.group] at hlt
  omega

theorem Stops.not_ahead (h : Stops g widths slot i) (h' : Stops g widths slot' i') : ¬ Ahead widths i i' := by
  intro hahead
  have hmem := mem_ahead.2 ⟨h.lt, hahead⟩
  exact h.not_placed (fun j hj => h'.placed j (ahead_subset hmem hj)) (h'.placed i hmem)

theorem Stops.eq (h : Stops g widths slot i) (h' : Stops g widths slot' i') : i = i' := by
  by_contra hne
  rcases ahead_or_ahead widths hne with hahead | hahead
  · exact h.not_ahead h' hahead
  · exact h'.not_ahead h hahead

theorem Stops.not_all_placed (h : Stops g widths slot i) : ¬ ∀ j < widths.length, Placed g widths slot' j := by
  intro hplaced
  exact h.not_placed (fun j hj => hplaced j (mem_ahead.1 hj).1) (hplaced i h.lt)

theorem Outcome.unique {r r' : Except (ℕ × PackError) Layout} (h : Outcome g widths r) (h' : Outcome g widths r') :
    r = r' := by
  cases h with
  | tooWide hi =>
    cases h' with
    | tooWide hi' => rw [hi.unique hi']
    | exhausted hle | packed hle => exact absurd (getD_le hle _) (not_le.2 hi.1)
  | exhausted hle hi =>
    cases h' with
    | tooWide hi' => exact absurd (getD_le hle _) (not_le.2 hi'.1)
    | exhausted _ hi' => rw [hi.eq hi']
    | packed _ hslot => exact absurd hslot hi.not_all_placed
  | @packed slot hle hslot =>
    cases h' with
    | tooWide hi' => exact absurd (getD_le hle _) (not_le.2 hi'.1)
    | exhausted _ hi' => exact absurd hslot hi'.not_all_placed
    | @packed slot' _ hslot' =>
      have heq : ∀ i < widths.length, slot i = slot' i := fun i hi =>
        lands_unique (fun j hj => (hslot j (mem_ahead.1 hj).1).1) (hslot i hi).1
          (fun j hj => (hslot' j (mem_ahead.1 hj).1).1) (hslot' i hi).1
      have hslots : (List.range widths.length).map slot = (List.range widths.length).map slot' :=
        List.map_congr_left fun i hi => heq i (List.mem_range.1 hi)
      have hgroups : (Finset.range widths.length).image (fun i => (slot i).group) =
          (Finset.range widths.length).image fun i => (slot' i).group :=
        Finset.image_congr fun i hi => congrArg Slot.group (heq i (by simpa using hi))
      rw [hslots, hgroups]

end Landing

section Runs

variable {g count : ℕ} {widths : List ℕ} {slot : ℕ → Slot} {placed : List (ℕ × Slot)} {front back : List (ℕ × ℕ)}

theorem FirstFit.of_cons {w : ℕ} {s : Slot} (h : FirstFit g ((w, s) :: placed) count) :
    (∃ count', FirstFit g placed count') ∧ IsLeast {k | loadOf placed k + w ≤ g} s.group ∧
      s.offset = loadOf placed s.group ∧ s.group < maxGroups := by
  cases h with
  | place h _ hroom hfit hfirst =>
    refine ⟨⟨_, h⟩, ⟨hfit, fun k hk => ?_⟩, rfl, hroom⟩
    by_contra hlt
    exact absurd (hfirst k (not_le.1 hlt)) (not_lt.2 hk)

theorem FirstFit.of_append (later : List (ℕ × Slot)) : ∀ {count : ℕ}, FirstFit g (later ++ placed) count →
    ∃ count', FirstFit g placed count' := by
  induction later with
  | nil => exact fun h => ⟨_, h⟩
  | cons p later ih =>
    intro count h
    obtain ⟨⟨count', h'⟩, -⟩ := h.of_cons
    exact ih h'

theorem loadOf_eq_sum (placed : List (ℕ × Slot)) (k : ℕ) :
    loadOf placed k = (placed.map fun p => if p.2.group = k then p.1 else 0).sum := by
  induction placed with
  | nil => rfl
  | cons p placed ih => rw [loadOf_cons, ih, List.map_cons, List.sum_cons]

/-- What a group holds when a width is visited, by the widths placed so far and by the indices ahead. -/
theorem loadOf_front {i w : ℕ} (h : order widths = front ++ (w, i) :: back) (slot : ℕ → Slot) (k : ℕ) :
    loadOf (front.reverse.map fun p => (p.1, slot p.2)) k = heldAhead widths slot i k := by
  rw [heldAhead, ahead_eq_of_order h, Finset.sum_filter, List.sum_toFinset _ (front_nodup h), loadOf_eq_sum,
    List.map_reverse, List.map_reverse, List.sum_reverse, List.map_map, List.map_map]
  refine congrArg List.sum (List.map_congr_left fun p hp => ?_)
  simp only [Function.comp_apply, (of_mem_front h hp).2]

theorem FirstFit.placed_of_order (horder : order widths = front ++ back)
    (h : FirstFit g (front.reverse.map fun p => (p.1, slot p.2)) count) :
    ∀ p ∈ front, Placed g widths slot p.2 := by
  intro p hp
  have hwidth := (of_mem_front horder hp).2
  obtain ⟨before, after, rfl⟩ := List.append_of_mem hp
  rw [List.append_assoc, List.cons_append] at horder
  rw [List.reverse_append, List.reverse_cons, List.append_assoc, List.singleton_append, List.map_append,
    List.map_cons] at h
  obtain ⟨count', h'⟩ := FirstFit.of_append _ h
  obtain ⟨-, hleast, hoffset, hroom⟩ := h'.of_cons
  simp only [loadOf_front horder, hwidth] at hleast hoffset
  exact ⟨⟨hleast, hoffset⟩, hroom⟩

/-- A group with room, before which all groups have been tried, is the first one with room. -/
theorem isLeast_of_passes {g width k : ℕ} {s : State} (hfit : s.load k + width ≤ g)
    (hpassed : ∀ j < k, Passes g width (s.load j)) : IsLeast {j | s.load j + width ≤ g} k := by
  refine ⟨hfit, fun j hj => ?_⟩
  by_contra hlt
  exact absurd (hpassed j (not_le.1 hlt)).1 (not_lt.2 hj)

/-- If all groups are open and have been tried, the first one with room is one too many. -/
theorem Placing.isLeast_maxGroups {n width : ℕ} {placed : List (ℕ × ℕ)} {s : State} {g : ℕ} (h : Placing g n placed s)
    (hwidth : width ≤ g) (hfull : maxGroups ≤ s.used.size) (hpassed : ∀ j < s.used.size, Passes g width (s.load j)) :
    IsLeast {k | s.load k + width ≤ g} maxGroups := by
  have hsize : s.used.size = maxGroups := le_antisymm h.firstFit.count_le hfull
  rw [← hsize]
  exact isLeast_of_passes (by rw [load_size]; omega) hpassed

end Runs

section Outcomes

variable {g : UInt32} {widths : List ℕ}

theorem outcome_of_find? {g i width : ℕ} (h : widths.zipIdx.find? (fun item => g < item.1) = some (width, i)) :
    Outcome g widths (.error (i, .tooWide width g)) := by
  obtain ⟨hwide, k, hk, hitem, hfirst⟩ := List.find?_eq_some_iff_getElem.1 h
  rw [List.length_zipIdx] at hk
  rw [List.getElem_zipIdx, Nat.zero_add] at hitem
  obtain ⟨rfl, rfl⟩ := Prod.mk.inj hitem
  have hleast : IsLeast {i | g < widths.getD i 0} k := by
    refine ⟨?_, fun j hj => ?_⟩
    · change g < widths.getD k 0
      rw [List.getD_eq_getElem _ _ hk]
      exact of_decide_eq_true hwide
    · by_contra hlt
      have := hfirst j (by omega)
      rw [List.getElem_zipIdx] at this
      change g < widths.getD j 0 at hj
      rw [List.getD_eq_getElem _ _ (by omega)] at hj
      simp at this
      omega
  have := Outcome.tooWide hleast
  rwa [List.getD_eq_getElem _ _ hk] at this

section Visit

variable {front back : List (ℕ × ℕ)} {item : ℕ × ℕ} {s : State}

theorem Placing.placed_ahead (h : Placing g.toNat widths.length front.reverse s)
    (horder : order widths = front ++ item :: back) : ∀ j ∈ ahead widths item.2, Placed g.toNat widths s.slotAt j := by
  intro j hj
  rw [ahead_eq_of_order horder, List.mem_toFinset, List.mem_map] at hj
  obtain ⟨p, hp, rfl⟩ := hj
  exact h.firstFit.placed_of_order horder p hp

theorem Placing.heldAhead_eq (h : Placing g.toNat widths.length front.reverse s)
    (horder : order widths = front ++ item :: back) (k : ℕ) : heldAhead widths s.slotAt item.2 k = s.load k := by
  rw [← loadOf_front horder, h.loads]

/-- When a width is visited, those ahead of it have landed, and it lands in the first group with room for it. -/
theorem Placing.exists_lands {k : ℕ} (h : Placing g.toNat widths.length front.reverse s)
    (horder : order widths = front ++ item :: back) (hk : IsLeast {k | s.load k + item.1 ≤ g.toNat} k) :
    ∃ slot : ℕ → Slot, (slot item.2).group = k ∧ (∀ j ∈ ahead widths item.2, s.slotAt j = slot j) ∧
      (∀ j ∈ ahead widths item.2, Placed g.toNat widths slot j) ∧ Lands g.toNat widths slot item.2 ∧
      ∀ k, heldAhead widths slot item.2 k = s.load k := by
  -- the slots given so far, and for this width the one behind all that its group holds
  obtain ⟨slot, hself, hothers⟩ : ∃ slot : ℕ → Slot, slot item.2 = ⟨k, s.load k⟩ ∧
      ∀ j ∈ ahead widths item.2, s.slotAt j = slot j :=
    ⟨Function.update s.slotAt item.2 ⟨k, s.load k⟩, Function.update_self ..,
      fun j hj => (Function.update_of_ne (ne_of_mem_ahead hj) _ _).symm⟩
  have hload : ∀ k, heldAhead widths slot item.2 k = s.load k := fun k => by
    rw [← heldAhead_congr hothers, h.heldAhead_eq horder]
  refine ⟨slot, by rw [hself], hothers, fun j hj => ?_, ⟨?_, ?_⟩, hload⟩
  · exact (h.placed_ahead horder j hj).congr (hothers j hj) fun k hk => hothers k (ahead_subset hj hk)
  · simp only [hload, hself, ← (of_order horder).2]
    exact hk
  · rw [hload, hself]

theorem exists_stops (hle : ∀ w ∈ widths, w ≤ g.toNat) (horder : order widths = front ++ item :: back)
    (hs : Leads g widths front s) (hfull : maxGroups ≤ s.used.size)
    (hpassed : ∀ j < s.used.size, Passes g.toNat item.1 (s.load j)) : ∃ slot, Stops g.toNat widths slot item.2 := by
  have hplacing := hs.placing hle horder
  have hleast := hplacing.isLeast_maxGroups (width_le_of_order hle horder) hfull hpassed
  obtain ⟨slot, hgroup, -, hahead, hlands, -⟩ := hplacing.exists_lands horder hleast
  exact ⟨slot, (of_order horder).1, hahead, hlands, hgroup⟩

end Visit

theorem FirstFit.placed {g : ℕ} {l : Layout} (hfit : FirstFit g (l.placed widths) l.groupCount) :
    ∀ i < widths.length, Placed g widths l.slotAt i := fun i hi =>
  hfit.placed_of_order (List.append_nil _).symm (widths.getD i 0, i) (mem_order.2 ⟨hi, rfl⟩)

theorem placed_of_pack {l : Layout} (h : pack g widths = .ok l) :
    ∀ i < widths.length, Placed g.toNat widths l.slotAt i :=
  (pack_firstFit h).2.2.placed

theorem FirstFit.image_group {g : ℕ} {l : Layout} (hfit : FirstFit g (l.placed widths) l.groupCount) :
    (Finset.range widths.length).image (fun i => (l.slotAt i).group) = Finset.range l.groupCount := by
  ext k
  simp only [Finset.mem_image, Finset.mem_range]
  constructor
  · rintro ⟨i, hi, rfl⟩
    exact hfit.group_lt _ (Layout.mem_placed.2 ⟨i, hi, rfl⟩)
  · intro hk
    obtain ⟨p, hp, rfl⟩ := hfit.exists_group_eq hk
    obtain ⟨i, hi, rfl⟩ := Layout.mem_placed.1 hp
    exact ⟨i, hi, rfl⟩

theorem image_group_of_pack {l : Layout} (h : pack g widths = .ok l) :
    (Finset.range widths.length).image (fun i => (l.slotAt i).group) = Finset.range l.groupCount :=
  (pack_firstFit h).2.2.image_group

theorem outcome_of_pack {l : Layout} (h : pack g widths = .ok l) : Outcome g.toNat widths (.ok l) := by
  obtain ⟨hwidth, hlength, hfit⟩ := pack_firstFit h
  have hslots : l.slots = (List.range widths.length).map l.slotAt := by
    apply List.ext_getElem
    · simp [hlength]
    · intro i h1 h2
      simp [Layout.slotAt, h1]
  have hl : l = ⟨(List.range widths.length).map l.slotAt,
      ((Finset.range widths.length).image fun i => (l.slotAt i).group).card, g.toNat⟩ := by
    rw [hfit.image_group, Finset.card_range, ← hslots, ← hwidth]
  rw [hl]
  exact .packed (of_pack h).1 hfit.placed

theorem outcome_of_ne_overflow (h : ∀ i, pack g widths ≠ .error (i, .overflow)) :
    Outcome g.toNat widths (pack g widths) := by
  cases hpack : pack g widths with
  | ok l => exact outcome_of_pack hpack
  | error e =>
    rcases of_pack_error hpack with ⟨width, i, hfind, rfl⟩ | ⟨hle, front, item, back, s, horder, hs, hsteps⟩
    · exact outcome_of_find? hfind
    · cases hsteps with
      | exhausted hfull hpassed =>
        obtain ⟨slot, hstops⟩ := exists_stops hle horder hs hfull hpassed
        exact .exhausted hle hstops
      | overflow => exact absurd hpack (h _)

theorem pack_ne_overflow (hg : 2 * g.toNat < 2 ^ 32) (widths : List ℕ) (i : ℕ) :
    pack g widths ≠ .error (i, .overflow) := by
  intro hpack
  rcases of_pack_error hpack with ⟨width, i, -, heq⟩ | ⟨hle, front, item, back, s, horder, hs, hsteps⟩
  · cases heq
  · cases hsteps with
    | @overflow k _ _ hover =>
      have hplacing := hs.placing hle horder
      have hload : s.load k ≤ g.toNat := hplacing.loads k ▸ hplacing.firstFit.load_le k
      have hwidth := width_le_of_order hle horder
      omega

/-- The groups of a unit are words, and its variables are packed without overflow. -/
theorem pack_word_ne_overflow (w : Word) (widths : List ℕ) (i : ℕ) :
    pack w.bits.toUInt32 widths ≠ .error (i, .overflow) :=
  pack_ne_overflow (by rw [w.toNat_bits]; cases w <;> decide) widths i

theorem outcome_pack (hg : 2 * g.toNat < 2 ^ 32) (widths : List ℕ) : Outcome g.toNat widths (pack g widths) :=
  outcome_of_ne_overflow (pack_ne_overflow hg widths)

end Outcomes
end Packing

/-- Packing is first fit decreasing. -/
theorem pack_eq_iff_outcome {g : UInt32} (hg : 2 * g.toNat < UInt32.size) (widths : List ℕ)
    (r : Except (ℕ × PackError) Layout) : pack g widths = r ↔ Packing.Outcome g.toNat widths r := by
  constructor
  · rintro rfl
    exact Packing.outcome_pack hg widths
  · exact (Packing.outcome_pack hg widths).unique

/-- Two equal widths fill a group between them; a narrower one given before all others comes last. -/
theorem pack_eq_iff_outcome_of_ties : 2 * (16 : UInt32).toNat < UInt32.size ∧
    Packing.Outcome 16 [3, 8, 5, 8] (.ok ⟨[⟨1, 5⟩, ⟨0, 0⟩, ⟨1, 0⟩, ⟨0, 8⟩], 2, 16⟩) ∧
    ¬ Packing.Outcome 16 [3, 8, 5, 8] (.ok ⟨[⟨1, 5⟩, ⟨0, 8⟩, ⟨1, 0⟩, ⟨0, 0⟩], 2, 16⟩) := by
  have hpack : pack 16 [3, 8, 5, 8] = .ok ⟨[⟨1, 5⟩, ⟨0, 0⟩, ⟨1, 0⟩, ⟨0, 8⟩], 2, 16⟩ := by cbv
  refine ⟨by decide, (pack_eq_iff_outcome (by decide) _ _).1 hpack, fun hother => ?_⟩
  have := (pack_eq_iff_outcome (g := 16) (by decide) _ _).2 hother
  rw [hpack] at this
  simp at this

end Bitpack
