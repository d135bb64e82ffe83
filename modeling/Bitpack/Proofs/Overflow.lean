import Mathlib
import Bitpack.Proofs.Decreasing

/-! Overflow in packing. The loads of groups are added to widths in 32 bits, and packing breaks off at the first sum that
leaves them. First fit decreasing, whose sums have any size, says when that is: a width is tried on all groups before the
one where it lands, and one of these sums is too great. As long as twice the width of a group has room in 32 bits there is
no such sum, and for every wider group there are widths that have one. -/

namespace Bitpack

namespace Packing

section Trials

/-- A width is tried on all groups before the one where it lands. What each of them holds stays below `bound` together
with the width. -/
def TriedBelow (bound : ℕ) (widths : List ℕ) (slot : ℕ → Slot) (i : ℕ) : Prop :=
  ∀ k < (slot i).group, heldAhead widths slot i k + widths.getD i 0 < bound

/-- The width at `i` is the first one visited that is tried on a group where the sum reaches `bound`. -/
structure Breaks (bound g : ℕ) (widths : List ℕ) (slot : ℕ → Slot) (i : ℕ) : Prop where
  lt : i < widths.length
  placed : ∀ j ∈ ahead widths i, Placed g widths slot j
  tried : ∀ j ∈ ahead widths i, TriedBelow bound widths slot j
  lands : Lands g widths slot i
  exceeds : ¬ TriedBelow bound widths slot i

variable {bound g : ℕ} {widths : List ℕ} {slot slot' : ℕ → Slot} {i i' : ℕ}

theorem TriedBelow.congr (h : TriedBelow bound widths slot i) (hself : slot i = slot' i)
    (hahead : ∀ j ∈ ahead widths i, slot j = slot' j) : TriedBelow bound widths slot' i := by
  intro k hk
  rw [← heldAhead_congr hahead]
  exact h k (by rwa [hself])

/-- There is one way to land, so no other slots make up for a sum that is too great. -/
theorem Breaks.not_triedBelow (h : Breaks bound g widths slot i) (hahead : ∀ j ∈ ahead widths i, Placed g widths slot' j)
    (hlands : Lands g widths slot' i) : ¬ TriedBelow bound widths slot' i := by
  have hsame : ∀ j ∈ ahead widths i, slot' j = slot j := fun j hj =>
    lands_unique (fun k hk => (hahead k (ahead_subset hj hk)).1) (hahead j hj).1
      (fun k hk => (h.placed k (ahead_subset hj hk)).1) (h.placed j hj).1
  exact fun htried => h.exceeds (htried.congr (hlands.eq h.lands hsame) hsame)

theorem Breaks.not_ahead (h : Breaks bound g widths slot i)
    (hplaced : ∀ j ∈ ahead widths i', Placed g widths slot' j)
    (htried : ∀ j ∈ ahead widths i', TriedBelow bound widths slot' j) : ¬ Ahead widths i i' := by
  intro hahead
  have hmem : i ∈ ahead widths i' := mem_ahead.2 ⟨h.lt, hahead⟩
  exact h.not_triedBelow (fun j hj => hplaced j (ahead_subset hmem hj)) (hplaced i hmem).1 (htried i hmem)

theorem Breaks.eq (h : Breaks bound g widths slot i) (h' : Breaks bound g widths slot' i') : i = i' := by
  by_contra hne
  rcases ahead_or_ahead widths hne with hahead | hahead
  · exact h.not_ahead h'.placed h'.tried hahead
  · exact h'.not_ahead h.placed h.tried hahead

end Trials

section Runs

variable {g : UInt32} {widths : List ℕ} {front back : List (ℕ × ℕ)} {item : ℕ × ℕ} {s : State} {i : ℕ}

theorem Leads.triedBelow (hle : ∀ w ∈ widths, w ≤ g.toNat) (horder : order widths = front ++ back)
    (h : Leads g widths front s) : ∀ p ∈ front, TriedBelow (2 ^ 32) widths s.slotAt p.2 := by
  refine h.induction (P := fun front s => ∀ p ∈ front, TriedBelow (2 ^ 32) widths s.slotAt p.2)
    (List.forall_mem_nil _) ?_ horder
  intro front item back s s' horder hs ih hstep
  have hplacing := hs.placing hle horder
  have hsteps := steps_step s (width_le_of_order hle horder)
  rw [hstep] at hsteps
  obtain ⟨-, hpassed, -, -, -, hputs⟩ := hsteps
  rename_i k
  have hothers : ∀ j ∈ ahead widths item.2, s.slotAt j = s'.slotAt j := fun j hj =>
    (hputs.slotAt_of_ne j (ne_of_mem_ahead hj)).symm
  intro p hp
  rcases List.mem_append.1 hp with hp | hp
  · have hmem : p.2 ∈ ahead widths item.2 := by
      rw [ahead_eq_of_order horder, List.mem_toFinset]
      exact List.mem_map_of_mem hp
    exact (ih p hp).congr (hothers p.2 hmem) fun j hj => hothers j (ahead_subset hmem hj)
  · obtain rfl := List.mem_singleton.1 hp
    intro j hj
    rw [hputs.slotAt (by rw [hplacing.size]; exact (of_order horder).1)] at hj
    rw [← heldAhead_congr hothers, hplacing.heldAhead_eq horder, ← (of_order horder).2]
    exact (hpassed j hj).2

theorem Leads.exists_visit (hle : ∀ w ∈ widths, w ≤ g.toNat) (horder : order widths = front ++ item :: back)
    (h : Leads g widths front s) {k : ℕ} (hk : IsLeast {k | s.load k + item.1 ≤ g.toNat} k) :
    ∃ slot : ℕ → Slot, (slot item.2).group = k ∧ (∀ j ∈ ahead widths item.2, Placed g.toNat widths slot j) ∧
      (∀ j ∈ ahead widths item.2, TriedBelow (2 ^ 32) widths slot j) ∧ Lands g.toNat widths slot item.2 ∧
      ∀ k, heldAhead widths slot item.2 k + widths.getD item.2 0 = s.load k + item.1 := by
  obtain ⟨slot, hgroup, hothers, hplaced, hlands, hload⟩ := (h.placing hle horder).exists_lands horder hk
  refine ⟨slot, hgroup, hplaced, fun j hj => ?_, hlands, fun k => by rw [hload, (of_order horder).2]⟩
  have hfront := hj
  rw [ahead_eq_of_order horder, List.mem_toFinset] at hfront
  obtain ⟨p, hp, rfl⟩ := List.mem_map.1 hfront
  exact (h.triedBelow hle horder p hp).congr (hothers p.2 hj) fun j hj' => hothers j (ahead_subset hj hj')

theorem exists_breaks (hle : ∀ w ∈ widths, w ≤ g.toNat) (horder : order widths = front ++ item :: back)
    (hs : Leads g widths front s) {k : ℕ} (hpassed : ∀ j < k, Passes g.toNat item.1 (s.load j))
    (hover : 2 ^ 32 ≤ s.load k + item.1) : ∃ slot, Breaks (2 ^ 32) g.toNat widths slot item.2 := by
  have hlt := g.toNat_lt
  have hwidth := width_le_of_order hle horder
  obtain ⟨first, hfirst⟩ : ∃ first, IsLeast {k | s.load k + item.1 ≤ g.toNat} first :=
    ⟨_, isLeast_csInf ⟨s.used.size, by rw [Set.mem_ofPred_eq, load_size]; omega⟩⟩
  have hfit : s.load first + item.1 ≤ g.toNat := hfirst.1
  have hbefore : k < first := by
    rcases Nat.lt_trichotomy k first with hbefore | rfl | hafter
    · exact hbefore
    · omega
    · exact absurd (hpassed first hafter).1 (not_lt.2 hfit)
  obtain ⟨slot, rfl, hplaced, htried, hlands, hsum⟩ := hs.exists_visit hle horder hfirst
  refine ⟨slot, (of_order horder).1, hplaced, htried, hlands, fun hbelow => ?_⟩
  have := hbelow k hbefore
  rw [hsum] at this
  omega

theorem breaks_of_pack (h : pack g widths = .error (i, .overflow)) :
    (∀ w ∈ widths, w ≤ g.toNat) ∧ ∃ slot, Breaks (2 ^ 32) g.toNat widths slot i := by
  rcases of_pack_error h with ⟨width, i, -, heq⟩ | ⟨hle, front, item, back, s, horder, hs, hsteps⟩
  · cases heq
  · cases hsteps with
    | overflow _ hpassed hover => exact ⟨hle, exists_breaks hle horder hs hpassed hover⟩

theorem pack_of_breaks (hle : ∀ w ∈ widths, w ≤ g.toNat) {slot : ℕ → Slot}
    (h : Breaks (2 ^ 32) g.toNat widths slot i) : pack g widths = .error (i, .overflow) := by
  cases hpack : pack g widths with
  | ok l =>
    have hplaced := placed_of_pack hpack
    obtain ⟨-, s, hs, rfl⟩ := of_pack hpack
    have htried := hs.triedBelow hle (List.append_nil _).symm (widths.getD i 0, i) (mem_order.2 ⟨h.lt, rfl⟩)
    rw [show Layout.slotAt _ = s.slotAt from funext (slotAt_toList s s.used.size g.toNat)] at hplaced
    exact absurd htried (h.not_triedBelow (fun j hj => hplaced j (mem_ahead.1 hj).1) (hplaced i h.lt).1)
  | error e =>
    rcases of_pack_error hpack with ⟨width, j, hfind, rfl⟩ | ⟨-, front, item, back, s, horder, hs, hsteps⟩
    · have hmem := List.mem_of_getElem? (List.mem_zipIdx_iff_getElem?.1 (List.mem_of_find?_eq_some hfind))
      have hwide := List.find?_some hfind
      exact absurd (hle _ hmem) (not_le.2 (of_decide_eq_true hwide))
    · cases hsteps with
      | overflow _ hpassed hover =>
        obtain ⟨slot', h'⟩ := exists_breaks hle horder hs hpassed hover
        rw [h.eq h']
      | exhausted hfull hpassed =>
        have hplacing := hs.placing hle horder
        have hleast := hplacing.isLeast_maxGroups (width_le_of_order hle horder) hfull hpassed
        obtain ⟨slot', hgroup, hplaced, htried, hlands, hsum⟩ := hs.exists_visit hle horder hleast
        -- the width that would open one group too many has been tried on all the others without overflow
        by_cases hsame : i = item.2
        · subst hsame
          refine absurd (fun k hk => ?_) (h.not_triedBelow hplaced hlands)
          rw [hsum]
          exact (hpassed k (by omega)).2
        · rcases ahead_or_ahead widths hsame with hahead | hahead
          · exact absurd hahead (h.not_ahead hplaced htried)
          · have hstops : Stops g.toNat widths slot' item.2 := ⟨(of_order horder).1, hplaced, hlands, hgroup⟩
            have hmem : item.2 ∈ ahead widths i := mem_ahead.2 ⟨hstops.lt, hahead⟩
            exact absurd (h.placed _ hmem) (hstops.not_placed fun j hj => h.placed j (ahead_subset hmem hj))

end Runs

section Whole

variable {bound g n i : ℕ}

theorem getD_whole {j : ℕ} (hj : j < n) : (List.replicate n g).getD j 0 = g := by
  rw [List.getD_eq_getElem _ _ (by rwa [List.length_replicate]), List.getElem_replicate]

theorem ahead_whole (hi : i < n) : ahead (List.replicate n g) i = Finset.range i := by
  ext j
  rw [mem_ahead, Finset.mem_range, List.length_replicate]
  constructor
  · rintro ⟨hj, hahead⟩
    rw [Ahead, getD_whole hi, getD_whole hj] at hahead
    omega
  · intro hj
    rw [Ahead, getD_whole hi, getD_whole (hj.trans hi)]
    omega

theorem heldAhead_whole (hi : i < n) (k : ℕ) :
    heldAhead (List.replicate n g) (fun j => ⟨j, 0⟩) i k = if k < i then g else 0 := by
  have hsum : ∀ j ∈ Finset.range i, (if j = k then (List.replicate n g).getD j 0 else 0) = if j = k then g else 0 :=
    fun j hj => by rw [getD_whole ((Finset.mem_range.1 hj).trans hi)]
  rw [heldAhead, ahead_whole hi, Finset.sum_filter, Finset.sum_congr rfl hsum, Finset.sum_ite_eq']
  simp only [Finset.mem_range]

theorem lands_whole (hpos : 0 < g) (hi : i < n) : Lands g (List.replicate n g) (fun j => ⟨j, 0⟩) i := by
  refine ⟨⟨?_, fun k hk => ?_⟩, ?_⟩
  · rw [Set.mem_ofPred_eq, heldAhead_whole hi, getD_whole hi, if_neg (lt_irrefl i), Nat.zero_add]
  · rw [Set.mem_ofPred_eq, heldAhead_whole hi, getD_whole hi] at hk
    by_contra hlt
    rw [if_pos (not_le.1 hlt)] at hk
    omega
  · rw [heldAhead_whole hi, if_neg (lt_irrefl i)]

theorem placed_whole (hpos : 0 < g) (hn : n ≤ maxGroups) (hi : i < n) :
    Placed g (List.replicate n g) (fun j => ⟨j, 0⟩) i :=
  ⟨lands_whole hpos hi, hi.trans_le hn⟩

theorem breaks_whole (hpos : 0 < g) (hg : bound ≤ 2 * g) : Breaks bound g [g, g] (fun j => ⟨j, 0⟩) 1 := by
  rw [show [g, g] = List.replicate 2 g from rfl]
  have hzero : ∀ j ∈ ahead (List.replicate 2 g) 1, j = 0 := fun j hj => by
    rwa [ahead_whole one_lt_two, Finset.range_one, Finset.mem_singleton] at hj
  refine ⟨one_lt_two, fun j hj => ?_, fun j hj => ?_, lands_whole hpos one_lt_two, fun htried => ?_⟩
  · exact hzero j hj ▸ placed_whole hpos (by decide) two_pos
  · obtain rfl := hzero j hj
    exact fun k hk => absurd hk (Nat.not_lt_zero k)
  · have hsum := htried 0 Nat.zero_lt_one
    rw [heldAhead_whole one_lt_two, getD_whole one_lt_two, if_pos Nat.zero_lt_one] at hsum
    omega

end Whole
end Packing

/-- Packing is free of overflow for all lists of widths if and only if twice the width of a group has room in 32 bits. For
one list it overflows at the width where first fit decreasing first meets a sum without room, and otherwise it is first
fit decreasing. Whatever the width of the groups, no slot of a layout straddles the end of its group, and no
two overlap. -/
theorem pack_overflow_iff (g : UInt32) :
    ((∀ widths i, pack g widths ≠ .error (i, .overflow)) ↔ 2 * g.toNat < UInt32.size) ∧
    ∀ widths,
      (∀ i, pack g widths = .error (i, .overflow) ↔
        (∀ w ∈ widths, w ≤ g.toNat) ∧ ∃ slot, Packing.Breaks UInt32.size g.toNat widths slot i) ∧
      ((∀ i, pack g widths ≠ .error (i, .overflow)) → Packing.Outcome g.toNat widths (pack g widths)) ∧
      ∀ l, pack g widths = .ok l → l.Packs g.toNat widths := by
  refine ⟨⟨fun hnever => ?_, Packing.pack_ne_overflow⟩, fun widths =>
    ⟨fun i => ⟨Packing.breaks_of_pack, ?_⟩, Packing.outcome_of_ne_overflow, fun l h => (pack_packs h).2⟩⟩
  · by_contra hg
    have hg : 2 ^ 32 ≤ 2 * g.toNat := not_lt.1 hg
    exact hnever _ 1 (Packing.pack_of_breaks (by simp) (Packing.breaks_whole (by omega) hg))
  · rintro ⟨hle, slot, hbreaks⟩
    exact Packing.pack_of_breaks hle hbreaks

/-- A group of all bits that 32 bits can count. The two widths fill it without overflow; of two widths of a whole group
the second overflows. -/
theorem pack_overflow_iff_of_full_word :
    pack 4294967295 [2147483647, 2147483648, 0] =
      .ok ⟨[⟨0, 2147483648⟩, ⟨0, 0⟩, ⟨0, 4294967295⟩], 1, 4294967295⟩ ∧
    Layout.Packs ⟨[⟨0, 2147483648⟩, ⟨0, 0⟩, ⟨0, 4294967295⟩], 1, 4294967295⟩ 4294967295 [2147483647, 2147483648, 0] ∧
    ¬ ∀ widths i, pack 4294967295 widths ≠ .error (i, .overflow) := by
  have hpack : pack 4294967295 [2147483647, 2147483648, 0] =
      .ok ⟨[⟨0, 2147483648⟩, ⟨0, 0⟩, ⟨0, 4294967295⟩], 1, 4294967295⟩ := by cbv
  obtain ⟨hall, hlist⟩ := pack_overflow_iff 4294967295
  exact ⟨hpack, (hlist _).2.2 _ hpack, hall.not.2 (by decide)⟩

/-- Three widths of a whole group each, of half as many bits as 32 bits can count. First fit decreasing puts them in three
groups; packing breaks off at the second, which it adds to the first. -/
theorem whole_groups_overflow :
    pack 2147483648 [2147483648, 2147483648, 2147483648] = .error (1, .overflow) ∧
    Packing.Outcome 2147483648 [2147483648, 2147483648, 2147483648]
      (.ok ⟨[⟨0, 0⟩, ⟨1, 0⟩, ⟨2, 0⟩], 3, 2147483648⟩) := by
  have hplaced := @Packing.placed_whole 2147483648 3
  exact ⟨by cbv, @Packing.Outcome.packed _ _ (fun j => ⟨j, 0⟩) (by simp) fun i hi => hplaced (by decide) (by decide) hi⟩

end Bitpack
