import Mathlib
import Bitpack.Packing
import Bitpack.Proofs.Slots

/-! First fit, without the state that packing keeps. Each width goes to the first group with room, behind all that the
group holds already; the group behind the last one is empty and has room for every width. -/

namespace Bitpack.Packing

/-- The bits that a group holds, given the widths with their slots. -/
def loadOf (placed : List (ℕ × Slot)) (k : ℕ) : ℕ :=
  ((placed.filter fun p => p.2.group = k).map (·.1)).sum

/-- The slots that first fit gives to widths, the latest first, and the number of groups that they take. -/
inductive FirstFit (g : ℕ) : List (ℕ × Slot) → ℕ → Prop
  | nil : FirstFit g [] 0
  | place {placed : List (ℕ × Slot)} {count width k : ℕ} (h : FirstFit g placed count) (hk : k ≤ count)
      (hroom : k < maxGroups) (hfit : loadOf placed k + width ≤ g) (hfirst : ∀ j < k, g < loadOf placed j + width) :
      FirstFit g ((width, ⟨k, loadOf placed k⟩) :: placed) (max count (k + 1))

variable {g count k : ℕ} {placed : List (ℕ × Slot)}

theorem loadOf_cons (p : ℕ × Slot) (placed : List (ℕ × Slot)) (k : ℕ) :
    loadOf (p :: placed) k = (if p.2.group = k then p.1 else 0) + loadOf placed k := by
  unfold loadOf
  by_cases hk : p.2.group = k <;> simp [hk]

namespace FirstFit

theorem group_lt (h : FirstFit g placed count) : ∀ p ∈ placed, p.2.group < count := by
  induction h with
  | nil => exact List.forall_mem_nil _
  | place _ _ _ _ _ ih =>
    refine List.forall_mem_cons.2 ⟨?_, fun p hp => ?_⟩
    · exact lt_max_of_lt_right (Nat.lt_succ_self _)
    · exact lt_max_of_lt_left (ih p hp)

theorem count_le (h : FirstFit g placed count) : count ≤ maxGroups := by
  induction h with
  | nil => exact Nat.zero_le _
  | place _ _ hroom _ _ ih => exact max_le ih hroom

theorem load_le (h : FirstFit g placed count) (k : ℕ) : loadOf placed k ≤ g := by
  induction h with
  | nil => exact Nat.zero_le g
  | @place placed count width group _ _ _ hfit _ ih =>
    rw [loadOf_cons]
    split_ifs with hk
    · subst hk
      rwa [Nat.add_comm]
    · rwa [Nat.zero_add]

theorem end_le_load (h : FirstFit g placed count) : ∀ p ∈ placed, p.2.offset + p.1 ≤ loadOf placed p.2.group := by
  induction h with
  | nil => exact List.forall_mem_nil _
  | place _ _ _ _ _ ih =>
    refine List.forall_mem_cons.2 ⟨?_, fun p hp => ?_⟩
    · rw [loadOf_cons, if_pos rfl, Nat.add_comm]
    · rw [loadOf_cons]
      exact (ih p hp).trans (Nat.le_add_left _ _)

/-- No two slots overlap: a new one begins where the load of its group ends. -/
theorem apart (h : FirstFit g placed count) : placed.Pairwise fun p q => p.2.Apart p.1 q.2 q.1 := by
  induction h with
  | nil => exact .nil
  | @place placed count width k h _ _ _ _ ih =>
    refine List.pairwise_cons.2 ⟨fun q hq => ?_, ih⟩
    by_cases hsame : k = q.2.group
    · subst hsame
      exact Or.inr (Or.inr (h.end_le_load q hq))
    · exact Or.inl hsame

theorem covers (h : FirstFit g placed count) {bit : ℕ} (hbit : bit < loadOf placed k) :
    ∃ p ∈ placed, p.2.group = k ∧ p.2.offset ≤ bit ∧ bit < p.2.offset + p.1 := by
  induction h with
  | nil => exact absurd hbit (Nat.not_lt_zero _)
  | @place placed count width group _ _ _ _ _ ih =>
    by_cases hold : bit < loadOf placed k
    · obtain ⟨p, hp, hcovers⟩ := ih hold
      exact ⟨p, List.mem_cons_of_mem _ hp, hcovers⟩
    · rw [loadOf_cons] at hbit
      split_ifs at hbit with hk
      · obtain rfl : group = k := hk
        exact ⟨_, List.mem_cons_self, rfl, by dsimp only; omega, by dsimp only; omega⟩
      · omega

theorem exists_group_eq (h : FirstFit g placed count) (hk : k < count) : ∃ p ∈ placed, p.2.group = k := by
  induction h with
  | nil => exact absurd hk (Nat.not_lt_zero _)
  | @place placed count width group _ hgroup _ _ _ ih =>
    by_cases hold : k < count
    · obtain ⟨p, hp, hgroup⟩ := ih hold
      exact ⟨p, List.mem_cons_of_mem _ hp, hgroup⟩
    · exact ⟨_, List.mem_cons_self, by dsimp only; omega⟩

end FirstFit
end Bitpack.Packing
