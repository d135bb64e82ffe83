import Mathlib
import Bitpack.Build.Tool

/-! Temporary paths. A reservation draws numbers until one of them has no source file yet, and makes that file, so later
reservations meet it. Where files are made exactly if there is none of their name, no path is therefore handed out
twice, however many units are built and whatever numbers are drawn. -/

namespace Bitpack

section Names

namespace Text

def hexAlphabet : List Char :=
  "0123456789abcdef".toList

/-- The number that hexadecimal digits stand for. -/
def hexValue (cs : List Char) : ℕ :=
  cs.foldl (fun n c => 16 * n + hexAlphabet.idxOf c) 0

theorem hexValue_concat (cs : List Char) (c : Char) : hexValue (cs ++ [c]) = 16 * hexValue cs + hexAlphabet.idxOf c := by
  rw [hexValue, List.foldl_append]
  rfl

theorem digitChar_hex : ∀ n < 16, n.digitChar ∈ hexAlphabet ∧ hexAlphabet.idxOf n.digitChar = n := by
  decide

theorem hexDigits_spec (n : ℕ) : (∀ c ∈ hexDigits n, c ∈ hexAlphabet) ∧ hexValue (hexDigits n) = n := by
  induction n using Nat.strongRecOn with
  | ind n ih =>
    unfold hexDigits
    rw [Nat.toDigits_eq_if (by decide)]
    split_ifs with hn
    · obtain ⟨hmem, hindex⟩ := digitChar_hex n hn
      refine ⟨List.forall_mem_singleton.2 hmem, ?_⟩
      rw [← List.nil_append [n.digitChar], hexValue_concat, hindex]
      exact Nat.zero_add n
    · obtain ⟨hmem, hvalue⟩ := ih (n / 16) (by omega)
      obtain ⟨hlast, hindex⟩ := digitChar_hex (n % 16) (Nat.mod_lt n (by decide))
      refine ⟨List.forall_mem_append.2 ⟨hmem, List.forall_mem_singleton.2 hlast⟩, ?_⟩
      rw [hexValue_concat, hindex]
      unfold hexDigits at hvalue
      rw [hvalue, Nat.div_add_mod]

/-- The digits of a number in a field of a fixed width. -/
structure Spells (width n : ℕ) (digits : String) : Prop where
  length : digits.length = width
  alphabet : ∀ c ∈ digits.toList, c ∈ hexAlphabet
  value : hexValue digits.toList = n

theorem spells_hexPadded {width n : ℕ} (hwidth : 0 < width) (hn : n < 16 ^ width) :
    Spells width n (hexPadded width n) := by
  obtain ⟨hmem, hvalue⟩ := hexDigits_spec n
  have hle : (hexDigits n).length ≤ width := (Nat.length_toDigits_le_iff (by decide) hwidth).2 hn
  have hzeros : ∀ k, hexValue (List.replicate k '0') = 0 := by
    intro k
    induction k with
    | zero => rfl
    | succ k ih =>
      rw [List.replicate_succ', hexValue_concat, ih]
      rfl
  refine ⟨?_, ?_, ?_⟩
  · rw [hexPadded, String.length_ofList, List.length_append, List.length_replicate]
    omega
  · rw [hexPadded, String.toList_ofList]
    refine List.forall_mem_append.2 ⟨fun c hc => ?_, hmem⟩
    rw [List.eq_of_mem_replicate hc]
    decide
  · rw [hexPadded, String.toList_ofList, hexValue, List.foldl_append, ← hexValue, hzeros]
    exact hvalue

end Text

theorem UnitPaths.ofId_spells (base : String) (id : UInt64) : ∃ digits, Text.Spells 16 id.toNat digits ∧
    ofId base id = ⟨base ++ digits ++ ".c", base ++ digits ++ ".o"⟩ :=
  ⟨_, Text.spells_hexPadded (by decide) id.toNat_lt, rfl⟩

/-- The endings have the same length, so paths of different units differ in what stands before them. -/
theorem UnitPaths.source_eq_of_object_eq {base : String} {id id' : UInt64}
    (h : (ofId base id).object = (ofId base id').object) : (ofId base id).source = (ofId base id').source :=
  congrArg (· ++ ".c") ((String.append_left_inj _).1 h)

end Names

section Disks

/-- The files that there are, and how many numbers have been drawn. -/
structure Disk where
  files : Set String
  drawn : ℕ

namespace Disk

open Classical in
/-- Numbers come in the order of `ids`, and a file is made exactly if there is none of its name. There is nothing to
read and no tool to run. -/
noncomputable def answer (ids : ℕ → UInt64) : (q : Request) → StateM Disk q.Answer
  | .drawId => fun d => (Except.ok (ids d.drawn), { d with drawn := d.drawn + 1 })
  | .createFile path => fun d =>
    if path ∈ d.files then (Creation.taken, d) else (Creation.created, { d with files := insert path d.files })
  | .fileExists path => fun d => (decide (path ∈ d.files), d)
  | .readSource _ => fun d => (Except.error "", d)
  | .runTool .. => fun d => (Except.error "", d)
  | .writeFile .. => fun d => (Except.ok (), d)
  | .emit .. => fun d => (Except.ok (), d)

/-- What a plan comes to on a disk, and what it leaves behind. -/
noncomputable def carryOut {α : Type} (ids : ℕ → UInt64) (x : Build α) (d : Disk) : Except ToolError α × Disk :=
  (x.run.perform (answer ids)).run d

section Steps

variable {α β : Type} {ids : ℕ → UInt64} {d d' : Disk}

theorem carryOut_bind {x : Build α} {f : α → Build β} {a : α} (h : carryOut ids x d = (.ok a, d')) :
    carryOut ids (x >>= f) d = carryOut ids (f a) d' := by
  have hperform : ∀ {γ δ : Type} (p : Plan γ) (g : γ → Plan δ) (d : Disk), ((p >>= g).perform (answer ids)).run d =
      ((g ((p.perform (answer ids)).run d).1).perform (answer ids)).run ((p.perform (answer ids)).run d).2 := by
    intro γ δ p g
    induction p with
    | done a => exact fun _ => rfl
    | ask q next ih => exact fun d => ih _ _
  unfold carryOut at h ⊢
  exact (hperform x.run _ d).trans (by rw [h]; rfl)

theorem carryOut_drawId : carryOut ids Build.drawId d = (.ok (ids d.drawn), { d with drawn := d.drawn + 1 }) :=
  rfl

theorem carryOut_createFile_taken {path : String} (h : path ∈ d.files) :
    carryOut ids (Build.createFile path) d = (.ok .taken, d) := by
  have hanswer : answer ids (.createFile path) d = (Creation.taken, d) := if_pos h
  exact congrArg (fun r : Creation × Disk => (Except.ok r.1, r.2)) hanswer

theorem carryOut_createFile_created {path : String} (h : path ∉ d.files) :
    carryOut ids (Build.createFile path) d = (.ok .created, { d with files := insert path d.files }) := by
  have hanswer : answer ids (.createFile path) d = (Creation.created, { d with files := insert path d.files }) :=
    if_neg h
  exact congrArg (fun r : Creation × Disk => (Except.ok r.1, r.2)) hanswer

theorem carryOut_reserveWithin_taken {base : String} (n : ℕ)
    (h : (UnitPaths.ofId base (ids d.drawn)).source ∈ d.files) : carryOut ids (UnitPaths.reserveWithin base (n + 1)) d =
      carryOut ids (UnitPaths.reserveWithin base n) { d with drawn := d.drawn + 1 } :=
  (carryOut_bind carryOut_drawId).trans (carryOut_bind (carryOut_createFile_taken (d := ⟨d.files, d.drawn + 1⟩) h))

theorem carryOut_reserveWithin_free {base : String} (n : ℕ)
    (h : (UnitPaths.ofId base (ids d.drawn)).source ∉ d.files) : carryOut ids (UnitPaths.reserveWithin base (n + 1)) d =
      (.ok (.ofId base (ids d.drawn)), ⟨insert (UnitPaths.ofId base (ids d.drawn)).source d.files, d.drawn + 1⟩) :=
  (carryOut_bind carryOut_drawId).trans (carryOut_bind (carryOut_createFile_created (d := ⟨d.files, d.drawn + 1⟩) h))

end Steps

section Reservations

variable {ids : ℕ → UInt64} {base : String} {d d' : Disk}

/-- There is a source file already for the number that is drawn after `k` others. -/
def Taken (ids : ℕ → UInt64) (base : String) (d : Disk) (k : ℕ) : Prop :=
  (UnitPaths.ofId base (ids (d.drawn + k))).source ∈ d.files

/-- What drawing `n` numbers at most comes to, and the disk that it leaves. -/
inductive Reserves (ids : ℕ → UInt64) (base : String) (d : Disk) (n : ℕ) : Except ToolError UnitPaths → Disk → Prop
  /-- The numbers up to the first one without a source file are drawn, and only that file is made. -/
  | made (k : ℕ) (hk : k < n) (htaken : ∀ j < k, d.Taken ids base j) (hfree : ¬ d.Taken ids base k) :
      Reserves ids base d n (.ok (.ofId base (ids (d.drawn + k))))
        ⟨insert (UnitPaths.ofId base (ids (d.drawn + k))).source d.files, d.drawn + k + 1⟩
  /-- All numbers drawn have a source file, and none is made. -/
  | exhausted (htaken : ∀ j < n, d.Taken ids base j) :
      Reserves ids base d n (.error (.tempPathsExhausted base UnitPaths.maxAttempts)) ⟨d.files, d.drawn + n⟩

theorem Reserves.of_taken {n : ℕ} {r : Except ToolError UnitPaths} (h : (UnitPaths.ofId base (ids d.drawn)).source ∈ d.files)
    (hlater : Reserves ids base { d with drawn := d.drawn + 1 } n r d') : Reserves ids base d (n + 1) r d' := by
  have hshift : ∀ j, d.drawn + 1 + j = d.drawn + (j + 1) := fun j => by omega
  have htaken : ∀ {k}, (∀ j < k, Taken ids base { d with drawn := d.drawn + 1 } j) → ∀ j < k + 1, d.Taken ids base j := by
    intro k hk j hj
    cases j with
    | zero => exact h
    | succ j =>
      have := hk j (by omega)
      unfold Taken at this ⊢
      rwa [hshift] at this
  cases hlater with
  | made k hk hbefore hfree =>
    unfold Taken at hfree
    simp only [hshift] at hfree ⊢
    exact .made (k + 1) (Nat.succ_lt_succ hk) (htaken hbefore) hfree
  | exhausted hall =>
    simp only [hshift]
    exact .exhausted (htaken hall)

theorem reserves_reserveWithin (n : ℕ) : ∀ d : Disk, Reserves ids base d n
    (carryOut ids (UnitPaths.reserveWithin base n) d).1 (carryOut ids (UnitPaths.reserveWithin base n) d).2 := by
  induction n with
  | zero => exact fun d => .exhausted fun j hj => absurd hj (Nat.not_lt_zero j)
  | succ n ih =>
    intro d
    by_cases h : (UnitPaths.ofId base (ids d.drawn)).source ∈ d.files
    · rw [carryOut_reserveWithin_taken n h]
      exact (ih _).of_taken h
    · rw [carryOut_reserveWithin_free n h]
      exact .made 0 (Nat.succ_pos n) (fun j hj => absurd hj (Nat.not_lt_zero j)) h

section Outcomes

variable {n : ℕ} {r r' : Except ToolError UnitPaths} {paths : UnitPaths} {d'' : Disk}

theorem Reserves.unique (h : Reserves ids base d n r d') (h' : Reserves ids base d n r' d'') : r = r' ∧ d' = d'' := by
  cases h with
  | made k hk htaken hfree =>
    cases h' with
    | made k' hk' htaken' hfree' =>
      obtain rfl : k = k' := le_antisymm (not_lt.1 fun hlt => hfree' (htaken k' hlt))
        (not_lt.1 fun hlt => hfree (htaken' k hlt))
      exact ⟨rfl, rfl⟩
    | exhausted htaken' => exact absurd (htaken' _ hk) hfree
  | exhausted htaken =>
    cases h' with
    | made k hk' htaken' hfree' => exact absurd (htaken _ hk') hfree'
    | exhausted htaken' => exact ⟨rfl, rfl⟩

theorem Reserves.exhausted_iff (h : Reserves ids base d n r d') :
    r = .error (.tempPathsExhausted base UnitPaths.maxAttempts) ↔ ∀ k < n, d.Taken ids base k := by
  constructor
  · rintro rfl
    cases h with
    | exhausted htaken => exact htaken
  · exact fun htaken => (h.unique (.exhausted htaken)).1

theorem Reserves.files_subset (h : Reserves ids base d n r d') : d.files ⊆ d'.files := by
  cases h with
  | made => exact Set.subset_insert _ _
  | exhausted => exact Set.Subset.rfl

theorem Reserves.of_ok (h : Reserves ids base d n (.ok paths) d') :
    (∃ id, paths = .ofId base id) ∧ paths.source ∉ d.files ∧ paths.source ∈ d'.files := by
  cases h with
  | made k hk htaken hfree => exact ⟨⟨_, rfl⟩, hfree, Set.mem_insert _ _⟩

end Outcomes
end Reservations

section Successive

variable (ids : ℕ → UInt64) (base : String) (d : Disk)

/-- The disk after `n` reservations. -/
noncomputable def after : ℕ → Disk
  | 0 => d
  | n + 1 => (carryOut ids (UnitPaths.reserve base) (after n)).2

/-- What the reservation after `n` others comes to. -/
noncomputable def outcome (n : ℕ) : Except ToolError UnitPaths :=
  (carryOut ids (UnitPaths.reserve base) (d.after ids base n)).1

theorem reserves_outcome (n : ℕ) : Reserves ids base (d.after ids base n) UnitPaths.maxAttempts (d.outcome ids base n)
    (d.after ids base (n + 1)) :=
  reserves_reserveWithin _ _

theorem files_after_mono : Monotone fun n => (d.after ids base n).files :=
  monotone_nat_of_le_succ fun n => (d.reserves_outcome ids base n).files_subset

variable {ids base d} {i j : ℕ} {p q : UnitPaths}

/-- A path that has been handed out is that of a file from then on, so it is not handed out again. -/
theorem source_ne_of_lt (hi : d.outcome ids base i = .ok p) (hj : d.outcome ids base j = .ok q) (hlt : i < j) :
    p.source ≠ q.source := by
  intro heq
  obtain ⟨-, -, hmade⟩ := (hi ▸ d.reserves_outcome ids base i).of_ok
  obtain ⟨-, hfree, -⟩ := (hj ▸ d.reserves_outcome ids base j).of_ok
  exact hfree (heq ▸ d.files_after_mono ids base hlt hmade)

theorem paths_ne (hi : d.outcome ids base i = .ok p) (hj : d.outcome ids base j = .ok q) (hne : i ≠ j) :
    p.source ≠ q.source ∧ p.object ≠ q.object := by
  have hsource : p.source ≠ q.source := by
    rcases hne.lt_or_gt with hlt | hlt
    · exact source_ne_of_lt hi hj hlt
    · exact (source_ne_of_lt hj hi hlt).symm
  obtain ⟨⟨id, rfl⟩, -⟩ := (hi ▸ d.reserves_outcome ids base i).of_ok
  obtain ⟨⟨id', rfl⟩, -⟩ := (hj ▸ d.reserves_outcome ids base j).of_ok
  exact ⟨hsource, fun hobject => hsource (UnitPaths.source_eq_of_object_eq hobject)⟩

end Successive
end Disk
end Disks

/-- However many reservations are made, each draws numbers up to the first one without a source file, 32 at most, and
makes that file only; it fails exactly if all 32 have one; and no two hand out the same source or the same object. -/
theorem reservations_exact (ids : ℕ → UInt64) (base : String) (d : Disk) :
    (∀ n, Disk.Reserves ids base (d.after ids base n) 32 (d.outcome ids base n) (d.after ids base (n + 1)) ∧
      (d.outcome ids base n = .error (.tempPathsExhausted base 32) ↔ ∀ k < 32, (d.after ids base n).Taken ids base k)) ∧
    (∀ i j p q, i ≠ j → d.outcome ids base i = .ok p → d.outcome ids base j = .ok q →
      p.source ≠ q.source ∧ p.object ≠ q.object) ∧
    ∀ id : UInt64, ∃ digits, Text.Spells 16 id.toNat digits ∧
      UnitPaths.ofId base id = ⟨base ++ digits ++ ".c", base ++ digits ++ ".o"⟩ :=
  ⟨fun n => ⟨d.reserves_outcome ids base n, (d.reserves_outcome ids base n).exhausted_iff⟩,
    fun _ _ _ _ hne hi hj => Disk.paths_ne hi hj hne, UnitPaths.ofId_spells base⟩

/-- The file of number 1 is there, and 2 is drawn ever after: the first reservation gets the paths of number 2 with its
second draw, and the next one draws 32 numbers in vain. -/
theorem reservations_exact_of_repeated_number :
    ∃ (ids : ℕ → UInt64) (d : Disk), ids = (fun n => if n = 0 then 1 else 2) ∧ d = ⟨{"u0000000000000001.c"}, 0⟩ ∧
      d.outcome ids "u" 0 = .ok ⟨"u0000000000000002.c", "u0000000000000002.o"⟩ ∧ (d.after ids "u" 1).drawn = 2 ∧
      d.outcome ids "u" 1 = .error (.tempPathsExhausted "u" 32) := by
  refine ⟨_, _, rfl, rfl, ?_⟩
  set ids : ℕ → UInt64 := fun n => if n = 0 then 1 else 2
  set d : Disk := ⟨{"u0000000000000001.c"}, 0⟩
  have hone : (UnitPaths.ofId "u" (ids 0)).source = "u0000000000000001.c" := by decide
  have htwo : ∀ n, UnitPaths.ofId "u" (ids (n + 1)) = ⟨"u0000000000000002.c", "u0000000000000002.o"⟩ := by
    intro n
    have hid : ids (n + 1) = 2 := if_neg (Nat.succ_ne_zero n)
    rw [hid]
    decide
  obtain ⟨hcalls, -⟩ := reservations_exact ids "u" d
  have hfirst : Disk.Reserves ids "u" d 32 (.ok (.ofId "u" (ids (0 + 1))))
      ⟨insert (UnitPaths.ofId "u" (ids (0 + 1))).source d.files, 0 + 1 + 1⟩ := by
    refine .made 1 (by decide) (fun j hj => ?_) ?_
    · obtain rfl : j = 0 := by omega
      exact hone
    · unfold Disk.Taken
      rw [htwo]
      simp [d]
  rw [htwo] at hfirst
  obtain ⟨hok, hafter⟩ := (hcalls 0).1.unique hfirst
  refine ⟨hok, by rw [hafter], (hcalls 1).2.2 fun k _ => ?_⟩
  unfold Disk.Taken
  rw [hafter]
  change (UnitPaths.ofId "u" (ids (2 + k))).source ∈ _
  rw [show 2 + k = k + 1 + 1 by omega, htwo]
  exact Set.mem_insert _ _

end Bitpack
