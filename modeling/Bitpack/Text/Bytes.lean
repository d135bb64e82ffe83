/-! Texts measured and cut in bytes of their UTF-8 form. A cut is refused inside a character and past
the end, so a cut that succeeds loses nothing. -/

namespace Bitpack.Text

def byteLength : List Char → Nat
  | [] => 0
  | c :: cs => c.utf8Size + byteLength cs

@[simp] theorem byteLength_nil : byteLength [] = 0 := rfl

@[simp] theorem byteLength_cons (c : Char) (cs : List Char) :
    byteLength (c :: cs) = c.utf8Size + byteLength cs := rfl

@[simp] theorem byteLength_append (as bs : List Char) :
    byteLength (as ++ bs) = byteLength as + byteLength bs := by
  induction as with
  | nil => simp
  | cons a as ih => simp [ih, Nat.add_assoc]

/-- The first `n` bytes of a text and the rest. -/
def splitBytes? : Nat → List Char → Option (List Char × List Char)
  | 0, cs => some ([], cs)
  | _ + 1, [] => none
  | n + 1, c :: cs =>
    if c.utf8Size ≤ n + 1 then (splitBytes? (n + 1 - c.utf8Size) cs).map fun p => (c :: p.1, p.2)
    else none

theorem splitBytes?_eq_some {n : Nat} {cs as bs : List Char} (h : splitBytes? n cs = some (as, bs)) :
    cs = as ++ bs ∧ byteLength as = n := by
  induction cs generalizing n as with
  | nil =>
    cases n with
    | zero => simp_all [splitBytes?]
    | succ n => simp [splitBytes?] at h
  | cons c cs ih =>
    cases n with
    | zero => simp_all [splitBytes?]
    | succ n =>
      simp only [splitBytes?] at h
      split at h
      · obtain ⟨⟨as', bs'⟩, hp, he⟩ := Option.map_eq_some_iff.1 h
        obtain ⟨rfl, rfl⟩ := Prod.mk.injEq _ _ _ _ ▸ he
        obtain ⟨h1, h2⟩ := ih hp
        exact ⟨by simp [h1], by simp [h2]; omega⟩
      · simp at h

theorem splitBytes?_append (as bs : List Char) : splitBytes? (byteLength as) (as ++ bs) = some (as, bs) := by
  induction as with
  | nil => cases bs <;> rfl
  | cons c as ih =>
    have hc := c.utf8Size_pos
    obtain ⟨n, hn⟩ : ∃ n, byteLength (c :: as) = n + 1 := ⟨byteLength (c :: as) - 1, by simp; omega⟩
    have hle : c.utf8Size ≤ n + 1 := by simp at hn; omega
    have hsub : n + 1 - c.utf8Size = byteLength as := by simp at hn; omega
    rw [hn, List.cons_append, splitBytes?, if_pos hle, hsub, ih]
    rfl

/-- The bytes of a text from `lo` up to `hi`. -/
def slice? (cs : List Char) (lo hi : Nat) : Option (List Char) :=
  if lo ≤ hi then do
    let (_, rest) ← splitBytes? lo cs
    let (middle, _) ← splitBytes? (hi - lo) rest
    return middle
  else none

end Bitpack.Text
