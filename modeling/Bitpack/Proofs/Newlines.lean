import Mathlib
import Bitpack.Proofs.Lines

/-! Texts joined by a line feed. No token goes over a line feed, a comment ends before it, and blanks on both sides of
it are no tokens, so the tokens of the joined text are those of the first text and then those of the second, further
on. -/

namespace Bitpack

namespace Token

/-- The same token, `distance` bytes further on. -/
def shift (distance : ℕ) (t : Token) : Token :=
  ⟨t.kind, t.span.lo + distance, t.span.len⟩

section Step

variable {c : Char} (pos : ℕ) (cs : List Char)

theorem scanFrom_comment : scanFrom pos ('#' :: cs) =
    scanFrom (pos + 1 + Text.byteLength (cs.takeWhile inComment)) (cs.dropWhile inComment) := by
  rw [scanFrom, if_pos rfl]

theorem scanFrom_blank (hblank : isBlank c = true) : scanFrom pos (c :: cs) = scanFrom (pos + 1) cs := by
  have hhash : c ≠ '#' := by
    rintro rfl
    exact absurd hblank (by decide)
  rw [scanFrom, if_neg hhash, if_pos hblank]

theorem scanFrom_word (hword : isWordChar c = true) : scanFrom pos (c :: cs) =
    ⟨wordKind (c :: cs.takeWhile isWordChar), pos, (cs.takeWhile isWordChar).length + 1⟩ ::
      scanFrom (pos + ((cs.takeWhile isWordChar).length + 1)) (cs.dropWhile isWordChar) := by
  have hblank : ¬ isBlank c = true := fun hblank => isWordChar_ne hword (isWordChar_of_isBlank hblank) rfl
  rw [scanFrom, if_neg (isWordChar_ne hword (by decide)), if_neg hblank, if_pos hword]
  rfl

theorem scanFrom_char (hhash : c ≠ '#') (hblank : ¬ isBlank c = true) (hword : ¬ isWordChar c = true) :
    scanFrom pos (c :: cs) = ⟨charKind c, pos, c.utf8Size⟩ :: scanFrom (pos + c.utf8Size) cs := by
  rw [scanFrom, if_neg hhash, if_neg hblank, if_neg hword]

end Step

theorem cut_at {p : Char → Bool} {c : Char} (hc : p c = false) (as bs : List Char) :
    (as ++ c :: bs).takeWhile p = as.takeWhile p ∧ (as ++ c :: bs).dropWhile p = as.dropWhile p ++ c :: bs := by
  induction as with
  | nil => simp [hc]
  | cons a as ih =>
    by_cases ha : p a = true
    · simp [ha, ih]
    · simp [ha]

theorem scanFrom_append_newline (pos : ℕ) (as bs : List Char) :
    scanFrom pos (as ++ '\n' :: bs) = scanFrom pos as ++ scanFrom (pos + Text.byteLength as + 1) bs := by
  fun_induction scanFrom pos as with
  | case1 pos => exact scanFrom_blank pos bs (by decide)
  | case2 pos cs ih =>
    obtain ⟨htake, hdrop⟩ := cut_at (p := inComment) (c := '\n') rfl cs bs
    have hcut := Text.byteLength_takeWhile_add inComment cs
    rw [List.cons_append, scanFrom_comment, htake, hdrop, ih, Text.byteLength_cons, show '#'.utf8Size = 1 from rfl]
    congr 2
    omega
  | case3 pos c cs _ hblank ih =>
    rw [List.cons_append, scanFrom_blank pos _ hblank, ih, Text.byteLength_cons, utf8Size_of_isBlank hblank]
    congr 2
    omega
  | case4 pos c cs _ _ hword word ih =>
    obtain ⟨htake, hdrop⟩ := cut_at (p := isWordChar) (c := '\n') (by decide) cs bs
    have hcut := Text.byteLength_takeWhile_add isWordChar cs
    have hlength : Text.byteLength (cs.takeWhile isWordChar) = (cs.takeWhile isWordChar).length :=
      byteLength_of_isWordChar fun _ hx => List.mem_takeWhile_imp hx
    have hpos : pos + word.length + Text.byteLength (cs.dropWhile isWordChar) = pos + Text.byteLength (c :: cs) := by
      rw [List.length_cons, Text.byteLength_cons, utf8Size_of_isWordChar hword]
      omega
    rw [hpos] at ih
    rw [List.cons_append, scanFrom_word pos _ hword, htake, hdrop]
    exact congrArg (List.cons _) ih
  | case5 pos c cs hhash hblank hword ih =>
    rw [List.cons_append, scanFrom_char pos _ hhash hblank hword, ih, Text.byteLength_cons, Nat.add_assoc pos]
    rfl

theorem scanFrom_add (pos distance : ℕ) (cs : List Char) :
    scanFrom (pos + distance) cs = (scanFrom pos cs).map (shift distance) := by
  fun_induction scanFrom pos cs with
  | case1 pos => rw [scanFrom, List.map_nil]
  | case2 pos cs ih =>
    rw [scanFrom_comment, ← ih]
    congr 1
    omega
  | case3 pos c cs _ hblank ih => rw [scanFrom_blank _ cs hblank, ← ih, Nat.add_right_comm]
  | case4 pos c cs _ _ hword word ih =>
    rw [scanFrom_word _ cs hword, List.map_cons, ← ih, Nat.add_right_comm]
    rfl
  | case5 pos c cs hhash hblank hword ih =>
    rw [scanFrom_char _ cs hhash hblank hword, List.map_cons, ← ih, Nat.add_right_comm]
    rfl

theorem toList_append_newline (a b : String) : (a ++ "\n" ++ b).toList = a.toList ++ '\n' :: b.toList := by
  simp

theorem scan_append_newline (a b : String) :
    scan (a ++ "\n" ++ b) = scan a ++ (scan b).map (shift (Text.byteLength a.toList + 1)) := by
  unfold scan
  rw [toList_append_newline, scanFrom_append_newline, ← scanFrom_add, Nat.zero_add, Nat.zero_add]

theorem finishOf_append_newline (a b : String) :
    finishOf (a ++ "\n" ++ b) = (finishOf b).shift (Text.byteLength a.toList + 1) := by
  have hlength : Text.byteLength (a.toList ++ '\n' :: b.toList) =
      Text.byteLength b.toList + (Text.byteLength a.toList + 1) := by
    rw [Text.byteLength_append, Text.byteLength_newline_cons]
    omega
  rw [finishOf, toList_append_newline, hlength]
  rfl

end Token

/-- The tokens of two texts joined by a line feed are those of the first, without its end, and those of the second,
further on by the bytes of the first and of the line feed. -/
theorem tokens_join_at_newline {a b : String} (ha : a ≠ "") (hb : b ≠ "") :
    ∃ front back, Token.list? a = some (front ++ [Token.finish a.utf8ByteSize]) ∧ Token.list? b = some back ∧
      Token.list? (a ++ "\n" ++ b) = some (front ++ back.map (Token.shift (a.utf8ByteSize + 1))) := by
  have hlist {src : String} (hsrc : src ≠ "") : Token.list? src = some (Token.scan src ++ [Token.finishOf src]) :=
    if_neg (by simpa using hsrc)
  have hjoined : a ++ "\n" ++ b ≠ "" := by
    intro hempty
    exact hb (String.append_eq_empty_iff.1 hempty).2
  rw [← Text.byteLength_toList]
  refine ⟨Token.scan a, Token.scan b ++ [Token.finishOf b], hlist ha, hlist hb, ?_⟩
  rw [hlist hjoined, Token.scan_append_newline, Token.finishOf_append_newline, List.map_append, List.append_assoc]
  rfl

/-- The first text ends inside a comment, behind a character of two bytes, and the second begins with a blank. -/
theorem tokens_join_at_newline_after_comment :
    Token.list? "x #é" = some [⟨.name "x", 0, 1⟩, Token.finish 5] ∧
    Token.list? "\t8y\n#" = some [⟨.number "8y", 1, 2⟩, Token.finish 5] ∧
    Token.list? ("x #é" ++ "\n" ++ "\t8y\n#") = some [⟨.name "x", 0, 1⟩, ⟨.number "8y", 7, 2⟩, Token.finish 11] := by
  have hfirst : Token.list? "x #é" = some ([⟨.name "x", 0, 1⟩] ++ [Token.finish 5]) := by decide +kernel
  have hsecond : Token.list? "\t8y\n#" = some [⟨.number "8y", 1, 2⟩, Token.finish 5] := by decide +kernel
  obtain ⟨front, back, ha, hb, hjoined⟩ := tokens_join_at_newline (a := "x #é") (b := "\t8y\n#") (by decide) (by decide)
  obtain ⟨rfl, -⟩ := List.append_inj' (Option.some.inj (ha.symm.trans hfirst)) rfl
  obtain rfl := Option.some.inj (hb.symm.trans hsecond)
  exact ⟨hfirst, hsecond, hjoined⟩

end Bitpack
