import Mathlib
import Bitpack.Proofs.Lines

/-! Lines and columns. The starts of lines up to a place are as many as there are line feeds before it, and one more,
and the last of them is where the line of the place starts. So the line of a place counts line feeds, its column counts
characters behind the last of them, and no two places have the same line and column. -/

namespace Bitpack

namespace Text

/-- A new line begins behind this text. -/
def EndsLine (front : List Char) : Prop :=
  front = [] ∨ ∃ as, front = as ++ ['\n']

theorem EndsLine.append {front : List Char} (h : EndsLine front) (as : List Char) : EndsLine (as ++ '\n' :: front) := by
  rcases h with rfl | ⟨bs, rfl⟩
  · exact .inr ⟨as, rfl⟩
  · exact .inr ⟨as ++ '\n' :: bs, by simp⟩

/-- A text up to a place: whole lines, and what stands before the place on its own line. -/
theorem exists_front (before : List Char) : ∃ front, before = front ++ before.rtakeWhile (· ≠ '\n') ∧
    EndsLine front ∧ front.count '\n' = before.count '\n' := by
  induction before using List.reverseRecOn with
  | nil => exact ⟨[], rfl, .inl rfl, rfl⟩
  | append_singleton before c ih =>
    by_cases hc : c = '\n'
    · subst hc
      rw [List.rtakeWhile_concat_neg _ _ _ (by simp)]
      exact ⟨before ++ ['\n'], (List.append_nil _).symm, .inr ⟨before, rfl⟩, rfl⟩
    · obtain ⟨front, hfront, hends, hcount⟩ := ih
      rw [List.rtakeWhile_concat_pos _ _ _ (by simpa using hc)]
      refine ⟨front, ?_, hends, ?_⟩
      · rw [← List.append_assoc, ← hfront]
      · rw [hcount, List.count_append, List.count_singleton, if_neg (by simpa using hc), Nat.add_zero]

theorem splitOn_newline (cs : List Char) : '\n' ∉ cs ∧ cs.splitOn '\n' = [cs] ∨
    ∃ line rest, cs = line ++ '\n' :: rest ∧ '\n' ∉ line ∧ cs.splitOn '\n' = line :: rest.splitOn '\n' := by
  by_cases hmem : '\n' ∈ cs
  · obtain ⟨line, rest, rfl, hline⟩ := List.eq_append_cons_of_mem hmem
    exact .inr ⟨line, rest, rfl, hline, List.splitOn_append_cons_self_of_not_mem hline rest⟩
  · exact .inl ⟨hmem, List.splitOn_eq_singleton hmem⟩

/-- The pieces between line feeds: each is behind as many line feeds as there are pieces before it, and in front of
another one or at the end. -/
theorem exists_of_getElem?_splitOn {line : List Char} (k : ℕ) : ∀ {cs : List Char}, (cs.splitOn '\n')[k]? = some line →
    ∃ front rest, cs = front ++ (line ++ rest) ∧ front.count '\n' = k ∧ EndsLine front ∧ '\n' ∉ line ∧
      ∀ c ∈ rest.head?, c = '\n' := by
  induction k with
  | zero =>
    intro cs h
    rcases splitOn_newline cs with ⟨hline, hpieces⟩ | ⟨first, more, hcs, hline, hpieces⟩
    · rw [hpieces] at h
      obtain rfl := Option.some.inj h
      exact ⟨[], [], (List.append_nil _).symm, rfl, .inl rfl, hline, by simp⟩
    · rw [hpieces] at h
      obtain rfl := Option.some.inj h
      exact ⟨[], '\n' :: more, hcs, rfl, .inl rfl, hline, by simp⟩
  | succ k ih =>
    intro cs h
    rcases splitOn_newline cs with ⟨hline, hpieces⟩ | ⟨first, more, hcs, hline, hpieces⟩
    · rw [hpieces] at h
      cases h
    · rw [hpieces, List.getElem?_cons_succ] at h
      obtain ⟨front, rest, rfl, hcount, hends, hwhole, hrest⟩ := ih h
      refine ⟨first ++ '\n' :: front, rest, by simp [hcs], ?_, hends.append first, hwhole, hrest⟩
      rw [List.count_append, List.count_cons_self, hcount, List.count_eq_zero.2 hline, Nat.zero_add]

theorem length_splitOn_newline (cs : List Char) : (cs.splitOn '\n').length = cs.count '\n' + 1 := by
  induction cs with
  | nil => rfl
  | cons c cs ih =>
    rw [List.splitOn_cons_eq_if_modifyHead, List.count_cons]
    split_ifs
    · rw [List.length_cons, ih]
    · rw [List.length_modifyHead, ih]

/-- Line and column of the place behind a text. -/
def place (before : List Char) : ℕ × ℕ :=
  (before.count '\n' + 1, (before.rtakeWhile (· ≠ '\n')).length + 1)

theorem place_lt_append (before : List Char) {middle : List Char} (h : middle ≠ []) :
    toLex (place before) < toLex (place (before ++ middle)) := by
  rw [Prod.Lex.toLex_lt_toLex]
  unfold place
  by_cases hmem : '\n' ∈ middle
  · have hpos := List.count_pos_iff.2 hmem
    rw [List.count_append]
    exact .inl (by omega)
  · have hall : ∀ c ∈ middle.reverse, decide (c ≠ '\n') = true := by
      intro c hc
      simp only [decide_eq_true_eq]
      rintro rfl
      exact hmem (List.mem_reverse.1 hc)
    have hhead : (before ++ middle).rtakeWhile (· ≠ '\n') = before.rtakeWhile (· ≠ '\n') ++ middle := by
      rw [List.rtakeWhile, List.reverse_append, List.takeWhile_append_of_pos hall, List.reverse_append,
        List.reverse_reverse, List.rtakeWhile]
    have hpos := List.length_pos_iff.2 h
    rw [hhead, List.length_append, List.count_append, List.count_eq_zero.2 hmem]
    exact .inr ⟨rfl, by omega⟩

end Text

namespace LineTable

theorem startsFrom_append (pos : ℕ) (as bs : List Char) :
    startsFrom pos (as ++ bs) = startsFrom pos as ++ startsFrom (pos + Text.byteLength as) bs := by
  induction as generalizing pos with
  | nil => rfl
  | cons a as ih =>
    rw [List.cons_append, startsFrom, startsFrom, Text.byteLength_cons, ← Nat.add_assoc]
    split_ifs with ha
    · rw [ih, ha]
      rfl
    · exact ih _

theorem length_startsFrom (cs : List Char) : ∀ pos : ℕ, (startsFrom pos cs).length = cs.count '\n' := by
  induction cs with
  | nil => exact fun _ => rfl
  | cons c cs ih =>
    intro pos
    rw [startsFrom]
    split_ifs with hc
    · rw [hc, List.length_cons, List.count_cons_self, ih]
    · rw [List.count_cons_of_ne hc, ih]

theorem startsFrom_eq_nil (pos : ℕ) {cs : List Char} (h : '\n' ∉ cs) : startsFrom pos cs = [] := by
  rw [← List.length_eq_zero_iff, length_startsFrom, List.count_eq_zero]
  exact h

section Text

variable {src : String} {before after : List Char}

theorem starts_eq (hsrc : src.toList = before ++ after) :
    (ofText src).starts = 0 :: startsFrom 0 before ++ startsFrom (Text.byteLength before) after := by
  rw [ofText, hsrc, startsFrom_append, Nat.zero_add]
  rfl

theorem startOf?_eq (hsrc : src.toList = before ++ after) (hbefore : Text.EndsLine before) :
    (ofText src).startOf? (before.count '\n' + 1) = some (Text.byteLength before) := by
  rw [startOf?, if_neg (Nat.succ_ne_zero _), Nat.add_sub_cancel, starts_eq hsrc]
  rcases hbefore with rfl | ⟨as, rfl⟩
  · rfl
  · have hcount : (as ++ ['\n']).count '\n' = (startsFrom 0 as).length + 1 := by
      rw [List.count_append, length_startsFrom]
      rfl
    rw [hcount, startsFrom_append, List.cons_append, List.getElem?_cons_succ, List.append_assoc,
      List.getElem?_append_right le_rfl, Nat.sub_self]
    rw [Text.byteLength_append, Text.byteLength_newline_cons]
    simp [startsFrom]

theorem lineOf_eq (hsrc : src.toList = before ++ after) {offset : ℕ}
    (hoffset : min offset (Text.byteLength src.toList) = Text.byteLength before) :
    (ofText src).lineOf offset = before.count '\n' + 1 := by
  have hsize : Text.byteLength src.toList = Text.byteLength before + Text.byteLength after := by
    rw [hsrc, Text.byteLength_append]
  have hearlier : ∀ n ∈ 0 :: startsFrom 0 before, decide (n ≤ offset) = true := by
    refine List.forall_mem_cons.2 ⟨by simp, fun n hn => ?_⟩
    obtain ⟨front, rest, rfl, rfl⟩ := of_mem_startsFrom _ hn
    rw [Text.byteLength_append, Text.byteLength_newline_cons] at hoffset
    simp only [decide_eq_true_eq]
    omega
  have hlater : (startsFrom (Text.byteLength before) after).takeWhile (· ≤ offset) = [] := by
    rw [List.takeWhile_eq_nil_iff]
    intro hpos
    -- there is a line feed behind the place, so the offset is not past the end
    obtain ⟨front, rest, rfl, hn⟩ := of_mem_startsFrom _ (List.getElem_mem hpos)
    rw [Text.byteLength_append, Text.byteLength_newline_cons] at hsize
    simp only [List.get_eq_getElem, hn, decide_eq_true_eq]
    omega
  rw [lineOf, starts_eq hsrc, List.takeWhile_append_of_pos hearlier, hlater, List.append_nil, List.length_cons,
    length_startsFrom]

theorem position?_eq (hsrc : src.toList = before ++ after) {offset : ℕ}
    (hoffset : min offset (Text.byteLength src.toList) = Text.byteLength before) :
    (ofText src).position? src offset = some (Text.place before) := by
  obtain ⟨front, hfront, hends, hcount⟩ := Text.exists_front before
  have hsrc' : src.toList = front ++ (before.rtakeWhile (· ≠ '\n') ++ after) := by
    rw [← List.append_assoc, ← hfront, hsrc]
  have hslice : Text.slice? src.toList (Text.byteLength front) (Text.byteLength before) =
      some (before.rtakeWhile (· ≠ '\n')) := by
    refine Text.slice?_of_eq front _ after hsrc' rfl ?_
    nth_rewrite 1 [hfront]
    exact Text.byteLength_append _ _
  have hstart := startOf?_eq hsrc' hends
  rw [hcount] at hstart
  rw [position?, lineOf_eq hsrc hoffset, hstart, hoffset]
  simp only [Option.bind_eq_bind, Option.bind_some, hslice]
  rfl

theorem position?_behind (hsrc : src.toList = before ++ after) :
    (ofText src).position? src (Text.byteLength before) = some (Text.place before) := by
  refine position?_eq hsrc (min_eq_left ?_)
  rw [hsrc, Text.byteLength_append]
  exact Nat.le_add_right _ _

/-- What is found of a line: the text up to the next line feed, or to the end, without carriage returns at its end. -/
theorem text?_eq {front line rest : List Char} (hsrc : src.toList = front ++ (line ++ rest))
    (hfront : Text.EndsLine front) (hline : '\n' ∉ line) (hrest : ∀ c ∈ rest.head?, c = '\n') :
    (ofText src).text? src (front.count '\n' + 1) = some (String.ofList (line.rdropWhile (· = '\r'))) := by
  have hslice : Text.slice? src.toList (Text.byteLength front) (Text.byteLength front + Text.byteLength line) =
      some line := Text.slice?_of_eq front line rest hsrc rfl rfl
  have hnext : (ofText src).starts[front.count '\n' + 1]? =
      (startsFrom (Text.byteLength front + Text.byteLength line) rest)[0]? := by
    have hlength : (0 :: startsFrom 0 front).length = front.count '\n' + 1 := by
      rw [List.length_cons, length_startsFrom]
    rw [starts_eq hsrc, startsFrom_append, startsFrom_eq_nil _ hline, List.nil_append, ← hlength,
      List.getElem?_append_right le_rfl, Nat.sub_self]
  unfold text?
  rw [startOf?_eq hsrc hfront, hnext]
  cases rest with
  | nil =>
    have hend : Text.byteLength src.toList = Text.byteLength front + Text.byteLength line := by
      rw [hsrc, List.append_nil, Text.byteLength_append]
    simp only [startsFrom, List.getElem?_nil, hend, Option.bind_eq_bind, Option.bind_some, hslice]
    rfl
  | cons c rest =>
    obtain rfl := hrest c rfl
    simp only [startsFrom, if_true, List.getElem?_cons_zero, Nat.add_sub_cancel, Option.bind_eq_bind, Option.bind_some,
      hslice]
    rfl

end Text

/-- What a table says of the lines of a text is what can be counted in the text. -/
structure Exact (t : LineTable) (src : String) : Prop where
  /-- The line of a place is one more than the line feeds before it, and its column is one more than the characters
  behind the last of these. An offset past the end counts as the end. -/
  position : ∀ before after offset, src = before ++ after → min offset src.utf8ByteSize = before.utf8ByteSize →
    t.position? src offset = some (before.toList.count '\n' + 1, (before.toList.rtakeWhile (· ≠ '\n')).length + 1)
  /-- Lines and columns tell places apart, and come in the same order. -/
  order : ∀ o₁ o₂ p₁ p₂, (⟨o₁⟩ : String.Pos.Raw).IsValid src → (⟨o₂⟩ : String.Pos.Raw).IsValid src →
    t.position? src o₁ = some p₁ → t.position? src o₂ = some p₂ →
    (p₁ = p₂ ↔ o₁ = o₂) ∧ (toLex p₁ ≤ toLex p₂ ↔ o₁ ≤ o₂)
  /-- The lines that are found are the pieces between line feeds, counted from one. -/
  lines : ∀ line, (∃ offset column, t.position? src offset = some (line, column)) ↔
    0 < line ∧ line ≤ (src.toList.splitOn '\n').length
  /-- The text of a line is its piece without carriage returns at the end. -/
  texts : ∀ k piece, (src.toList.splitOn '\n')[k]? = some piece →
    t.text? src (k + 1) = some (String.ofList (piece.rdropWhile (· = '\r')))

section Lookup

variable {src : String}

theorem position?_strictMono {o₁ o₂ : ℕ} {p₁ p₂ : ℕ × ℕ} (h₁ : (⟨o₁⟩ : String.Pos.Raw).IsValid src)
    (h₂ : (⟨o₂⟩ : String.Pos.Raw).IsValid src) (hp₁ : (ofText src).position? src o₁ = some p₁)
    (hp₂ : (ofText src).position? src o₂ = some p₂) (hlt : o₁ < o₂) : toLex p₁ < toLex p₂ := by
  obtain ⟨before₁, after₁, hsrc₁, rfl⟩ := Text.isValid_iff.1 h₁
  obtain ⟨before₂, after₂, hsrc₂, rfl⟩ := Text.isValid_iff.1 h₂
  obtain ⟨middle, rfl⟩ := Text.prefix_of_byteLength_le (hsrc₁.symm.trans hsrc₂) hlt.le
  have hmiddle : middle ≠ [] := by
    rintro rfl
    rw [List.append_nil] at hlt
    exact hlt.false
  obtain rfl := Option.some.inj ((position?_behind hsrc₁).symm.trans hp₁)
  obtain rfl := Option.some.inj ((position?_behind hsrc₂).symm.trans hp₂)
  exact Text.place_lt_append before₁ hmiddle

theorem line_bounds {offset line column : ℕ} (h : (ofText src).position? src offset = some (line, column)) :
    0 < line ∧ line ≤ (src.toList.splitOn '\n').length := by
  have hline : line = (ofText src).lineOf offset := by
    unfold position? at h
    obtain ⟨start, -, h⟩ := Option.bind_eq_some_iff.1 h
    obtain ⟨text, -, h⟩ := Option.bind_eq_some_iff.1 h
    exact (congrArg Prod.fst (Option.some.inj h)).symm
  have hlength : (ofText src).starts.length = (src.toList.splitOn '\n').length := by
    rw [Text.length_splitOn_newline, ofText, List.length_cons, length_startsFrom]
  rw [hline, ← hlength]
  exact ⟨by simp [lineOf, ofText], (List.takeWhile_sublist _).length_le⟩

end Lookup

end LineTable

/-- Lines, columns and texts of lines are looked up exactly. -/
theorem line_lookup_exact (src : String) : (LineTable.ofText src).Exact src where
  position before after offset hsrc hoffset := by
    rw [← Text.byteLength_toList, ← Text.byteLength_toList] at hoffset
    exact LineTable.position?_eq (by rw [hsrc, String.toList_append]) hoffset
  order o₁ o₂ p₁ p₂ h₁ h₂ hp₁ hp₂ := by
    rcases lt_trichotomy o₁ o₂ with hlt | rfl | hlt
    · have hplace := LineTable.position?_strictMono h₁ h₂ hp₁ hp₂ hlt
      exact ⟨iff_of_false (fun h => hplace.ne (congrArg toLex h)) hlt.ne, iff_of_true hplace.le hlt.le⟩
    · obtain rfl := Option.some.inj (hp₁.symm.trans hp₂)
      simp
    · have hplace := LineTable.position?_strictMono h₂ h₁ hp₂ hp₁ hlt
      exact ⟨iff_of_false (fun h => hplace.ne' (congrArg toLex h)) hlt.ne', iff_of_false hplace.not_ge hlt.not_ge⟩
  lines line := by
    constructor
    · rintro ⟨offset, column, h⟩
      exact LineTable.line_bounds h
    · rintro ⟨hpos, hle⟩
      obtain ⟨k, rfl⟩ := Nat.exists_eq_add_one_of_ne_zero hpos.ne'
      obtain ⟨front, rest, hsrc, rfl, -⟩ := Text.exists_of_getElem?_splitOn k (List.getElem?_eq_getElem hle)
      exact ⟨_, _, LineTable.position?_behind hsrc⟩
  texts k piece hpiece := by
    obtain ⟨front, rest, hsrc, rfl, hfront, hline, hrest⟩ := Text.exists_of_getElem?_splitOn k hpiece
    exact LineTable.text?_eq hsrc hfront hline hrest

/-- A text with a character of two bytes, a carriage return, an empty line and no line feed at its end. -/
theorem line_lookup_exact_of_empty_line : (LineTable.ofText "é\r\n\nb").position? "é\r\n\nb" 4 = some (2, 1) ∧
    (LineTable.ofText "é\r\n\nb").position? "é\r\n\nb" 9 = some (3, 2) ∧
    (LineTable.ofText "é\r\n\nb").text? "é\r\n\nb" 1 = some "é" ∧
    (LineTable.ofText "é\r\n\nb").text? "é\r\n\nb" 2 = some "" := by
  have hexact := line_lookup_exact "é\r\n\nb"
  exact ⟨hexact.position "é\r\n" "\nb" 4 (by decide) (by decide),
    hexact.position "é\r\n\nb" "" 9 (by decide) (by decide), hexact.texts 0 ['é', '\r'] (by decide), hexact.texts 1 [] (by decide)⟩

end Bitpack
