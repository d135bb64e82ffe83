import Mathlib
import Bitpack.Proofs.Positions
import Bitpack.Proofs.Reports

/-! Markers. The marker of a report begins under the character at which its problem begins, since both count characters
up to there. Its length is counted in bytes, and so is the line that it has to stay within, so it is as long as the text
that it marks exactly where characters are bytes. -/

namespace Bitpack

namespace Text

def SingleBytes (cs : List Char) : Prop :=
  ∀ c ∈ cs, c.utf8Size = 1

theorem length_le_byteLength (cs : List Char) : cs.length ≤ byteLength cs := by
  induction cs with
  | nil => exact le_rfl
  | cons c cs ih =>
    have := c.utf8Size_pos
    rw [List.length_cons, byteLength_cons]
    omega

theorem singleBytes_iff (cs : List Char) : SingleBytes cs ↔ byteLength cs = cs.length := by
  unfold SingleBytes
  induction cs with
  | nil => simp
  | cons c cs ih =>
    have hpos := c.utf8Size_pos
    have hle := length_le_byteLength cs
    rw [List.forall_mem_cons, ih, List.length_cons, byteLength_cons]
    omega

def lead (before : List Char) : List Char :=
  before.rtakeWhile (· ≠ '\n')

/-- The line of a place, as it is shown. -/
def shownLine (before after : List Char) : List Char :=
  (lead before ++ after.takeWhile (· ≠ '\n')).rdropWhile (· = '\r')

/-- The part of a text that is shown on the line it begins on. -/
def marked (before covered after : List Char) : List Char :=
  ((shownLine before (covered ++ after)).drop (lead before).length).take (covered.takeWhile (· ≠ '\n')).length

theorem rdropWhile_append {p : Char → Bool} (xs : List Char) {ys : List Char} (h : ∃ y ∈ ys, p y = false) :
    (xs ++ ys).rdropWhile p = xs ++ ys.rdropWhile p := by
  obtain ⟨y, hy, hp⟩ := h
  rw [List.rdropWhile, List.reverse_append, (Token.cut_append xs.reverse ⟨y, List.mem_reverse.2 hy, hp⟩).2,
    List.reverse_append, List.reverse_reverse, List.rdropWhile]

theorem shownLine_eq (before : List Char) {covered : List Char} (after : List Char) (hne : covered ≠ [])
    (hfirst : ∀ c ∈ covered.head?, c ≠ '\n' ∧ c ≠ '\r') : ∃ rest,
      shownLine before (covered ++ after) = lead before ++ (marked before covered after ++ rest) ∧
      marked before covered after ≠ [] ∧ marked before covered after <+: covered ∧
      (marked before covered after ≠ covered → rest = []) := by
  obtain ⟨c, covered, rfl⟩ := List.exists_cons_of_ne_nil hne
  obtain ⟨hfeed, hreturn⟩ := hfirst c rfl
  have hc : decide (c ≠ '\n') = true := by simpa using hfeed
  set body := (c :: covered ++ after).takeWhile (· ≠ '\n')
  set tail := body.rdropWhile (· = '\r')
  set count := ((c :: covered).takeWhile (· ≠ '\n')).length
  have hmem : c ∈ body := by simp [body, hfeed]
  have hshown : shownLine before (c :: covered ++ after) = lead before ++ tail :=
    rdropWhile_append _ ⟨c, hmem, by simpa using hreturn⟩
  have hmarked : marked before (c :: covered) after = tail.take count := by rw [marked, hshown, List.drop_left]
  have hinit : tail <+: body := List.rdropWhile_prefix _ _
  have htail : tail ≠ [] := by
    rw [Ne, List.rdropWhile_eq_nil_iff]
    exact fun hall => absurd (hall c hmem) (by simpa using hreturn)
  have hcount : count ≠ 0 := by simp [count, hfeed]
  rw [hshown, hmarked]
  refine ⟨tail.drop count, by rw [List.take_append_drop], ?_, ?_⟩
  · rw [Ne, List.take_eq_nil_iff]
    exact not_or.2 ⟨hcount, htail⟩
  · by_cases hall : ∀ x ∈ c :: covered, decide (x ≠ '\n') = true
    · -- the text ends on its line, so all of it is shown but carriage returns at the end of the line
      have hbody : c :: covered <+: body := ⟨_, (List.takeWhile_append_of_pos hall).symm⟩
      have hlength : count = (c :: covered).length := congrArg List.length (List.takeWhile_eq_self_iff.2 hall)
      have htake : tail.take count <+: c :: covered := by
        rw [List.prefix_iff_eq_take.1 hbody, ← hlength]
        exact hinit.take count
      refine ⟨htake, fun hne => List.drop_eq_nil_iff.2 (not_lt.1 fun hlt => hne (htake.eq_of_length ?_))⟩
      rw [List.length_take, min_eq_left hlt.le, hlength]
    · -- the text goes on behind its line, of which all is shown
      push Not at hall
      obtain ⟨x, hx, hfeed⟩ := hall
      have hbody : body = (c :: covered).takeWhile (· ≠ '\n') :=
        (Token.cut_append after ⟨x, hx, by simpa using hfeed⟩).1
      have hle : tail.length ≤ count := hinit.length_le.trans_eq (congrArg List.length hbody)
      rw [List.take_of_length_le hle, List.drop_eq_nil_iff.2 hle]
      exact ⟨hinit.trans (hbody ▸ List.takeWhile_prefix _), fun _ => rfl⟩

end Text

section Carets

variable {marked covered rest : List Char}

/-- Carets are never too few, and they are as many as characters are marked exactly if each of these is a single byte
and, where the text goes on behind the line, so is each character before them. -/
theorem caretCount_spec (lead : List Char) (hne : marked ≠ []) (hinit : marked <+: covered)
    (hrest : marked ≠ covered → rest = []) :
    marked.length ≤ caretCount (Text.byteLength covered) (Text.byteLength (lead ++ (marked ++ rest))) (lead.length + 1) ∧
      (caretCount (Text.byteLength covered) (Text.byteLength (lead ++ (marked ++ rest))) (lead.length + 1) =
        marked.length ↔ Text.SingleBytes marked ∧ (marked ≠ covered → Text.SingleBytes lead)) := by
  have hpos := List.length_pos_iff.2 hne
  have hlead := Text.length_le_byteLength lead
  have hmarked := Text.length_le_byteLength marked
  rw [Text.singleBytes_iff, Text.singleBytes_iff, Text.byteLength_append, Text.byteLength_append, caretCount,
    Nat.add_sub_cancel]
  by_cases heq : marked = covered
  · subst heq
    simp only [ne_eq, not_true_eq_false, false_implies, and_true]
    omega
  · obtain rfl := hrest heq
    obtain ⟨more, rfl⟩ := hinit
    have hmore : 0 < Text.byteLength more := by
      refine Nat.pos_of_ne_zero fun hzero => heq ?_
      rw [Text.eq_nil_of_byteLength hzero, List.append_nil]
    simp only [heq, ne_eq, not_false_eq_true, true_implies, Text.byteLength_append, Text.byteLength_nil]
    omega

end Carets

section Places

variable {src : String} {s : Span} {before covered after : List Char}

structure Span.Parts (src : String) (s : Span) (before covered after : List Char) : Prop where
  text : src.toList = before ++ (covered ++ after)
  lo : s.lo = Text.byteLength before
  len : s.len = Text.byteLength covered

/-- A place that begins at a character that is no blank, or at the end of the text, and ends at a character. -/
structure Span.Visible (src : String) (s : Span) : Prop where
  lo : ∃ before after, src.toList = before ++ after ∧ s.lo = Text.byteLength before ∧
    ∀ c ∈ after.head?, Token.isBlank c = false
  hi : (⟨s.hi⟩ : String.Pos.Raw).IsValid src

theorem Span.visible_joinClosed : Span.JoinClosed (Span.Visible src) := by
  intro a b ha hb
  refine ⟨?_, ?_⟩
  · change ∃ before after, _ ∧ min a.lo b.lo = _ ∧ _
    rcases min_choice a.lo b.lo with h | h <;> rw [h]
    · exact ha.lo
    · exact hb.lo
  · rw [hi_join]
    rcases max_choice a.hi b.hi with h | h <;> rw [h]
    · exact ha.hi
    · exact hb.hi

theorem Span.Visible.exists_parts (h : s.Visible src) : ∃ before covered after, s.Parts src before covered after ∧
    ∀ c ∈ covered.head?, c ≠ '\n' ∧ c ≠ '\r' := by
  obtain ⟨before, after, hsrc, hlo, hblank⟩ := h.lo
  obtain ⟨front, back, hsrc', hhi⟩ := Text.isValid_iff.1 h.hi
  obtain ⟨covered, rfl⟩ := Text.prefix_of_byteLength_le (hsrc.symm.trans hsrc')
    (by rw [← hlo, ← hhi]; exact Nat.le_add_right _ _)
  rw [List.append_assoc] at hsrc'
  obtain rfl := List.append_cancel_left (hsrc.symm.trans hsrc')
  refine ⟨before, covered, back, ⟨hsrc, hlo, ?_⟩, fun c hc => ?_⟩
  · rw [Text.byteLength_append, ← hlo] at hhi
    exact Nat.add_left_cancel hhi
  · have hc := hblank c (by rw [List.head?_append, show covered.head? = some c from hc]; rfl)
    constructor <;> rintro rfl <;> exact absurd hc (by decide)

theorem Token.Tiling.lo_visible {pos : ℕ} {cs : List Char} {ts : List Token} (h : Token.Tiling pos cs ts) :
    ∀ {pre : List Char}, pos = Text.byteLength pre → ∀ t ∈ ts, ∃ before after, pre ++ cs = before ++ after ∧
      t.span.lo = Text.byteLength before ∧ ∀ c ∈ after.head?, Token.isBlank c = false := by
  induction h with
  | @finish pos gap hgap =>
    rintro pre rfl
    refine List.forall_mem_singleton.2 ⟨pre ++ gap, [], (List.append_nil _).symm, ?_, by simp⟩
    exact (Text.byteLength_append _ _).symm
  | @token pos gap lexeme rest kind ts hgap hlexeme _ ih =>
    rintro pre rfl
    have hpre : Text.byteLength pre + Text.byteLength gap + Text.byteLength lexeme =
        Text.byteLength (pre ++ gap ++ lexeme) := by simp [Nat.add_assoc]
    have hlater := ih hpre
    have htext : pre ++ gap ++ lexeme ++ rest = pre ++ (gap ++ (lexeme ++ rest)) := by simp
    rw [htext] at hlater
    refine List.forall_mem_cons.2 ⟨⟨pre ++ gap, lexeme ++ rest, by simp, (Text.byteLength_append _ _).symm, ?_⟩, hlater⟩
    intro c hc
    obtain ⟨c', lexeme, rfl⟩ := List.exists_cons_of_ne_nil hlexeme.ne_nil
    obtain rfl := Option.some.inj hc
    exact (hlexeme.ne c' List.mem_cons_self).1

theorem Token.scan_visible (src : String) : ∀ t ∈ Token.scan src ++ [Token.finishOf src], t.span.Visible src := by
  intro t ht
  have htiling : Token.Tiling 0 src.toList (Token.scan src ++ [Token.finishOf src]) :=
    Token.tiling_scanFrom 0 _ src.toList (Nat.zero_add _).symm
  obtain ⟨_, text, -, htext, -⟩ := htiling.lexemes Text.byteLength_nil.symm Text.not_inComment_nil t ht
  exact ⟨htiling.lo_visible Text.byteLength_nil.symm t ht, (Text.isValid_of_slice? htext).2⟩

theorem SourceUnit.ofText_visible (w : Word) (src : String) : (SourceUnit.ofText w src).1.Located (Span.Visible src) ∧
    ∀ d ∈ (SourceUnit.ofText w src).2, d.span.Visible src := by
  unfold SourceUnit.ofText
  split_ifs with hempty
  · obtain rfl : src = "" := by simpa using hempty
    refine ⟨⟨by simp, by simp⟩, List.forall_mem_singleton.2 ⟨⟨[], [], rfl, rfl, by simp⟩, ?_⟩⟩
    exact String.Pos.Raw.isValid_zero
  · obtain ⟨hunit, hfaults⟩ :=
      SourceUnit.ofTokens_located Span.visible_joinClosed w (Token.scan_located (Token.scan_visible src))
    exact ⟨hunit, hfaults.span⟩

theorem problems_visible (w : Word) {d : Diagnostic} (h : d ∈ problems w src) : d.span.Visible src := by
  obtain ⟨hunit, hfaults⟩ := SourceUnit.ofText_visible w src
  rcases mem_problems h with h | h
  · exact hfaults d h
  · refine (SourceUnit.lower_minor (fun m hm b hb st hst e he => ?_) d h).span
    exact ((hunit.methods m hm).statements b hb st hst e he).1

end Places

section Reports

def Diagnostic.headline (d : Diagnostic) (path : String) (line column : ℕ) : String :=
  let (category, message) := (d.cause.category.text, d.message)
  s!"{path}:{line}:{column}: {category} error: {message}\n"

def markedLine (shown : List Char) (indent carets : ℕ) : String :=
  reportMargin ++ String.ofList shown ++ "\n" ++
    reportMargin ++ String.ofList (List.replicate indent ' ' ++ List.replicate carets '^') ++ "\n"

variable {src : String} {before covered after : List Char}

theorem Diagnostic.report?_eq {d : Diagnostic} (h : d.span.Parts src before covered after) (path : String) :
    d.report? path src (.ofText src) =
      some (d.headline path (before.count '\n' + 1) ((Text.lead before).length + 1) ++
        markedLine (Text.shownLine before (covered ++ after)) (Text.lead before).length
          (caretCount (Text.byteLength covered) (Text.byteLength (Text.shownLine before (covered ++ after)))
            ((Text.lead before).length + 1))) := by
  obtain ⟨front, hfront, hends, hcount⟩ := Text.exists_front before
  have hsrc : src.toList = front ++ (Text.lead before ++ (covered ++ after).takeWhile (· ≠ '\n') ++
      (covered ++ after).dropWhile (· ≠ '\n')) := by
    rw [List.append_assoc, List.takeWhile_append_dropWhile, ← List.append_assoc, h.text]
    exact congrArg (· ++ (covered ++ after)) hfront
  have htext : (LineTable.ofText src).text? src (before.count '\n' + 1) =
      some (String.ofList (Text.shownLine before (covered ++ after))) := by
    rw [← hcount]
    refine LineTable.text?_eq hsrc hends (fun hmem => ?_) fun c hc => ?_
    · rcases List.mem_append.1 hmem with hmem | hmem
      · simpa using List.mem_rtakeWhile_imp hmem
      · simpa using List.mem_takeWhile_imp hmem
    · have hnot := List.head?_dropWhile_not (· ≠ '\n') (covered ++ after)
      rw [show (List.dropWhile _ _).head? = some c from hc] at hnot
      simpa using hnot
  unfold Diagnostic.report?
  rw [h.lo, h.len, LineTable.position?_behind h.text]
  simp only [Text.place, Option.bind_eq_bind, Option.bind_some, htext, String.toList_ofList]
  unfold Diagnostic.headline markedLine Text.lead
  simp only [Nat.add_sub_cancel, String.append_assoc]
  rfl

end Reports

/-- What carets below the line of a text mark of it. -/
structure Text.Underlines (before covered after : List Char) (carets : ℕ) : Prop where
  /-- Behind as many blanks as there are characters before the text, the first caret is under its first character. -/
  start : covered ≠ [] → marked before covered after ≠ [] ∧ ∃ rest,
    shownLine before (covered ++ after) = lead before ++ (marked before covered after ++ rest)
  /-- All of the text that is shown has carets, and there is always one. -/
  enough : max 1 (marked before covered after).length ≤ carets
  /-- They are as many as they should be exactly if what is marked is made of single bytes and, where the text goes on
  behind the line that is shown, so is what stands before it. -/
  exact_iff : carets = max 1 (marked before covered after).length ↔
    SingleBytes (marked before covered after) ∧ (marked before covered after ≠ covered → SingleBytes (lead before))
  /-- In that case none of them is behind the line, unless the text is empty. -/
  within : covered ≠ [] → carets = max 1 (marked before covered after).length →
    (lead before).length + carets ≤ (shownLine before (covered ++ after)).length

theorem Text.underlines_caretCount {before covered after : List Char}
    (hfirst : ∀ c ∈ covered.head?, c ≠ '\n' ∧ c ≠ '\r') :
    Underlines before covered after (caretCount (byteLength covered)
      (byteLength (shownLine before (covered ++ after))) ((lead before).length + 1)) := by
  by_cases hne : covered = []
  · subst hne
    have hnone : marked before [] after = [] := List.take_zero
    have hone : ∀ length column, caretCount (byteLength []) length column = 1 := by
      intro length column
      unfold caretCount
      rw [byteLength_nil]
      omega
    rw [hone]
    refine ⟨fun h => absurd rfl h, ?_, ?_, fun h => absurd rfl h⟩ <;> simp [hnone, SingleBytes]
  · obtain ⟨rest, hshown, hmarked, hinit, hrest⟩ := shownLine_eq before after hne hfirst
    obtain ⟨henough, hexact⟩ := caretCount_spec (lead before) hmarked hinit hrest
    rw [← hshown] at henough hexact
    have hmax : max 1 (marked before covered after).length = (marked before covered after).length :=
      max_eq_right (List.length_pos_iff.2 hmarked)
    refine ⟨fun _ => ⟨hmarked, rest, hshown⟩, by rwa [hmax], by rwa [hmax], fun _ hcarets => ?_⟩
    rw [hcarets, hmax, hshown, List.length_append, List.length_append]
    omega

/-- The report of every problem of a text shows the line on which the problem begins, and below it a marker that begins
where the problem does. -/
theorem marker_matches_iff (w : Word) {src : String} {d : Diagnostic} (hd : d ∈ problems w src) (path : String) :
    ∃ before covered after carets, d.span.Parts src before covered after ∧
      d.report? path src (.ofText src) =
        some (d.headline path (before.count '\n' + 1) ((Text.lead before).length + 1) ++
          markedLine (Text.shownLine before (covered ++ after)) (Text.lead before).length carets) ∧
      Text.Underlines before covered after carets := by
  obtain ⟨before, covered, after, hparts, hfirst⟩ := (problems_visible w hd).exists_parts
  exact ⟨before, covered, after, _, hparts, Diagnostic.report?_eq hparts path, Text.underlines_caretCount hfirst⟩

/-- A declaration that goes on behind its line, on which there is a character of two bytes. -/
theorem marker_matches_iff_of_two_lines :
    ∃ (src : String) (d : Diagnostic), src = "object 8 A;8 f()\x7b$;é;0 # b\nx;\x7d" ∧ d = ⟨.zeroWidth "x", ⟨22, 7⟩⟩ ∧
      d ∈ problems .w64 src ∧
      ∃ before covered after carets, d.span.Parts src before covered after ∧
        d.report? "a.bp" src (.ofText src) =
          some (d.headline "a.bp" (before.count '\n' + 1) ((Text.lead before).length + 1) ++
            markedLine (Text.shownLine before (covered ++ after)) (Text.lead before).length carets) ∧
        Text.Underlines before covered after carets := by
  have hmem : (⟨.zeroWidth "x", ⟨22, 7⟩⟩ : Diagnostic) ∈ problems .w64 "object 8 A;8 f()\x7b$;é;0 # b\nx;\x7d" := by
    decide +kernel
  exact ⟨_, _, rfl, rfl, hmem, marker_matches_iff .w64 hmem "a.bp"⟩

/-- A character of two bytes has two carets, and the second of them is behind the line. -/
theorem two_carets_under_one_character :
    ∃ d ∈ problems .w64 "object 8 A;é", d.span.Parts "object 8 A;é" "object 8 A;".toList ['é'] [] ∧
      Text.marked "object 8 A;".toList ['é'] [] = ['é'] ∧
      d.report? "a.bp" "object 8 A;é" (.ofText "object 8 A;é") =
        some (d.headline "a.bp" 1 12 ++ markedLine "object 8 A;é".toList 11 2) := by
  have hparts : (⟨11, 2⟩ : Span).Parts "object 8 A;é" "object 8 A;".toList ['é'] [] := ⟨by decide, by decide, by decide⟩
  have hcount : "object 8 A;".toList.count '\n' + 1 = 1 := by decide
  have hlead : (Text.lead "object 8 A;".toList).length = 11 := by decide
  have hshown : Text.shownLine "object 8 A;".toList (['é'] ++ []) = "object 8 A;é".toList := by decide
  have hcarets : caretCount (Text.byteLength ['é']) (Text.byteLength "object 8 A;é".toList) (11 + 1) = 2 := by decide
  refine ⟨⟨.strayChar 'é', ⟨11, 2⟩⟩, by decide +kernel, hparts, by decide, ?_⟩
  rw [Diagnostic.report?_eq hparts, hcount, hlead, hshown, hcarets]

end Bitpack
