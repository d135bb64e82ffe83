import Mathlib
import Bitpack.Report
import Bitpack.Proofs.Tiling

/-! Lines of a text. A line starts at the beginning of the text and after each line feed, so the line that a character
stands in can be cut out of the text, and the part of it before the character. -/

namespace Bitpack

section Boundaries

namespace Text

theorem utf8ByteSize_ofList (cs : List Char) : (String.ofList cs).utf8ByteSize = byteLength cs := by
  rw [String.utf8ByteSize_ofList]
  induction cs with
  | nil => rfl
  | cons c cs ih => rw [String.utf8Len_cons, ih, byteLength_cons, Nat.add_comm]

theorem byteLength_toList (src : String) : byteLength src.toList = src.utf8ByteSize := by
  rw [← utf8ByteSize_ofList, String.ofList_toList]

theorem byteLength_newline_cons (cs : List Char) : byteLength ('\n' :: cs) = 1 + byteLength cs :=
  byteLength_cons '\n' cs

theorem isValid_iff {src : String} {n : ℕ} : (⟨n⟩ : String.Pos.Raw).IsValid src ↔
    ∃ before after, src.toList = before ++ after ∧ n = byteLength before := by
  rw [String.Pos.Raw.isValid_iff_exists_append]
  constructor
  · rintro ⟨before, after, rfl, hn⟩
    refine ⟨before.toList, after.toList, String.toList_append, ?_⟩
    rw [byteLength_toList]
    exact congrArg String.Pos.Raw.byteIdx hn
  · rintro ⟨before, after, hsrc, rfl⟩
    refine ⟨String.ofList before, String.ofList after, ?_, ?_⟩
    · rw [← String.ofList_append, ← hsrc, String.ofList_toList]
    · rw [String.rawEndPos, utf8ByteSize_ofList]

theorem isValid_of_append {src : String} {before after : List Char} (h : src.toList = before ++ after) :
    (⟨byteLength before⟩ : String.Pos.Raw).IsValid src :=
  isValid_iff.2 ⟨before, after, h, rfl⟩

theorem eq_nil_of_byteLength {cs : List Char} (h : byteLength cs = 0) : cs = [] := by
  cases cs with
  | nil => rfl
  | cons c cs =>
    have := c.utf8Size_pos
    rw [byteLength_cons] at h
    omega

/-- Of two beginnings of a text, the shorter one is a beginning of the other. -/
theorem prefix_of_byteLength_le {as bs cs ds : List Char} (h : as ++ bs = cs ++ ds)
    (hle : byteLength as ≤ byteLength cs) : as <+: cs := by
  rcases List.prefix_or_prefix_of_prefix ⟨bs, rfl⟩ ⟨ds, h.symm⟩ with hprefix | ⟨middle, rfl⟩
  · exact hprefix
  · rw [byteLength_append] at hle
    rw [eq_nil_of_byteLength (by omega : byteLength middle = 0), List.append_nil]

/-- What lies between two positions of a text can be cut out. -/
theorem slice?_of_isValid {src : String} {lo hi : ℕ} (hlo : (⟨lo⟩ : String.Pos.Raw).IsValid src)
    (hhi : (⟨hi⟩ : String.Pos.Raw).IsValid src) (hle : lo ≤ hi) : ∃ text, slice? src.toList lo hi = some text := by
  obtain ⟨before, after, hsrc, rfl⟩ := isValid_iff.1 hlo
  obtain ⟨before', after', hsrc', rfl⟩ := isValid_iff.1 hhi
  obtain ⟨middle, rfl⟩ := prefix_of_byteLength_le (hsrc.symm.trans hsrc') hle
  exact ⟨middle, slice?_of_eq before middle after' (by rw [hsrc', List.append_assoc]) rfl (byteLength_append _ _)⟩

theorem isValid_of_slice? {src : String} {lo hi : ℕ} {text : List Char} (h : slice? src.toList lo hi = some text) :
    (⟨lo⟩ : String.Pos.Raw).IsValid src ∧ (⟨hi⟩ : String.Pos.Raw).IsValid src := by
  unfold slice? at h
  split_ifs at h with hle
  obtain ⟨⟨before, rest⟩, hrest, h⟩ := Option.bind_eq_some_iff.1 h
  obtain ⟨⟨middle, after⟩, hmiddle, -⟩ := Option.bind_eq_some_iff.1 h
  obtain ⟨hsrc, rfl⟩ := splitBytes?_eq_some hrest
  obtain ⟨rfl, hlength⟩ := splitBytes?_eq_some hmiddle
  refine ⟨isValid_of_append hsrc, ?_⟩
  have hhi : hi = byteLength (before ++ middle) := by
    rw [byteLength_append]
    omega
  rw [hhi]
  exact isValid_of_append (by rw [hsrc, List.append_assoc])

end Text
end Boundaries

namespace LineTable

theorem of_mem_startsFrom {n : ℕ} (cs : List Char) : ∀ {pos : ℕ}, n ∈ startsFrom pos cs →
    ∃ before after, cs = before ++ '\n' :: after ∧ n = pos + Text.byteLength before + 1 := by
  induction cs with
  | nil => simp [startsFrom]
  | cons c cs ih =>
    intro pos hn
    have hlater : ∀ {pos' : ℕ}, pos' = pos + c.utf8Size → n ∈ startsFrom pos' cs →
        ∃ before after, c :: cs = before ++ '\n' :: after ∧ n = pos + Text.byteLength before + 1 := by
      rintro _ rfl hn
      obtain ⟨before, after, rfl, rfl⟩ := ih hn
      exact ⟨c :: before, after, rfl, by rw [Text.byteLength_cons, Nat.add_assoc pos]⟩
    rw [startsFrom] at hn
    split_ifs at hn with hc
    · rcases List.mem_cons.1 hn with rfl | hn
      · exact ⟨[], cs, by rw [hc, List.nil_append], rfl⟩
      · exact hlater (by rw [hc]; rfl) hn
    · exact hlater rfl hn

theorem startsFrom_increasing (cs : List Char) : ∀ pos : ℕ,
    (∀ n ∈ startsFrom pos cs, pos < n) ∧ (startsFrom pos cs).Pairwise (· < ·) := by
  induction cs with
  | nil => simp [startsFrom]
  | cons c cs ih =>
    intro pos
    rw [startsFrom]
    split_ifs
    · obtain ⟨hlt, hpairwise⟩ := ih (pos + 1)
      refine ⟨List.forall_mem_cons.2 ⟨Nat.lt_succ_self pos, fun n hn => ?_⟩, List.pairwise_cons.2 ⟨hlt, hpairwise⟩⟩
      exact (Nat.lt_succ_self pos).trans (hlt n hn)
    · obtain ⟨hlt, hpairwise⟩ := ih (pos + c.utf8Size)
      exact ⟨fun n hn => (Nat.le_add_right _ _).trans_lt (hlt n hn), hpairwise⟩

/-- A line starts at a character, and before it is the line feed that ends the line before. -/
theorem isValid_start {src : String} {n : ℕ} (h : n ∈ (ofText src).starts) : (⟨n⟩ : String.Pos.Raw).IsValid src ∧
    (n ≠ 0 → (⟨n - 1⟩ : String.Pos.Raw).IsValid src) := by
  rcases List.mem_cons.1 h with rfl | h
  · exact ⟨Text.isValid_of_append (List.nil_append _).symm, fun h => absurd rfl h⟩
  · obtain ⟨before, after, hsrc, rfl⟩ := of_mem_startsFrom _ h
    rw [Nat.zero_add, Nat.add_sub_cancel]
    have hfeed : Text.byteLength before + 1 = Text.byteLength (before ++ ['\n']) := by
      rw [Text.byteLength_append]
      rfl
    refine ⟨?_, fun _ => Text.isValid_of_append hsrc⟩
    rw [hfeed]
    exact Text.isValid_of_append (by rw [hsrc, List.append_assoc, List.singleton_append])

theorem starts_increasing (src : String) : (ofText src).starts.Pairwise (· < ·) :=
  List.pairwise_cons.2 (startsFrom_increasing src.toList 0)

/-- An offset stands in a line that starts at or before it. -/
theorem startOf?_lineOf (src : String) (offset : ℕ) :
    ∃ start ∈ (ofText src).starts,
      (ofText src).startOf? ((ofText src).lineOf offset) = some start ∧ start ≤ offset := by
  have hpos : 0 < (ofText src).lineOf offset := by simp [lineOf, ofText]
  unfold startOf?
  rw [if_neg hpos.ne']
  obtain ⟨rest, hrest⟩ : (ofText src).starts.takeWhile (· ≤ offset) <+: (ofText src).starts := List.takeWhile_prefix _
  have hlt : (ofText src).lineOf offset - 1 < ((ofText src).starts.takeWhile (· ≤ offset)).length :=
    Nat.sub_lt hpos one_pos
  have hmem := List.getElem_mem hlt
  refine ⟨_, hrest ▸ List.mem_append_left rest hmem, ?_, by simpa using List.mem_takeWhile_imp hmem⟩
  nth_rewrite 1 [← hrest]
  rw [List.getElem?_append_left hlt, List.getElem?_eq_getElem hlt]

theorem position?_of_isValid {src : String} {offset : ℕ} (h : (⟨offset⟩ : String.Pos.Raw).IsValid src) :
    ∃ column, (ofText src).position? src offset = some ((ofText src).lineOf offset, column) := by
  obtain ⟨start, hmem, hstart, hle⟩ := startOf?_lineOf src offset
  have hend : offset ≤ Text.byteLength src.toList := by
    rw [Text.byteLength_toList]
    exact h.le_utf8ByteSize
  obtain ⟨before, hbefore⟩ := Text.slice?_of_isValid (isValid_start hmem).1 h hle
  refine ⟨before.length + 1, ?_⟩
  rw [position?, hstart, min_eq_left hend]
  simp only [Option.bind_eq_bind, Option.bind_some, hbefore]
  rfl

theorem text?_of_startOf? {src : String} {line start : ℕ} (h : (ofText src).startOf? line = some start) :
    ∃ text, (ofText src).text? src line = some text := by
  unfold text?
  rw [h]
  unfold startOf? at h
  split_ifs at h with hline
  obtain ⟨hlt, hget⟩ := List.getElem?_eq_some_iff.1 h
  have hstart := (isValid_start (List.getElem_mem hlt)).1
  rw [hget] at hstart
  have hcut : ∀ {stop}, (⟨stop⟩ : String.Pos.Raw).IsValid src → start ≤ stop →
      ∃ text, (do
        let cs ← Text.slice? src.toList start stop
        return String.ofList (dropTrailingReturns cs)) = some text := by
    intro stop hstop hle
    obtain ⟨cs, hcs⟩ := Text.slice?_of_isValid hstart hstop hle
    rw [hcs]
    exact ⟨_, rfl⟩
  -- the line ends before the next one starts, or at the end of the text
  cases hnext : (ofText src).starts[line]? with
  | none =>
    refine hcut (Text.isValid_of_append (List.append_nil _).symm) ?_
    rw [Text.byteLength_toList]
    exact hstart.le_utf8ByteSize
  | some next =>
    obtain ⟨hlt', hget'⟩ := List.getElem?_eq_some_iff.1 hnext
    have hincreasing := List.pairwise_iff_getElem.1 (starts_increasing src) (line - 1) line hlt hlt' (by omega)
    rw [hget, hget'] at hincreasing
    exact hcut ((isValid_start (hget' ▸ List.getElem_mem hlt')).2 (by omega)) (Nat.le_sub_one_of_lt hincreasing)

end LineTable

/-- A problem whose place begins at a character can be reported. -/
theorem Diagnostic.report?_of_isValid {d : Diagnostic} {src : String} (h : (⟨d.span.lo⟩ : String.Pos.Raw).IsValid src)
    (path : String) : ∃ text, d.report? path src (.ofText src) = some text := by
  obtain ⟨start, -, hstart, -⟩ := LineTable.startOf?_lineOf src d.span.lo
  obtain ⟨column, hposition⟩ := LineTable.position?_of_isValid h
  obtain ⟨text, htext⟩ := LineTable.text?_of_startOf? hstart
  unfold report?
  simp only [hposition, htext, Option.bind_eq_bind, Option.bind_some]
  exact ⟨_, rfl⟩

theorem reports?_of_isValid {ds : List Diagnostic} {src : String}
    (h : ∀ d ∈ ds, (⟨d.span.lo⟩ : String.Pos.Raw).IsValid src) (path : String) :
    ∃ texts, reports? ds path src = some texts := by
  change ∃ texts, ds.mapM (fun d => d.report? path src (.ofText src)) = some texts
  induction ds with
  | nil => exact ⟨[], rfl⟩
  | cons d ds ih =>
    obtain ⟨hd, hds⟩ := List.forall_mem_cons.1 h
    obtain ⟨text, htext⟩ := d.report?_of_isValid hd path
    obtain ⟨texts, htexts⟩ := ih hds
    refine ⟨text :: texts, ?_⟩
    rw [List.mapM_cons, htext, htexts]
    rfl

end Bitpack
