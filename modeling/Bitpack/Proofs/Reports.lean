import Mathlib
import Bitpack.Proofs.Fatal
import Bitpack.Proofs.Lines

/-! Every place that a unit or a problem notes lies in the text and begins and ends with a character, so all problems
can be reported. -/

namespace Bitpack

/-- A place in a text: from one character to another, and short enough for its length to be kept. -/
structure Span.Fits (src : String) (s : Span) : Prop where
  lo : (⟨s.lo⟩ : String.Pos.Raw).IsValid src
  hi : (⟨s.hi⟩ : String.Pos.Raw).IsValid src
  lo_le : s.lo ≤ s.hi
  hi_le : s.hi ≤ src.utf8ByteSize
  len_lt : s.len < UInt32.size

variable {src : String}

theorem Span.fits_of_isValid (hsrc : src.utf8ByteSize < UInt32.size) {s : Span}
    (hlo : (⟨s.lo⟩ : String.Pos.Raw).IsValid src) (hhi : (⟨s.hi⟩ : String.Pos.Raw).IsValid src) : s.Fits src := by
  have hle : s.hi ≤ src.utf8ByteSize := hhi.le_utf8ByteSize
  refine ⟨hlo, hhi, Nat.le_add_right _ _, hle, ?_⟩
  unfold Span.hi at hle
  omega

theorem Span.fits_joinClosed (hsrc : src.utf8ByteSize < UInt32.size) : Span.JoinClosed (Span.Fits src) := by
  intro a b ha hb
  refine fits_of_isValid hsrc ?_ ?_
  · change (⟨min a.lo b.lo⟩ : String.Pos.Raw).IsValid src
    rcases min_choice a.lo b.lo with h | h <;> rw [h]
    · exact ha.lo
    · exact hb.lo
  · rw [hi_join]
    rcases max_choice a.hi b.hi with h | h <;> rw [h]
    · exact ha.hi
    · exact hb.hi

theorem Token.fits_of_scan (hsrc : src.utf8ByteSize < UInt32.size) :
    ∀ t ∈ Token.scan src ++ [Token.finishOf src], t.span.Fits src := by
  intro t ht
  have htiling : Token.Tiling 0 src.toList (Token.scan src ++ [Token.finishOf src]) :=
    Token.tiling_scanFrom 0 _ src.toList (Nat.zero_add _).symm
  obtain ⟨_, text, -, htext, -⟩ := htiling.lexemes Text.byteLength_nil.symm Text.not_inComment_nil t ht
  obtain ⟨hlo, hhi⟩ := Text.isValid_of_slice? htext
  exact Span.fits_of_isValid hsrc hlo hhi

theorem Span.ofBounds?_of_fits {s : Span} (h : s.Fits src) : ofBounds? s.lo s.hi = some s := by
  have hlen : s.hi - s.lo = s.len := Nat.add_sub_cancel_left _ _
  rw [ofBounds?, hlen, if_pos ⟨h.lo_le, h.len_lt⟩]

/-- In a text of less than 4 GiB no range is refused, so that the ranges of its tokens and what is made of them are the
same with the check and without. -/
theorem Span.bounds_of_scan (hsrc : src.utf8ByteSize < UInt32.size) :
    (∀ t ∈ Token.scan src ++ [Token.finishOf src], ofBounds? t.span.lo t.span.hi = some t.span) ∧
      ∀ a b : Span, a.Fits src → b.Fits src → a.join? b = some (a.join b) := by
  refine ⟨fun t ht => ofBounds?_of_fits (Token.fits_of_scan hsrc t ht), fun a b ha hb => ?_⟩
  have hjoin := ofBounds?_of_fits (fits_joinClosed hsrc a b ha hb)
  rwa [hi_join] at hjoin

/-- The problems that compiling a text meets, whether it fails or not. -/
def problems (w : Word) (src : String) : List Diagnostic :=
  match compile w src with
  | .error ds => ds
  | .ok c => c.faults

theorem mem_problems {w : Word} {d : Diagnostic} (h : d ∈ problems w src) :
    d ∈ (SourceUnit.ofText w src).2 ∨ d ∈ (SourceUnit.ofText w src).1.lower.2 := by
  have hgenerate : ((SourceUnit.ofText w src).1.generate w).2 = (SourceUnit.ofText w src).1.lower.2 := by
    rw [SourceUnit.generate, if_pos (SourceUnit.ofText_wellFormed w src).2]
  rw [← hgenerate, ← List.mem_append]
  unfold problems compile at h
  simp only at h
  split_ifs at h
  · exact List.mem_append_left _ h
  · exact h
  · exact h

/-- Whatever a text of less than 4 GiB says, the places of its imports, methods, expressions, calls and problems are
places in the text, calls lie within their statements, and all problems can be reported. -/
theorem locations_fit (w : Word) (hsrc : src.utf8ByteSize < 2 ^ 32) :
    (SourceUnit.ofText w src).1.Located (Span.Fits src) ∧ (∀ d ∈ problems w src, d.span.Fits src) ∧
      ∀ path, ∃ texts, reports? (problems w src) path src = some texts := by
  have horigin : (Span.origin).Fits src :=
    Span.fits_of_isValid hsrc String.Pos.Raw.isValid_zero String.Pos.Raw.isValid_zero
  obtain ⟨hunit, hfaults⟩ := SourceUnit.ofText_located (Span.fits_joinClosed hsrc) horigin w
    (Token.scan_located (Token.fits_of_scan hsrc))
  have hproblems : ∀ d ∈ problems w src, d.span.Fits src := by
    intro d hd
    rcases mem_problems hd with hd | hd
    · exact hfaults.span d hd
    · refine (SourceUnit.lower_minor (fun m hm b hb st hst e he => ?_) d hd).span
      exact ((hunit.methods m hm).statements b hb st hst e he).1
  exact ⟨hunit, hproblems, reports?_of_isValid fun d hd => (hproblems d hd).lo⟩

/-- Calls inside each other, and problems at characters of two bytes and after them. -/
theorem locations_fit_of_nested_calls :
    ∃ src : String, src = "object 8 A;8 f(8 a){é;print(f(f(a)),2/0);}\n8 g(8 é);" ∧ src.utf8ByteSize < 2 ^ 32 ∧
      (problems .w64 src).map (·.span.text) = ["20..22", "50..52", "37..40"] ∧
      (∀ d ∈ problems .w64 src, d.span.Fits src) ∧
      (∃ m ∈ (SourceUnit.ofText .w64 src).1.methods, ∃ b, m.body = some b ∧ ∃ st ∈ b.statements, ∃ e,
        st.expression? = some e ∧ e.span = ⟨23, 18⟩ ∧ e.Located (Span.Fits src) ∧ e.Nested) ∧
      ∃ texts, reports? (problems .w64 src) "a.bp" src = some texts := by
  refine ⟨_, rfl, by decide +kernel, by decide +kernel, ?_⟩
  have hsize : ("object 8 A;8 f(8 a){é;print(f(f(a)),2/0);}\n8 g(8 é);").utf8ByteSize < 2 ^ 32 := by decide +kernel
  obtain ⟨hunit, hproblems, hreports⟩ := locations_fit .w64 hsize
  have hspan : ∃ m ∈ (SourceUnit.ofText .w64 "object 8 A;8 f(8 a){é;print(f(f(a)),2/0);}\n8 g(8 é);").1.methods,
      m.body.map (fun b => b.statements.map fun st => st.expression?.map (·.span)) = some [some ⟨23, 18⟩] := by
    decide +kernel
  obtain ⟨m, hm, hbody⟩ := hspan
  obtain ⟨b, hb, hbody⟩ := Option.map_eq_some_iff.1 hbody
  obtain ⟨st, hst, he⟩ := List.mem_map.1 (hbody ▸ List.mem_singleton_self (some (⟨23, 18⟩ : Span)))
  obtain ⟨e, he, hspan⟩ := Option.map_eq_some_iff.1 he
  obtain ⟨hlocated, hnested⟩ := (hunit.methods m hm).statements b hb st hst e he
  exact ⟨hproblems, ⟨m, hm, b, hb, st, hst, e, he, hspan, hlocated, hnested⟩, hreports "a.bp"⟩

end Bitpack
