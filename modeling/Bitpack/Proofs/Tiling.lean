import Mathlib
import Bitpack.Token.Scan

/-! Tokens tile their text. A text is a gap of blanks and comments, a lexeme, another gap, and so on, and each token
stands for one lexeme. No character is lost or taken twice, and a word of the text that stands in no comment is one
token, whole. -/

namespace Bitpack

namespace Text

theorem slice?_of_eq {src : List Char} {lo hi : ℕ} (as bs cs : List Char) (hsrc : src = as ++ (bs ++ cs))
    (hlo : lo = byteLength as) (hhi : hi = lo + byteLength bs) : slice? src lo hi = some bs := by
  subst hsrc hlo hhi
  simp [slice?, splitBytes?_append]

theorem byteLength_takeWhile_add (p : Char → Bool) (cs : List Char) :
    byteLength (cs.takeWhile p) + byteLength (cs.dropWhile p) = byteLength cs := by
  rw [← byteLength_append, List.takeWhile_append_dropWhile]

/-- A comment has begun on the last line of this text: what follows on that line is in it. -/
def InComment (before : List Char) : Prop :=
  '#' ∈ before.reverse.takeWhile (· ≠ '\n')

theorem not_inComment_nil : ¬ InComment [] := by
  simp [InComment]

theorem inComment_snoc (before : List Char) (c : Char) :
    InComment (before ++ [c]) ↔ c ≠ '\n' ∧ (c = '#' ∨ InComment before) := by
  unfold InComment
  rw [List.reverse_append, List.reverse_singleton, List.singleton_append, List.takeWhile_cons]
  by_cases hc : c = '\n'
  · simp [hc]
  · simp [hc, eq_comm]

theorem not_inComment_append {before cs : List Char} (hbefore : ¬ InComment before) (hcs : ∀ c ∈ cs, c ≠ '#') :
    ¬ InComment (before ++ cs) := by
  induction cs generalizing before with
  | nil => simpa using hbefore
  | cons c cs ih =>
    obtain ⟨hc, hcs⟩ := List.forall_mem_cons.1 hcs
    rw [List.append_cons]
    refine ih ?_ hcs
    rw [inComment_snoc]
    tauto

theorem not_inComment_cons {before : List Char} {c : Char} (h : ¬ InComment (c :: before)) : ¬ InComment before := by
  intro hin
  refine h ?_
  unfold InComment at hin ⊢
  rw [List.reverse_cons, List.takeWhile_append]
  split_ifs
  · exact List.mem_append_left _ ((List.takeWhile_sublist _).subset hin)
  · exact hin

end Text

namespace Token

/-- What may stand between tokens: blanks, and comments up to the ends of their lines. Only the `final` gap, before
the end of the text, may end with a comment whose line does not end. -/
inductive Trivia (final : Prop) : List Char → Prop
  | nil : Trivia final []
  | blank {c : Char} {gap : List Char} (hc : isBlank c = true) (hgap : Trivia final gap) : Trivia final (c :: gap)
  | comment {body gap : List Char} (hbody : '\n' ∉ body) (hgap : Trivia final gap) :
      Trivia final ('#' :: (body ++ '\n' :: gap))
  | last {body : List Char} (hfinal : final) (hbody : '\n' ∉ body) : Trivia final ('#' :: body)

/-- A gap that is not the last one ends all of its comments. -/
theorem Trivia.not_inComment {gap : List Char} (h : Trivia False gap) : ∀ {before : List Char},
    ¬ Text.InComment before → ¬ Text.InComment (before ++ gap) := by
  induction h with
  | nil => simp
  | @blank c gap hc _ ih =>
    intro before hbefore
    have hne : c ≠ '#' := by
      rintro rfl
      exact absurd hc (by decide)
    rw [List.append_cons]
    refine ih ?_
    rw [Text.inComment_snoc]
    tauto
  | @comment body gap _ _ ih =>
    intro before _
    have htext : before ++ '#' :: (body ++ '\n' :: gap) = (before ++ '#' :: body) ++ ['\n'] ++ gap := by simp
    rw [htext]
    refine ih ?_
    rw [Text.inComment_snoc]
    tauto
  | last hfinal _ => exact hfinal.elim

/-- The text of a token other than the end. -/
inductive IsLexeme : List Char → Kind → Prop
  | word {run : List Char} (hne : run ≠ []) (hrun : ∀ c ∈ run, isWordChar c = true) : IsLexeme run (wordKind run)
  | mark (m : Mark) : IsLexeme [m.char] (.mark m)
  | stray {c : Char} (hblank : isBlank c = false) (hhash : c ≠ '#') : IsLexeme [c] (.stray c)

/-- Tokens and the text from the offset `pos` on, divided into gaps and lexemes. -/
inductive Tiling : ℕ → List Char → List Token → Prop
  | finish {pos : ℕ} {gap : List Char} (hgap : Trivia True gap) :
      Tiling pos gap [Token.finish (pos + Text.byteLength gap)]
  | token {pos : ℕ} {gap lexeme rest : List Char} {kind : Kind} {ts : List Token} (hgap : Trivia False gap)
      (hlexeme : IsLexeme lexeme kind) (hrest : Tiling (pos + Text.byteLength gap + Text.byteLength lexeme) rest ts) :
      Tiling pos (gap ++ (lexeme ++ rest)) (⟨kind, pos + Text.byteLength gap, Text.byteLength lexeme⟩ :: ts)

section Characters

theorem isWordChar_ne {c d : Char} (hc : isWordChar c = true) (hd : isWordChar d = false) : c ≠ d := by
  rintro rfl
  exact Bool.false_ne_true (hd.symm.trans hc)

theorem utf8Size_of_isWordChar {c : Char} (h : isWordChar c = true) : c.utf8Size = 1 := by
  have hle : c.val ≤ 'z'.val := by
    simp only [isWordChar, Char.isAlphanum, Char.isAlpha, Char.isUpper, Char.isLower, Char.isDigit, Bool.or_eq_true,
      Bool.and_eq_true, decide_eq_true_eq] at h
    rcases h with ((⟨-, h⟩ | ⟨-, h⟩) | ⟨-, h⟩) | rfl
    · exact UInt32.le_trans h (by decide)
    · exact h
    · exact UInt32.le_trans h (by decide)
    · decide
  exact if_pos (UInt32.le_trans hle (by decide))

theorem isWordChar_of_isBlank {c : Char} (h : isBlank c = true) : isWordChar c = false := by
  simp only [isBlank, Bool.or_eq_true, decide_eq_true_eq] at h
  rcases h with (((rfl | rfl) | rfl) | rfl) | rfl <;> rfl

theorem byteLength_of_isWordChar {cs : List Char} (h : ∀ c ∈ cs, isWordChar c = true) :
    Text.byteLength cs = cs.length := by
  induction cs with
  | nil => rfl
  | cons c cs ih =>
    obtain ⟨hc, hcs⟩ := List.forall_mem_cons.1 h
    rw [Text.byteLength_cons, utf8Size_of_isWordChar hc, ih hcs, List.length_cons, Nat.add_comm]

theorem utf8Size_of_isBlank {c : Char} (h : isBlank c = true) : c.utf8Size = 1 := by
  simp only [isBlank, Bool.or_eq_true, decide_eq_true_eq] at h
  rcases h with (((rfl | rfl) | rfl) | rfl) | rfl <;> rfl

theorem char_of_ofChar? {c : Char} {m : Mark} (h : Mark.ofChar? c = some m) : m.char = c := by
  unfold Mark.ofChar? at h
  split at h <;> cases h <;> rfl

theorem isLexeme_charKind {c : Char} (hblank : isBlank c = false) (hhash : c ≠ '#') : IsLexeme [c] (charKind c) := by
  unfold charKind
  split
  · rename_i m hm
    obtain rfl := char_of_ofChar? hm
    exact .mark m
  · exact .stray hblank hhash

end Characters

section Scan

variable {pos : ℕ} {cs : List Char} {ts : List Token}

theorem IsLexeme.ne_nil {kind : Kind} (h : IsLexeme cs kind) : cs ≠ [] := by
  cases h with
  | word hne _ => exact hne
  | mark m => exact List.cons_ne_nil _ _
  | stray _ _ => exact List.cons_ne_nil _ _

theorem IsLexeme.ne {kind : Kind} (h : IsLexeme cs kind) : ∀ c ∈ cs, isBlank c = false ∧ c ≠ '#' := by
  cases h with
  | word _ hrun =>
    intro c hc
    have hword := hrun c hc
    refine ⟨Bool.eq_false_iff.2 fun hblank => ?_, isWordChar_ne hword (by decide)⟩
    exact isWordChar_ne hword (isWordChar_of_isBlank hblank) rfl
  | mark m => cases m <;> simp [Mark.char, isBlank]
  | stray hblank hhash => simp [hblank, hhash]

theorem Tiling.lexeme {lexeme : List Char} {kind : Kind} (h : IsLexeme lexeme kind)
    (hcs : Tiling (pos + Text.byteLength lexeme) cs ts) :
    Tiling pos (lexeme ++ cs) (⟨kind, pos, Text.byteLength lexeme⟩ :: ts) :=
  .token .nil h hcs

theorem Tiling.blank {c : Char} (hc : isBlank c = true) (h : Tiling (pos + 1) cs ts) : Tiling pos (c :: cs) ts := by
  have hsize := utf8Size_of_isBlank hc
  cases h with
  | finish hgap =>
    convert Tiling.finish (.blank hc hgap) using 3
    rw [Text.byteLength_cons, hsize, Nat.add_assoc]
  | @token _ gap lexeme rest kind ts hgap hlexeme hrest =>
    have hpos : pos + 1 + Text.byteLength gap = pos + Text.byteLength (c :: gap) := by
      rw [Text.byteLength_cons, hsize, Nat.add_assoc]
    rw [hpos] at hrest ⊢
    exact .token (.blank hc hgap) hlexeme hrest

theorem Trivia.of_newline {final : Prop} {gap : List Char} (h : Trivia final ('\n' :: gap)) : Trivia final gap := by
  cases h with
  | blank _ hgap => exact hgap

/-- A comment goes on to a line feed or to the end of the text. -/
theorem Tiling.comment {body : List Char} (hbody : '\n' ∉ body) (hcs : ∀ c ∈ cs.head?, c = '\n')
    (h : Tiling (pos + 1 + Text.byteLength body) cs ts) : Tiling pos ('#' :: (body ++ cs)) ts := by
  cases h with
  | finish hgap =>
    have htrivia : Trivia True ('#' :: (body ++ cs)) := by
      cases cs with
      | nil => exact .last trivial (by simpa using hbody)
      | cons c cs =>
        obtain rfl := hcs c rfl
        exact .comment hbody hgap.of_newline
    have hpos : pos + 1 + Text.byteLength body + Text.byteLength cs = pos + Text.byteLength ('#' :: (body ++ cs)) := by
      rw [Text.byteLength_cons, Text.byteLength_append, show '#'.utf8Size = 1 from rfl]
      omega
    rw [hpos]
    exact .finish htrivia
  | @token _ gap lexeme rest kind ts hgap hlexeme hrest =>
    cases gap with
    | nil =>
      obtain ⟨c, lexeme, rfl⟩ := List.exists_cons_of_ne_nil hlexeme.ne_nil
      obtain rfl := hcs c rfl
      exact absurd (hlexeme.ne '\n' List.mem_cons_self).1 (by decide)
    | cons c gap =>
      obtain rfl := hcs c rfl
      have hpos : pos + 1 + Text.byteLength body + Text.byteLength ('\n' :: gap) =
          pos + Text.byteLength ('#' :: (body ++ '\n' :: gap)) := by
        rw [Text.byteLength_cons '#', Text.byteLength_append, show '#'.utf8Size = 1 from rfl]
        omega
      have htext : '#' :: (body ++ ('\n' :: gap ++ (lexeme ++ rest))) =
          '#' :: (body ++ '\n' :: gap) ++ (lexeme ++ rest) := by simp
      rw [hpos] at hrest ⊢
      rw [htext]
      exact .token (.comment hbody hgap.of_newline) hlexeme hrest

theorem head?_dropWhile_inComment (cs : List Char) : ∀ c ∈ (cs.dropWhile inComment).head?, c = '\n' := by
  intro c hc
  have hhead := List.head?_dropWhile_not inComment cs
  rw [show (cs.dropWhile inComment).head? = some c from hc] at hhead
  simpa [inComment] using hhead

theorem tiling_scanFrom (pos stop : ℕ) (cs : List Char) (hstop : stop = pos + Text.byteLength cs) :
    Tiling pos cs (scanFrom pos cs ++ [finish stop]) := by
  fun_induction scanFrom pos cs with
  | case1 pos =>
    rw [hstop]
    exact .finish .nil
  | case2 pos cs ih =>
    have hcut := Text.byteLength_takeWhile_add inComment cs
    rw [Text.byteLength_cons, show '#'.utf8Size = 1 from rfl] at hstop
    have hbody : '\n' ∉ cs.takeWhile inComment := fun hmem => absurd (List.mem_takeWhile_imp hmem) (by decide)
    have htiling := Tiling.comment hbody (head?_dropWhile_inComment cs) (ih (by omega))
    rwa [List.takeWhile_append_dropWhile] at htiling
  | case3 pos c cs _ hblank ih =>
    rw [Text.byteLength_cons, utf8Size_of_isBlank hblank] at hstop
    exact .blank hblank (ih (by omega))
  | case4 pos c cs _ _ hword word ih =>
    have hcut := Text.byteLength_takeWhile_add isWordChar cs
    have hrun : ∀ d ∈ word, isWordChar d = true :=
      List.forall_mem_cons.2 ⟨hword, fun _ hmem => List.mem_takeWhile_imp hmem⟩
    have hlength := byteLength_of_isWordChar hrun
    rw [Text.byteLength_cons, utf8Size_of_isWordChar hword] at hstop
    have hword' : Text.byteLength word = 1 + Text.byteLength (cs.takeWhile isWordChar) := by
      rw [Text.byteLength_cons, utf8Size_of_isWordChar hword]
    have htext : c :: cs = word ++ cs.dropWhile isWordChar := by
      rw [List.cons_append, List.takeWhile_append_dropWhile]
    rw [htext, ← hlength]
    exact .lexeme (.word (List.cons_ne_nil _ _) hrun) (hlength ▸ ih (by omega))
  | case5 pos c cs hhash hblank _ ih =>
    rw [Text.byteLength_cons] at hstop
    exact .lexeme (isLexeme_charKind (by simpa using hblank) hhash) (ih (by omega))

end Scan

section Tiles

variable {pos : ℕ} {cs pre : List Char} {ts : List Token}

/-- The text from an offset up to a token is a gap. -/
def GapBefore (src : List Char) (lo : ℕ) (t : Token) : Prop :=
  ∃ gap, Text.slice? src lo t.span.lo = some gap ∧ Trivia (t.kind = .finish) gap

/-- What a token says of its text: a stray character is that character, and anything else is shown as it is written. -/
def Shows (text : List Char) : Kind → Prop
  | .stray c => text = [c]
  | kind => kind.text = String.ofList text

theorem Trivia.mono {p q : Prop} {gap : List Char} (hpq : p → q) (h : Trivia p gap) : Trivia q gap := by
  induction h with
  | nil => exact .nil
  | blank hc _ ih => exact .blank hc ih
  | comment hbody _ ih => exact .comment hbody ih
  | last hp hbody => exact .last (hpq hp) hbody

theorem text_of_ofText? {text : String} {k : Keyword} (h : Keyword.ofText? text = some k) : k.text = text := by
  unfold Keyword.ofText? at h
  split at h <;> cases h <;> rfl

theorem IsLexeme.shows {kind : Kind} (h : IsLexeme cs kind) : Shows cs kind ∧ kind ≠ .finish := by
  cases h with
  | word _ _ =>
    unfold wordKind
    simp only
    split_ifs
    · exact ⟨rfl, Kind.noConfusion⟩
    · split
      · rename_i k hk
        exact ⟨text_of_ofText? hk, Kind.noConfusion⟩
      · exact ⟨rfl, Kind.noConfusion⟩
  | mark m => exact ⟨rfl, Kind.noConfusion⟩
  | stray _ _ => exact ⟨rfl, Kind.noConfusion⟩

theorem Tiling.le_lo (h : Tiling pos cs ts) : ∀ t ∈ ts, pos ≤ t.span.lo := by
  induction h with
  | finish _ => simp [Token.finish]
  | token _ _ _ ih =>
    refine List.forall_mem_cons.2 ⟨Nat.le_add_right _ _, fun t ht => ?_⟩
    have := ih t ht
    omega

theorem Tiling.ordered (h : Tiling pos cs ts) :
    ts.Pairwise fun a b => a.span.lo < b.span.lo ∧ a.span.hi ≤ b.span.lo := by
  induction h with
  | finish _ => exact List.pairwise_singleton _ _
  | @token pos gap lexeme rest kind ts _ hlexeme hrest ih =>
    refine List.pairwise_cons.2 ⟨fun t ht => ?_, ih⟩
    have hle := hrest.le_lo t ht
    have hpos : 0 < Text.byteLength lexeme := by
      obtain ⟨c, lexeme, rfl⟩ := List.exists_cons_of_ne_nil hlexeme.ne_nil
      have := c.utf8Size_pos
      rw [Text.byteLength_cons]
      omega
    exact ⟨by change pos + _ < _; omega, hle⟩

theorem Tiling.gaps (h : Tiling pos cs ts) : ∀ {pre : List Char}, pos = Text.byteLength pre →
    (∀ t ∈ ts.head?, GapBefore (pre ++ cs) pos t) ∧ ts.IsChain fun a b => GapBefore (pre ++ cs) a.span.hi b := by
  induction h with
  | @finish pos gap hgap =>
    rintro pre rfl
    refine ⟨?_, .singleton _⟩
    rintro t ⟨⟩
    exact ⟨gap, Text.slice?_of_eq pre gap [] (by rw [List.append_nil]) rfl rfl, hgap.mono fun _ => rfl⟩
  | @token pos gap lexeme rest kind ts hgap _ _ ih =>
    rintro pre rfl
    have hpre : Text.byteLength pre + Text.byteLength gap + Text.byteLength lexeme =
        Text.byteLength (pre ++ gap ++ lexeme) := by simp [Nat.add_assoc]
    obtain ⟨hfirst, hchain⟩ := ih hpre
    have htext : pre ++ gap ++ lexeme ++ rest = pre ++ (gap ++ (lexeme ++ rest)) := by simp
    rw [htext] at hfirst hchain
    refine ⟨?_, hchain.cons hfirst⟩
    rintro t ⟨⟩
    exact ⟨gap, Text.slice?_of_eq pre gap _ rfl rfl rfl, hgap.mono False.elim⟩

theorem Tiling.last (h : Tiling pos cs ts) :
    ∃ front, ts = front ++ [Token.finish (pos + Text.byteLength cs)] ∧ ∀ t ∈ front, t.kind ≠ .finish := by
  induction h with
  | finish _ => exact ⟨[], rfl, List.forall_mem_nil _⟩
  | @token pos gap lexeme rest kind ts _ hlexeme _ ih =>
    obtain ⟨front, rfl, hfront⟩ := ih
    refine ⟨⟨kind, pos + Text.byteLength gap, Text.byteLength lexeme⟩ :: front, ?_,
      List.forall_mem_cons.2 ⟨hlexeme.shows.2, hfront⟩⟩
    rw [List.cons_append, Text.byteLength_append, Text.byteLength_append, Nat.add_assoc, Nat.add_assoc]

theorem Tiling.lexemes (h : Tiling pos cs ts) : ∀ {pre : List Char}, pos = Text.byteLength pre →
    ¬ Text.InComment pre → ∀ t ∈ ts, ∃ before text, Text.slice? (pre ++ cs) 0 t.span.lo = some before ∧
      Text.slice? (pre ++ cs) t.span.lo t.span.hi = some text ∧
      (t.kind ≠ .finish → ¬ Text.InComment (before ++ text) ∧ Shows text t.kind) := by
  induction h with
  | @finish pos gap hgap =>
    rintro pre rfl _ t ht
    obtain rfl := List.mem_singleton.1 ht
    have hstop : Text.byteLength pre + Text.byteLength gap = Text.byteLength (pre ++ gap) := by simp
    refine ⟨pre ++ gap, [], ?_, ?_, fun h => absurd rfl h⟩
    · exact Text.slice?_of_eq [] _ [] (by simp) rfl (by rw [Nat.zero_add]; exact hstop)
    · exact Text.slice?_of_eq (pre ++ gap) [] [] (by simp) hstop rfl
  | @token pos gap lexeme rest kind ts hgap hlexeme _ ih =>
    rintro pre rfl hpre
    have hlo : Text.byteLength pre + Text.byteLength gap = Text.byteLength (pre ++ gap) := by simp
    have hout : ¬ Text.InComment (pre ++ gap ++ lexeme) :=
      Text.not_inComment_append (hgap.not_inComment hpre) fun c hc => (hlexeme.ne c hc).2
    have hrest := ih (by simp [Nat.add_assoc]) hout
    have hsrc : pre ++ gap ++ lexeme ++ rest = pre ++ (gap ++ (lexeme ++ rest)) := by simp
    rw [hsrc] at hrest
    refine List.forall_mem_cons.2 ⟨⟨pre ++ gap, lexeme, ?_, ?_, fun _ => ⟨hout, hlexeme.shows.1⟩⟩, hrest⟩
    · exact Text.slice?_of_eq [] _ (lexeme ++ rest) (by simp) rfl (by rw [Nat.zero_add]; exact hlo)
    · exact Text.slice?_of_eq (pre ++ gap) lexeme rest (by simp) hlo rfl

end Tiles

section Words

/-- A word in a text: a run of word characters that goes as far as it can on both sides and stands in no comment. -/
structure IsWord (before run after : List Char) : Prop where
  ne_nil : run ≠ []
  allWord : ∀ c ∈ run, isWordChar c = true
  starts : ∀ c ∈ before.getLast?, isWordChar c = false
  ends : ∀ c ∈ after.head?, isWordChar c = false
  outside : ¬ Text.InComment before

variable {c : Char} {before run after : List Char}

theorem IsWord.tail (h : IsWord (c :: before) run after) : IsWord before run after where
  ne_nil := h.ne_nil
  allWord := h.allWord
  starts d hd := h.starts d (by rw [List.getLast?_cons, show before.getLast? = some d from hd]; rfl)
  ends := h.ends
  outside := Text.not_inComment_cons h.outside

theorem IsWord.dropWhile (p : Char → Bool) (h : IsWord before run after) : IsWord (before.dropWhile p) run after := by
  induction before with
  | nil => exact h
  | cons c before ih =>
    rw [List.dropWhile_cons]
    split_ifs
    · exact ih h.tail
    · exact h

theorem IsWord.cons_of_ne {cs : List Char} (h : IsWord before run after) (hcs : c :: cs = before ++ (run ++ after))
    (hc : isWordChar c = false) : ∃ before', before = c :: before' ∧ cs = before' ++ (run ++ after) := by
  cases before with
  | nil =>
    obtain ⟨d, run, rfl⟩ := List.exists_cons_of_ne_nil h.ne_nil
    obtain ⟨rfl, -⟩ := List.cons.inj hcs
    exact absurd (h.allWord c List.mem_cons_self) (by simp [hc])
  | cons d before =>
    obtain ⟨rfl, rfl⟩ := List.cons.inj hcs
    exact ⟨before, rfl, rfl⟩

theorem IsWord.exists_end (h : IsWord (c :: before) run after) (hc : isWordChar c = true) :
    ∃ d ∈ before, isWordChar d = false := by
  rcases List.eq_nil_or_concat before with rfl | ⟨front, d, rfl⟩
  · exact absurd (h.starts c rfl) (by simp [hc])
  · exact ⟨d, by simp, h.starts d (by simp [List.getLast?_cons])⟩

theorem cut_append {p : Char → Bool} {xs : List Char} (ys : List Char) (h : ∃ x ∈ xs, p x = false) :
    (xs ++ ys).takeWhile p = xs.takeWhile p ∧ (xs ++ ys).dropWhile p = xs.dropWhile p ++ ys := by
  induction xs with
  | nil => simp at h
  | cons x xs ih =>
    by_cases hx : p x = true
    · have hxs : ∃ y ∈ xs, p y = false := by simpa [hx] using h
      simp [hx, ih hxs]
    · simp [hx]

theorem cut_word (h : IsWord [] run after) :
    (run ++ after).takeWhile isWordChar = run ∧ (run ++ after).dropWhile isWordChar = after := by
  rw [List.takeWhile_append_of_pos h.allWord, List.dropWhile_append_of_pos h.allWord]
  have hafter := h.ends
  cases after with
  | nil => simp
  | cons c after => simp [hafter c rfl]

/-- Where no comment is open any more, each that was begun has ended. -/
theorem newline_of_not_inComment (h : ¬ Text.InComment ('#' :: before)) : '\n' ∈ before := by
  by_contra hmem
  refine h ?_
  have hall : ∀ c ∈ before.reverse, decide (c ≠ '\n') = true := by
    intro c hc
    simp only [decide_eq_true_eq]
    rintro rfl
    exact hmem (List.mem_reverse.1 hc)
  rw [Text.InComment, List.reverse_cons, List.takeWhile_append_of_pos hall]
  simp

theorem mem_scanFrom_of_isWord (pos : ℕ) {cs : List Char} : ∀ {before : List Char}, IsWord before run after →
    cs = before ++ (run ++ after) →
    (⟨wordKind run, pos + Text.byteLength before, Text.byteLength run⟩ : Token) ∈ scanFrom pos cs := by
  fun_induction scanFrom pos cs with
  | case1 pos =>
    intro before h hcs
    exact absurd (List.append_eq_nil_iff.1 (List.append_eq_nil_iff.1 hcs.symm).2).1 h.ne_nil
  | case2 pos cs ih =>
    intro before h hcs
    obtain ⟨before, rfl, rfl⟩ := h.cons_of_ne hcs (by decide)
    obtain ⟨htake, hdrop⟩ := cut_append (run ++ after)
      ⟨_, newline_of_not_inComment h.outside, (rfl : inComment '\n' = false)⟩
    have hmem := ih (h.tail.dropWhile inComment) hdrop
    have hcut := Text.byteLength_takeWhile_add inComment before
    have hpos : pos + 1 + Text.byteLength (before.takeWhile inComment) + Text.byteLength (before.dropWhile inComment) =
        pos + Text.byteLength ('#' :: before) := by
      rw [Text.byteLength_cons, show '#'.utf8Size = 1 from rfl]
      omega
    rw [htake, hpos] at hmem
    rwa [htake]
  | case3 pos c cs _ hblank ih =>
    intro before h hcs
    obtain ⟨before, rfl, rfl⟩ := h.cons_of_ne hcs (isWordChar_of_isBlank hblank)
    rw [Text.byteLength_cons, utf8Size_of_isBlank hblank, ← Nat.add_assoc]
    exact ih h.tail rfl
  | case4 pos c cs _ _ hword word =>
    rename_i ih
    intro before h hcs
    cases before with
    | nil =>
      rw [List.nil_append] at hcs
      have hrun : word = run := by rw [← (cut_word h).1, ← hcs, List.takeWhile_cons_of_pos hword]
      rw [hrun, byteLength_of_isWordChar h.allWord]
      exact List.mem_cons_self
    | cons d before =>
      obtain ⟨rfl, rfl⟩ := List.cons.inj hcs
      obtain ⟨htake, hdrop⟩ := cut_append (run ++ after) (h.exists_end hword)
      have hmem := ih (h.tail.dropWhile isWordChar) hdrop
      have hlength : word.length = 1 + Text.byteLength (before.takeWhile isWordChar) := by
        rw [byteLength_of_isWordChar fun x hx => List.mem_takeWhile_imp hx, ← htake, Nat.add_comm]
        rfl
      have hcut := Text.byteLength_takeWhile_add isWordChar before
      have hpos : pos + word.length + Text.byteLength (before.dropWhile isWordChar) =
          pos + Text.byteLength (c :: before) := by
        rw [Text.byteLength_cons, utf8Size_of_isWordChar hword]
        omega
      rw [hpos] at hmem
      exact List.mem_cons_of_mem _ hmem
  | case5 pos c cs _ _ hword ih =>
    intro before h hcs
    obtain ⟨before, rfl, rfl⟩ := h.cons_of_ne hcs (by simpa using hword)
    refine List.mem_cons_of_mem _ ?_
    rw [Text.byteLength_cons, ← Nat.add_assoc]
    exact ih h.tail rfl

/-- Names and numbers are identifiers. -/
def isIdentifier : Kind → Bool
  | .name _ | .number _ => true
  | .keyword _ | .mark _ | .stray _ | .finish => false

theorem isIdentifier_wordKind (run : List Char) :
    isIdentifier (wordKind run) = true ↔ String.ofList run ∉ ["object", "import", "return", "and", "or"] := by
  unfold wordKind
  simp only
  split_ifs with hdigit
  · refine iff_of_true rfl fun hmem => ?_
    have hkeyword : ∀ text ∈ ["object", "import", "return", "and", "or"],
        text.toList.head?.any Char.isDigit = false := by decide
    have hhead := hkeyword _ hmem
    rw [String.toList_ofList, hdigit] at hhead
    exact Bool.noConfusion hhead
  · split
    · rename_i k hk
      refine iff_of_false Bool.false_ne_true fun hmem => hmem ?_
      rw [← text_of_ofText? hk]
      cases k <;> decide
    · rename_i hnone
      refine iff_of_true rfl fun hmem => ?_
      have hkeyword : ∀ text ∈ ["object", "import", "return", "and", "or"],
          (Keyword.ofText? text).isSome = true := by decide
      exact absurd (hkeyword _ hmem) (by simp [hnone])

end Words

/-- What the tokens of a text are to it. -/
structure Tokenizes (src : List Char) (ts : List Token) : Prop where
  /-- Tokens stand one behind the other and do not overlap. -/
  ordered : ts.Pairwise fun a b => a.span.lo < b.span.lo ∧ a.span.hi ≤ b.span.lo
  /-- Each token begins and ends where characters do and stands for what is there; none is in a comment. -/
  texts : ∀ t ∈ ts, ∃ before text, Text.slice? src 0 t.span.lo = some before ∧
    Text.slice? src t.span.lo t.span.hi = some text ∧
    (t.kind ≠ .finish → ¬ Text.InComment (before ++ text) ∧ Shows text t.kind)
  /-- Only blanks and comments stand before the first token and between one and the next. -/
  first_gap : ∀ t ∈ ts.head?, GapBefore src 0 t
  gaps : ts.IsChain fun a b => GapBefore src a.span.hi b
  /-- The end of the text is the last token, and no other token is. -/
  last : ∃ front, ts = front ++ [⟨.finish, Text.byteLength src, 0⟩] ∧ ∀ t ∈ front, t.kind ≠ .finish
  /-- A word is one token, and an identifier unless it is a keyword. -/
  words : ∀ before run after, src = before ++ (run ++ after) → IsWord before run after →
    ∃ t ∈ ts, t.span = ⟨Text.byteLength before, Text.byteLength run⟩ ∧
      (isIdentifier t.kind ↔ String.ofList run ∉ ["object", "import", "return", "and", "or"])

end Token

/-- The tokens of a text tile it. -/
theorem tokens_tile_text (src : String) (hsrc : src ≠ "") :
    ∃ ts, Token.list? src = some ts ∧ Token.Tokenizes src.toList ts := by
  have hlist : Token.list? src = some (Token.scan src ++ [Token.finishOf src]) :=
    if_neg (by simpa using hsrc)
  have htiling : Token.Tiling 0 src.toList (Token.scan src ++ [Token.finishOf src]) :=
    Token.tiling_scanFrom 0 _ src.toList (Nat.zero_add _).symm
  obtain ⟨hfirst, hchain⟩ := htiling.gaps Text.byteLength_nil.symm
  refine ⟨_, hlist, htiling.ordered, ?_, hfirst, hchain, ?_, ?_⟩
  · exact htiling.lexemes rfl Text.not_inComment_nil
  · obtain ⟨front, hfront, hkinds⟩ := htiling.last
    rw [Nat.zero_add] at hfront
    exact ⟨front, hfront, hkinds⟩
  · intro before run after htext hword
    have hmem := Token.mem_scanFrom_of_isWord 0 hword htext
    rw [Nat.zero_add] at hmem
    exact ⟨_, List.mem_append_left _ hmem, rfl, Token.isIdentifier_wordKind run⟩

/-- A text with a comment between tokens and one at its end, a character of two bytes, and a word that begins like a
keyword. -/
theorem tokens_tile_text_of_comments :
    Token.list? "or # and\n\té=org;#x" = some [⟨.keyword .or, 0, 2⟩, ⟨.stray 'é', 10, 2⟩, ⟨.mark .assign, 12, 1⟩,
      ⟨.name "org", 13, 3⟩, ⟨.mark .semicolon, 16, 1⟩, ⟨.finish, 19, 0⟩] ∧
    Token.Tokenizes "or # and\n\té=org;#x".toList [⟨.keyword .or, 0, 2⟩, ⟨.stray 'é', 10, 2⟩, ⟨.mark .assign, 12, 1⟩,
      ⟨.name "org", 13, 3⟩, ⟨.mark .semicolon, 16, 1⟩, ⟨.finish, 19, 0⟩] := by
  obtain ⟨ts, hlist, hts⟩ := tokens_tile_text "or # and\n\té=org;#x" (by decide)
  have heq : Token.list? "or # and\n\té=org;#x" = some [⟨.keyword .or, 0, 2⟩, ⟨.stray 'é', 10, 2⟩,
      ⟨.mark .assign, 12, 1⟩, ⟨.name "org", 13, 3⟩, ⟨.mark .semicolon, 16, 1⟩, ⟨.finish, 19, 0⟩] := by decide +kernel
  obtain rfl := Option.some.inj (hlist.symm.trans heq)
  exact ⟨hlist, hts⟩

end Bitpack
