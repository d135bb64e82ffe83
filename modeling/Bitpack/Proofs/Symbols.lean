import Mathlib
import Bitpack.Proofs.Items
import Bitpack.Proofs.Spelling
import Bitpack.Proofs.Tiling

/-! Linkage symbols can be read back. Methods that are read from a text have names that begin with no digit, so that
their signatures can be spelled, and two of them share a symbol only if they share their signature. -/

namespace Bitpack

section Names

theorem Token.wordKind_eq_name {cs : List Char} {text : String} (h : Token.wordKind cs = .name text) :
    text = String.ofList cs ∧ ∀ c ∈ cs.head?, c.isDigit = false := by
  unfold Token.wordKind at h
  simp only at h
  split_ifs at h with hdigit
  split at h
  · cases h
  · cases h
    refine ⟨rfl, fun c hc => ?_⟩
    obtain hc : cs.head? = some c := hc
    simpa [hc] using hdigit

theorem Token.name_of_scanFrom {pos : ℕ} {cs : List Char} {text : String}
    (h : ∃ t ∈ Token.scanFrom pos cs, t.kind = .name text) :
    text ≠ "" ∧ (∀ c ∈ text.toList.head?, c.isDigit = false) ∧
      Text.byteLength text.toList ≤ Text.byteLength cs := by
  fun_induction Token.scanFrom pos cs with
  | case1 => simp at h
  | case2 pos cs ih =>
    obtain ⟨hne, hhead, hle⟩ := ih h
    have hcut := Text.byteLength_takeWhile_add Token.inComment cs
    exact ⟨hne, hhead, by rw [Text.byteLength_cons]; omega⟩
  | case3 pos c cs _ _ ih =>
    obtain ⟨hne, hhead, hle⟩ := ih h
    exact ⟨hne, hhead, by rw [Text.byteLength_cons]; omega⟩
  | case4 pos c cs _ _ _ word ih =>
    have hcut := Text.byteLength_takeWhile_add Token.isWordChar cs
    obtain ⟨t, ht, hkind⟩ := h
    rcases List.mem_cons.1 ht with rfl | ht
    · obtain ⟨rfl, hdigit⟩ := Token.wordKind_eq_name hkind
      rw [String.toList_ofList]
      refine ⟨by simp [word], hdigit, ?_⟩
      simp only [word, Text.byteLength_cons]
      omega
    · obtain ⟨hne, hhead, hle⟩ := ih ⟨t, ht, hkind⟩
      exact ⟨hne, hhead, by rw [Text.byteLength_cons]; omega⟩
  | case5 pos c cs _ _ _ ih =>
    obtain ⟨t, ht, hkind⟩ := h
    rcases List.mem_cons.1 ht with rfl | ht
    · change Token.charKind c = .name text at hkind
      unfold Token.charKind at hkind
      split at hkind <;> cases hkind
    · obtain ⟨hne, hhead, hle⟩ := ih ⟨t, ht, hkind⟩
      exact ⟨hne, hhead, by rw [Text.byteLength_cons]; omega⟩

theorem Token.isName_of_scan {src text : String} (hsrc : Text.byteLength src.toList < UInt64.size)
    (h : ∃ t ∈ Token.scan src, t.kind = .name text) : Signature.IsName text := by
  obtain ⟨hne, hhead, hle⟩ := Token.name_of_scanFrom h
  exact ⟨hne, hhead, hle.trans_lt hsrc⟩

end Names

section Methods

theorem Clause.cut_tokens_prefix (stops : Kind → Bool) (finish : Token) (ts : List Token) :
    (Clause.cut stops finish ts).1.tokens <+: ts := by
  have h := Clause.cut_prefix stops finish ts
  refine List.prefix_of_prefix_length_le ((List.prefix_append _ _).trans h) (List.prefix_append ts [finish]) ?_
  simpa using h.length_le

theorem Entry.name_of_ofClause {c : Clause} {notes : List Diagnostic} {h : Heading} {block : Option Block}
    (hentry : Entry.ofClause c = .method notes h block) : ∃ t ∈ c.tokens, t.kind = .name h.result.name := by
  unfold Entry.ofClause at hentry
  split at hentry
  · split at hentry <;> cases hentry
  · simp only at hentry
    split at hentry
    · cases hentry
    · rename_i access rest hresult
      split at hentry
      · rename_i heading c' hheading
        obtain ⟨-, rfl, -⟩ := Entry.method.inj hentry
        obtain ⟨-, g, hkinds, hg⟩ := Read.heading_sound hheading
        have hname : .name heading.result.name ∈ rest.map (·.kind) := by
          rw [hkinds, ← hg.result.name]
          simp [Grammar.Signature.kinds, Grammar.Decl.kinds]
        obtain ⟨t, ht, hkind⟩ := List.mem_map.1 hname
        exact ⟨t, (readTags_suffix hresult).subset ht, hkind⟩
      · cases hentry

theorem Entry.name_of_split {finish : Token} {ts : List Token} {notes : List Diagnostic} {h : Heading}
    {block : Option Block} (hmem : Entry.method notes h block ∈ Entry.split finish ts) :
    ∃ t ∈ ts, t.kind = .name h.result.name := by
  have hnamed : ∀ {rest notes' h' block'}, rest <:+ ts →
      Entry.ofClause (Entry.head finish rest).1 = .method notes' h' block' →
      ∃ t ∈ ts, t.kind = .name h'.result.name := by
    intro rest notes' h' block' hrest hentry
    obtain ⟨t, ht, hkind⟩ := Entry.name_of_ofClause hentry
    exact ⟨t, hrest.subset ((Clause.cut_tokens_prefix _ finish rest).subset ht), hkind⟩
  refine Entry.split_forall (Q := fun e => ∀ notes' h' block', e = .method notes' h' block' →
    ∃ t ∈ ts, t.kind = .name h'.result.name) List.IsSuffix.trans ?_ ?_ (List.suffix_refl ts) _ hmem _ _ _ rfl
  · exact fun hrest _ _ _ hentry => hnamed hrest hentry
  · intro rest notes' h' block' hrest hentry
    have hname := hnamed hrest hentry
    exact ⟨by rintro _ _ _ ⟨⟩; exact hname, by rintro _ _ _ ⟨⟩; exact hname⟩

theorem Draft.insert_unit (d : Draft) (m : Method) : (d.insert m).unit.name = d.unit.name ∧
    (d.insert m).unit.bits = d.unit.bits ∧ ∀ m' ∈ (d.insert m).unit.methods, m' ∈ d.unit.methods ∨ m' = m := by
  unfold Draft.insert
  split_ifs
  · exact ⟨rfl, rfl, fun m' hm' => Or.inl hm'⟩
  · exact ⟨rfl, rfl, fun m' hm' => Array.mem_push.1 hm'⟩

theorem Draft.add_unit (d : Draft) (e : Entry) : (d.add e).unit.name = d.unit.name ∧
    (d.add e).unit.bits = d.unit.bits ∧ ∀ m ∈ (d.add e).unit.methods, m ∈ d.unit.methods ∨
      ∃ notes h block, e = .method notes h block ∧ m.name = h.result.name := by
  cases e with
  | imported name span => exact ⟨rfl, rfl, fun m hm => Or.inl hm⟩
  | broken faults => exact ⟨rfl, rfl, fun m hm => Or.inl hm⟩
  | method notes h block =>
    rw [Draft.add]
    simp only
    split
    · rename_i m hm
      obtain ⟨hname, hbits, hmethods⟩ := Draft.insert_unit
        ⟨{ d.unit with vars := (readMethod d.unit.word d.unit.vars h block).vars },
          d.faults ++ notes ++ (readMethod d.unit.word d.unit.vars h block).faults⟩ m
      refine ⟨hname, hbits, fun m' hm' => ?_⟩
      rcases hmethods m' hm' with hm' | rfl
      · exact Or.inl hm'
      · exact Or.inr ⟨notes, h, block, rfl, (readMethod_some hm).1⟩
    · exact ⟨rfl, rfl, fun m hm => Or.inl hm⟩

theorem Draft.addAll_unit (es : List Entry) : ∀ d : Draft, (d.addAll es).unit.name = d.unit.name ∧
    (d.addAll es).unit.bits = d.unit.bits ∧ ∀ m ∈ (d.addAll es).unit.methods, m ∈ d.unit.methods ∨
      ∃ notes h block, .method notes h block ∈ es ∧ m.name = h.result.name := by
  induction es with
  | nil => exact fun d => ⟨rfl, rfl, fun m hm => Or.inl hm⟩
  | cons e es ih =>
    intro d
    rw [Draft.addAll]
    split_ifs
    · exact ⟨rfl, rfl, fun m hm => Or.inl hm⟩
    · obtain ⟨hname, hbits, hmethods⟩ := ih (d.add e)
      obtain ⟨hname', hbits', hmethods'⟩ := d.add_unit e
      refine ⟨hname.trans hname', hbits.trans hbits', fun m hm => ?_⟩
      rcases hmethods m hm with hm | ⟨notes, h, block, hmem, heq⟩
      · rcases hmethods' m hm with hm | ⟨notes, h, block, rfl, heq⟩
        · exact Or.inl hm
        · exact Or.inr ⟨notes, h, block, List.mem_cons_self, heq⟩
      · exact Or.inr ⟨notes, h, block, List.mem_cons_of_mem _ hmem, heq⟩

/-- A text whose unit has a header. -/
def HasHeader (src : String) : Prop :=
  ∃ header rest, Token.scan src = header ++ rest ∧ IsHeader header

theorem SourceUnit.ofText_spellable {w : Word} {src : String} (hsrc : Text.byteLength src.toList < UInt64.size)
    (hheader : HasHeader src) {m : Method} (hm : m ∈ (SourceUnit.ofText w src).1.methods) :
    (Signature.ofMethod (SourceUnit.ofText w src).1 m).Spellable := by
  obtain ⟨header, rest, hscan, hheader⟩ := hheader
  obtain ⟨n, name, hn, ⟨t, ht, hkind⟩, hdraft⟩ := hheader.draft_eq
  have hwf := (SourceUnit.ofText_wellFormed w src).1.methods m hm
  have hword := (SourceUnit.ofText_wellFormed w src).2
  rw [hword] at hwf
  have hbits : w.bits < UInt64.size := w.bits_le.trans_lt (by decide)
  have hempty : src.isEmpty = false := by
    by_contra hempty
    obtain rfl : src = "" := by simpa using hempty
    have hnil : header = [] ∧ rest = [] := by simpa [Token.scan, Token.scanFrom] using hscan.symm
    rw [hnil.1] at ht
    cases ht
  have hunit : (SourceUnit.ofText w src).1 = (Draft.addAll ⟨{ word := w, name, bits := n }, []⟩
      (Entry.split (Token.finishOf src) rest)).unit := by
    rw [SourceUnit.ofText, if_neg (by simp [hempty]), SourceUnit.ofTokens, hscan, hdraft]
  obtain ⟨hname, hsize, hmethods⟩ := Draft.addAll_unit (Entry.split (Token.finishOf src) rest)
    ⟨{ word := w, name, bits := n }, []⟩
  rw [← hunit] at hname hsize hmethods
  refine ⟨?_, ?_, ?_, ?_, hwf.result_le.trans_lt hbits⟩
  · exact (congrArg (· < UInt64.size) hsize).mpr hn
  · change Signature.IsName (SourceUnit.ofText w src).1.name
    rw [hname]
    exact Token.isName_of_scan hsrc ⟨t, by rw [hscan]; exact List.mem_append_left _ ht, hkind⟩
  · rcases hmethods m hm with hm | ⟨notes, h, block, hmem, heq⟩
    · simp at hm
    · change Signature.IsName m.name
      rw [heq]
      obtain ⟨t, ht, hkind⟩ := Entry.name_of_split hmem
      exact Token.isName_of_scan hsrc ⟨t, by rw [hscan]; exact List.mem_append_right _ ht, hkind⟩
  · intro width hwidth
    obtain ⟨id, hid, rfl⟩ := List.mem_map.1 hwidth
    have hle := (hwf.params.within id hid).2
    change ((SourceUnit.ofText w src).1.vars.getD id default).width < UInt64.size
    omega

end Methods

/-- Every signature that can be spelled is read back from its symbol, and the methods of a unit with a header
have such signatures. So two methods have the same symbol only if they have the same signature. -/
theorem linkage_symbols_decode :
    (∀ s : Signature, s.Spellable → Signature.ofSymbol? s.symbol = some s) ∧
    (∀ (w : Word) (src : String), Text.byteLength src.toList < UInt64.size → HasHeader src →
      ∀ m ∈ (SourceUnit.ofText w src).1.methods, (Signature.ofMethod (SourceUnit.ofText w src).1 m).Spellable) ∧
    ∀ s t : Signature, s.Spellable → t.Spellable → s.symbol = t.symbol → s = t := by
  refine ⟨fun s hs => Signature.ofSymbol?_symbol hs, ?_, ?_⟩
  · exact fun w src hsrc hheader m hm => SourceUnit.ofText_spellable hsrc hheader hm
  · intro s t hs ht heq
    have hread := Signature.ofSymbol?_symbol hs
    rw [heq, Signature.ofSymbol?_symbol ht] at hread
    exact (Option.some.inj hread).symm

/-- A method of a text, and a signature whose names look like parts of a symbol. -/
theorem linkage_symbols_decode_of_add :
    (∃ (u : SourceUnit) (m : Method), (SourceUnit.ofText .w64 "object 128 Counter;8 add(4 a,...);").1 = u ∧
      m ∈ u.methods ∧ (Signature.ofMethod u m).Spellable ∧
      (Signature.ofMethod u m).symbol = "_BP128C7CounterM3addP4_VR8" ∧
      Signature.ofSymbol? "_BP128C7CounterM3addP4_VR8" = some (Signature.ofMethod u m)) ∧
    (⟨0, "C1M2", "é9P", [1, UInt64.size - 1], true, 64⟩ : Signature).Spellable ∧
    Signature.ofSymbol? "_BP0C4C1M2M4é9PP1_18446744073709551615_VR64" =
      some ⟨0, "C1M2", "é9P", [1, UInt64.size - 1], true, 64⟩ := by
  obtain ⟨hdecode, hmethods, -⟩ := linkage_symbols_decode
  constructor
  · let u := (SourceUnit.ofText .w64 "object 128 Counter;8 add(4 a,...);").1
    have hmethod : (u.methods[0]?.map fun m => (Signature.ofMethod u m).symbol) =
        some "_BP128C7CounterM3addP4_VR8" := by decide +kernel
    obtain ⟨m, hm, hsymbol⟩ := Option.map_eq_some_iff.1 hmethod
    have hmem : m ∈ u.methods := Array.mem_of_getElem? hm
    have hheader : HasHeader "object 128 Counter;8 add(4 a,...);" := by
      refine ⟨_, _, (List.take_append_drop 4 _).symm, "128", "Counter", ?_, ?_⟩
      · decide +kernel
      · decide +kernel
    have hspellable := hmethods .w64 _ (by decide +kernel) hheader m hmem
    refine ⟨u, m, rfl, hmem, hspellable, hsymbol, ?_⟩
    rw [← hsymbol]
    exact hdecode _ hspellable
  · have hspellable : (⟨0, "C1M2", "é9P", [1, UInt64.size - 1], true, 64⟩ : Signature).Spellable :=
      ⟨by decide, ⟨by decide, by rintro c ⟨⟩; rfl, by decide +kernel⟩,
        ⟨by decide, by rintro c ⟨⟩; rfl, by decide +kernel⟩, by decide, by decide⟩
    have hsymbol : (⟨0, "C1M2", "é9P", [1, UInt64.size - 1], true, 64⟩ : Signature).symbol =
        "_BP0C4C1M2M4é9PP1_18446744073709551615_VR64" := by decide +kernel
    refine ⟨hspellable, ?_⟩
    rw [← hsymbol]
    exact hdecode _ hspellable

end Bitpack
