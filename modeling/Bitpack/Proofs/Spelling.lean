import Mathlib
import Bitpack.Signature

/-! Which symbols can be read. A spelling is a symbol cut into its parts, with every number as it is written, and
a symbol can be read exactly if it has a spelling. Numbers may be written with zeros in front. Without them the
symbol that is read is the symbol of its signature, and with them it is a longer one. -/

namespace Bitpack

/-- A number as it is written: at least one digit, and a value that fits in 64 bits. -/
@[ext] structure Numeral where
  digits : List Char
  ne_nil : digits ≠ []
  isDigit : ∀ c ∈ digits, c.isDigit = true
  value_lt : Text.decimalValue digits < UInt64.size

namespace Numeral

def value (n : Numeral) : ℕ :=
  Text.decimalValue n.digits

/-- No zero stands in front of another digit. -/
def Plain (n : Numeral) : Prop :=
  n.digits.head? = some '0' → n.digits = ['0']

instance : DecidablePred Plain := fun n =>
  inferInstanceAs (Decidable (n.digits.head? = some '0' → n.digits = ['0']))

theorem decimalValue_decimal (n : ℕ) : Text.decimalValue (Signature.decimal n) = n :=
  Nat.ofDigitChars_eq_foldl.symm.trans Nat.ofDigitChars_ten_toDigits

/-- A number written without zeros in front. -/
def ofNat (n : ℕ) (h : n < UInt64.size) : Numeral where
  digits := Signature.decimal n
  ne_nil := Nat.toDigits_ne_nil
  isDigit _ hc := Nat.isDigit_of_mem_toDigits (by decide) (by decide) hc
  value_lt := (decimalValue_decimal n).symm ▸ h

@[simp] theorem ofNat_value {n : ℕ} (h : n < UInt64.size) : (ofNat n h).value = n :=
  decimalValue_decimal n

section Decimals

theorem digitChar_of_isDigit {c : Char} (hc : c.isDigit = true) :
    c.toNat - '0'.toNat < 10 ∧ Nat.digitChar (c.toNat - '0'.toNat) = c := by
  obtain ⟨hlo, hhi⟩ : '0'.toNat ≤ c.toNat ∧ c.toNat ≤ '0'.toNat + 9 := by
    simpa [Char.isDigit, UInt32.le_iff_toNat_le] using hc
  have hlt : c.toNat - '0'.toNat < 10 := by omega
  refine ⟨hlt, Char.toNat_inj.1 ?_⟩
  rw [Nat.toNat_digitChar_of_lt_ten hlt]
  change '0'.toNat + (c.toNat - '0'.toNat) = c.toNat
  omega

theorem toDigits_foldl {cs : List Char} (hcs : ∀ c ∈ cs, c.isDigit = true) : ∀ {a : ℕ}, 0 < a →
    Nat.toDigits 10 (cs.foldl (fun n c => 10 * n + (c.toNat - '0'.toNat)) a) = Nat.toDigits 10 a ++ cs := by
  induction cs with
  | nil => simp
  | cons c cs ih =>
    intro a ha
    obtain ⟨hc, hcs⟩ := List.forall_mem_cons.1 hcs
    obtain ⟨hlt, hchar⟩ := digitChar_of_isDigit hc
    have hnext := Nat.toDigits_append_toDigits (b := 10) (by decide) ha hlt
    rw [Nat.toDigits_of_lt_base hlt, hchar] at hnext
    rw [List.foldl_cons, ih hcs (by omega), ← hnext, List.append_assoc]
    rfl

theorem decimal_of_head {c : Char} {cs : List Char} (hc : c ≠ '0') (hcs : ∀ d ∈ c :: cs, d.isDigit = true) :
    Signature.decimal (Text.decimalValue (c :: cs)) = c :: cs := by
  obtain ⟨hdigit, hcs⟩ := List.forall_mem_cons.1 hcs
  obtain ⟨hlt, hchar⟩ := digitChar_of_isDigit hdigit
  have hpos : 0 < c.toNat - '0'.toNat := by
    by_contra hzero
    rw [Nat.eq_zero_of_not_pos hzero] at hchar
    exact hc hchar.symm
  have hvalue : Text.decimalValue (c :: cs) =
      cs.foldl (fun n c => 10 * n + (c.toNat - '0'.toNat)) (c.toNat - '0'.toNat) := by
    simp [Text.decimalValue]
  rw [Signature.decimal, hvalue, toDigits_foldl hcs hpos, Nat.toDigits_of_lt_base hlt, hchar]
  rfl

theorem length_decimal_le {cs : List Char} (hne : cs ≠ []) (hcs : ∀ c ∈ cs, c.isDigit = true) :
    (Signature.decimal (Text.decimalValue cs)).length ≤ cs.length := by
  induction cs with
  | nil => exact absurd rfl hne
  | cons c cs ih =>
    by_cases hc : c = '0'
    · subst hc
      change (Signature.decimal (Text.decimalValue cs)).length ≤ cs.length + 1
      rcases eq_or_ne cs [] with rfl | hcs'
      · rfl
      · exact (ih hcs' (List.forall_mem_cons.1 hcs).2).trans (Nat.le_succ _)
    · rw [decimal_of_head hc hcs]

end Decimals

/-- The same number, without zeros in front. -/
def plain (n : Numeral) : Numeral :=
  ofNat n.value n.value_lt

theorem length_plain_le (n : Numeral) : n.plain.digits.length ≤ n.digits.length :=
  length_decimal_le n.ne_nil n.isDigit

theorem Plain.eq {n : Numeral} (h : n.Plain) : n.plain = n := by
  have hdigits := n.isDigit
  apply Numeral.ext
  change Signature.decimal (Text.decimalValue n.digits) = n.digits
  obtain ⟨c, cs, hn⟩ := List.exists_cons_of_ne_nil n.ne_nil
  by_cases hc : c = '0'
  · rw [h (by rw [hn, hc]; rfl)]
    decide
  · rw [hn] at hdigits ⊢
    exact decimal_of_head hc hdigits

theorem length_plain_lt {n : Numeral} (h : ¬ n.Plain) : n.plain.digits.length < n.digits.length := by
  obtain ⟨digits, hne, hdigits, hlt⟩ := n
  obtain ⟨hzero, hmore⟩ := Classical.not_imp.1 h
  obtain ⟨cs, rfl⟩ := List.head?_eq_some_iff.1 hzero
  have hcs : cs ≠ [] := fun hnil => hmore (congrArg ('0' :: ·) hnil)
  exact Nat.lt_succ_of_le (length_decimal_le hcs (List.forall_mem_cons.1 hdigits).2)

end Numeral

namespace Signature

/-- A name whose length can be told from it: it has a character, begins with no digit, and its length fits
in 64 bits. -/
structure IsName (name : String) : Prop where
  ne_empty : name ≠ ""
  head : ∀ c ∈ name.toList.head?, c.isDigit = false
  length : Text.byteLength name.toList < UInt64.size

/-- All numbers of the signature fit in 64 bits, and its names can be told from their lengths. -/
structure Spellable (s : Signature) : Prop where
  objectBits : s.objectBits < UInt64.size
  className : IsName s.className
  method : IsName s.method
  params : ∀ w ∈ s.params, w < UInt64.size
  result : s.result < UInt64.size

/-- A name as it is written, after its length. -/
structure Label where
  length : Numeral
  name : String
  isName : IsName name
  length_eq : length.value = Text.byteLength name.toList

def Label.text (l : Label) : List Char :=
  l.length.digits ++ l.name.toList

section Parts

/-- What follows a number and is no part of it. -/
def EndsNumber (rest : List Char) : Prop :=
  ∀ c ∈ rest.head?, c.isDigit = false

variable {cs rest : List Char}

theorem EndsNumber.takeWhile_append (h : EndsNumber rest) (n : Numeral) :
    (n.digits ++ rest).takeWhile Char.isDigit = n.digits ∧ (n.digits ++ rest).dropWhile Char.isDigit = rest := by
  rw [List.takeWhile_append_of_pos n.isDigit, List.dropWhile_append_of_pos n.isDigit]
  cases rest with
  | nil => simp
  | cons c rest => simp [h c rfl]

theorem endsNumber_dropWhile (cs : List Char) : EndsNumber (cs.dropWhile Char.isDigit) := by
  intro c hc
  have hhead := List.head?_dropWhile_not Char.isDigit cs
  rw [show (cs.dropWhile Char.isDigit).head? = some c from hc] at hhead
  simpa using hhead

theorem takeNumber?_eq_some_iff {v : ℕ} : takeNumber? cs = some (v, rest) ↔
    ∃ n : Numeral, n.digits ++ rest = cs ∧ n.value = v ∧ EndsNumber rest := by
  unfold takeNumber? Text.ofDecimal?
  constructor
  · intro h
    split_ifs at h with hdigits
    · simp only [Bool.and_eq_true, Bool.not_eq_true', List.isEmpty_eq_false_iff, decide_eq_true_eq] at hdigits
      obtain ⟨⟨hne, hall⟩, hlt⟩ := hdigits
      obtain ⟨rfl, rfl⟩ := Prod.mk.inj (Option.some.inj h)
      exact ⟨⟨_, hne, List.all_eq_true.1 hall, hlt⟩, List.takeWhile_append_dropWhile, rfl, endsNumber_dropWhile cs⟩
    · cases h
  · rintro ⟨n, rfl, rfl, hrest⟩
    obtain ⟨htake, hdrop⟩ := hrest.takeWhile_append n
    rw [htake, hdrop, if_pos]
    · rfl
    · simpa using ⟨⟨n.ne_nil, n.isDigit⟩, n.value_lt⟩

theorem takeName?_eq_some_iff {name : String} : takeName? cs = some (name, rest) ↔
    ∃ l : Label, l.text ++ rest = cs ∧ l.name = name := by
  unfold takeName?
  simp only [Option.bind_eq_bind, Option.bind_eq_some_iff, Prod.exists, takeNumber?_eq_some_iff]
  constructor
  · rintro ⟨v, tail, ⟨n, rfl, rfl, htail⟩, chars, others, hsplit, hname⟩
    obtain ⟨rfl, hlength⟩ := Text.splitBytes?_eq_some hsplit
    split_ifs at hname with hempty
    obtain ⟨rfl, rfl⟩ := Prod.mk.inj (Option.some.inj hname)
    have hne : chars ≠ [] := by simpa using hempty
    refine ⟨⟨n, String.ofList chars, ⟨by simpa using hne, fun c hc => ?_, ?_⟩, ?_⟩, ?_, rfl⟩
    · rw [String.toList_ofList] at hc
      exact htail c (by rwa [List.head?_append_of_ne_nil _ hne])
    · rw [String.toList_ofList, hlength]
      exact n.value_lt
    · rw [String.toList_ofList, hlength]
    · simp [Label.text]
  · rintro ⟨⟨n, name, hname, hlength⟩, rfl, rfl⟩
    have hne : name.toList ≠ [] := mt String.toList_eq_nil_iff.1 hname.ne_empty
    refine ⟨n.value, name.toList ++ rest, ⟨n, by simp [Label.text], rfl, fun c hc => ?_⟩, name.toList, rest, ?_, ?_⟩
    · rw [List.head?_append_of_ne_nil _ hne] at hc
      exact hname.head c hc
    · rw [hlength]
      exact Text.splitBytes?_append name.toList rest
    · simp [hname.ne_empty]

theorem takeWidths?_eq_some_iff {ws : List ℕ} : takeWidths? cs = some (ws, rest) ↔
    ∃ ns : List Numeral, ns.flatMap (fun n => n.digits ++ ['_']) ++ rest = cs ∧ ns.map Numeral.value = ws ∧
      EndsNumber rest := by
  have hdigit : ∀ n : Numeral, ∀ others, (n.digits ++ others).head?.any Char.isDigit = true := by
    intro n others
    obtain ⟨c, digits, hcs⟩ := List.exists_cons_of_ne_nil n.ne_nil
    have hc : c.isDigit = true := n.isDigit c (by simp [hcs])
    simp [hcs, hc]
  constructor
  · intro h
    fun_induction takeWidths? cs generalizing ws with
    | case1 cs hhead v others hnumber hlt ih =>
      obtain ⟨⟨vs, last⟩, hrest, hpair⟩ := Option.map_eq_some_iff.1 h
      obtain ⟨rfl, rfl⟩ := Prod.mk.inj hpair
      obtain ⟨n, rfl, rfl, -⟩ := takeNumber?_eq_some_iff.1 hnumber
      obtain ⟨ns, rfl, rfl, hends⟩ := ih hrest
      exact ⟨n :: ns, by simp, rfl, hends⟩
    | case2 => cases h
    | case3 cs hhead =>
      obtain ⟨rfl, rfl⟩ := Prod.mk.inj (Option.some.inj h)
      refine ⟨[], rfl, rfl, fun c hc => ?_⟩
      rw [show cs.head? = some c from hc] at hhead
      simpa using hhead
  · rintro ⟨ns, rfl, rfl, hends⟩
    induction ns with
    | nil =>
      have hhead : rest.head?.any Char.isDigit = false := by
        cases rest with
        | nil => rfl
        | cons c rest => exact hends c rfl
      rw [List.flatMap_nil, List.nil_append, takeWidths?, hhead]
      rfl
    | cons n ns ih =>
      have htext : (n :: ns).flatMap (fun n => n.digits ++ ['_']) ++ rest =
          n.digits ++ '_' :: (ns.flatMap (fun n => n.digits ++ ['_']) ++ rest) := by simp
      have hnumber : ∀ others, takeNumber? (n.digits ++ '_' :: others) = some (n.value, '_' :: others) :=
        fun others => takeNumber?_eq_some_iff.2 ⟨n, rfl, rfl, by rintro c ⟨⟩; rfl⟩
      rw [htext, takeWidths?, if_pos (hdigit n _)]
      split
      · rename_i v others hothers
        rw [hnumber] at hothers
        cases hothers
        rw [ih]
        rfl
      · rename_i hother
        exact absurd (hnumber _) (hother _ _)

theorem takeChar?_eq_some_iff {c : Char} : takeChar? c cs = some rest ↔ cs = c :: rest := by
  cases cs with
  | nil => simp [takeChar?]
  | cons d cs =>
    rw [takeChar?]
    split_ifs with h
    · simp [h]
    · simp [h]

end Parts

/-- A symbol in its parts. -/
structure Spelling where
  objectBits : Numeral
  className : Label
  method : Label
  params : List Numeral
  variadic : Bool
  result : Numeral

namespace Spelling

def text (p : Spelling) : List Char :=
  '_' :: 'B' :: 'P' :: (p.objectBits.digits ++ 'C' :: (p.className.text ++ 'M' :: (p.method.text ++
    'P' :: (p.params.flatMap (fun n => n.digits ++ ['_']) ++ ((if p.variadic then ['V'] else []) ++
      'R' :: p.result.digits)))))

def signature (p : Spelling) : Signature where
  objectBits := p.objectBits.value
  className := p.className.name
  method := p.method.name
  params := p.params.map Numeral.value
  variadic := p.variadic
  result := p.result.value

def numerals (p : Spelling) : List Numeral :=
  p.objectBits :: p.className.length :: p.method.length :: p.result :: p.params

/-- No number has a zero in front of another digit. -/
def Plain (p : Spelling) : Prop :=
  ∀ n ∈ p.numerals, n.Plain

instance : DecidablePred Plain := fun p =>
  inferInstanceAs (Decidable (∀ n ∈ p.numerals, n.Plain))

end Spelling

theorem ofSymbol?_eq_some_iff {symbol : String} {s : Signature} : ofSymbol? symbol = some s ↔
    ∃ p : Spelling, p.text = symbol.toList ∧ p.signature = s := by
  unfold ofSymbol?
  simp only [Option.bind_eq_bind, Option.bind_eq_some_iff, Prod.exists]
  constructor
  · rintro ⟨cs₁, h₁, cs₂, h₂, cs₃, h₃, bits, cs₄, hbits, cs₅, h₅, className, cs₆, hclass, cs₇, h₇, method, cs₈, hmethod,
      cs₉, h₉, widths, cs₁₀, hwidths, cs₁₁, h₁₁, result, cs₁₂, hresult, hs⟩
    obtain ⟨bits, rfl, rfl, -⟩ := takeNumber?_eq_some_iff.1 hbits
    obtain ⟨className, rfl, rfl⟩ := takeName?_eq_some_iff.1 hclass
    obtain ⟨method, rfl, rfl⟩ := takeName?_eq_some_iff.1 hmethod
    obtain ⟨widths, rfl, rfl, -⟩ := takeWidths?_eq_some_iff.1 hwidths
    obtain ⟨result, rfl, rfl, -⟩ := takeNumber?_eq_some_iff.1 hresult
    split_ifs at hs with hend
    obtain rfl := List.isEmpty_iff.1 hend
    rw [takeChar?_eq_some_iff] at h₁ h₂ h₃ h₅ h₇ h₉ h₁₁
    cases hv : takeChar? 'V' cs₁₀ with
    | none =>
      rw [hv] at h₁₁ hs
      refine ⟨⟨bits, className, method, widths, false, result⟩, ?_, Option.some.inj hs⟩
      simp_all [Spelling.text]
    | some cs =>
      rw [hv] at h₁₁ hs
      rw [takeChar?_eq_some_iff] at hv
      refine ⟨⟨bits, className, method, widths, true, result⟩, ?_, Option.some.inj hs⟩
      simp_all [Spelling.text]
  · rintro ⟨⟨bits, className, method, widths, variadic, result⟩, htext, rfl⟩
    have hletter : ∀ (c : Char) rest, c.isDigit = false → EndsNumber (c :: rest) := by
      rintro c rest hc d ⟨⟩
      exact hc
    refine ⟨_, by rw [← htext]; rfl, _, rfl, _, rfl, _, _, takeNumber?_eq_some_iff.2 ⟨bits, rfl, rfl, hletter _ _ rfl⟩,
      _, rfl, _, _, takeName?_eq_some_iff.2 ⟨className, rfl, rfl⟩, _, rfl, _, _,
      takeName?_eq_some_iff.2 ⟨method, rfl, rfl⟩, _, rfl, _, _,
      takeWidths?_eq_some_iff.2 ⟨widths, rfl, rfl, ?_⟩, ?_⟩
    · cases variadic <;> exact hletter _ _ rfl
    · have hresult : takeNumber? result.digits = some (result.value, []) :=
        takeNumber?_eq_some_iff.2 ⟨result, by simp, rfl, by rintro c ⟨⟩⟩
      cases variadic <;> exact ⟨_, rfl, _, _, hresult, rfl⟩

theorem Spelling.spellable (p : Spelling) : p.signature.Spellable where
  objectBits := p.objectBits.value_lt
  className := p.className.isName
  method := p.method.isName
  params := by
    intro w hw
    obtain ⟨n, -, rfl⟩ := List.mem_map.1 hw
    exact n.value_lt
  result := p.result.value_lt

section Symbols

/-- A name after its length, which is written without zeros in front. -/
def IsName.label {name : String} (h : IsName name) : Label :=
  ⟨.ofNat _ h.length, name, h, Numeral.ofNat_value _⟩

/-- How the symbol of a signature spells it. -/
def Spellable.spelling {s : Signature} (h : s.Spellable) : Spelling where
  objectBits := .ofNat s.objectBits h.objectBits
  className := h.className.label
  method := h.method.label
  params := s.params.attach.map fun w => .ofNat w.1 (h.params w.1 w.2)
  variadic := s.variadic
  result := .ofNat s.result h.result

variable {s : Signature} (h : s.Spellable)

theorem Spellable.text_spelling : h.spelling.text = s.symbol.toList := by
  have hparams : h.spelling.params.flatMap (fun n => n.digits ++ ['_']) =
      s.params.flatMap fun w => decimal w ++ ['_'] := by
    rw [spelling, List.flatMap_map]
    have hval := List.flatMap_map Subtype.val (fun w => decimal w ++ ['_']) s.params.attach
    rw [List.attach_map_subtype_val] at hval
    exact hval.symm
  rw [Spelling.text, hparams, symbol, spell, String.toList_ofList]
  simp [spelling, Label.text, IsName.label, Numeral.ofNat, spellName]
  rfl

theorem Spellable.signature_spelling : h.spelling.signature = s := by
  have hparams : h.spelling.params.map Numeral.value = s.params := by
    rw [spelling, List.map_map]
    exact (List.map_congr_left fun w _ => Numeral.ofNat_value _).trans s.params.attach_map_subtype_val
  rw [Spelling.signature, hparams]
  simp [spelling, IsName.label]

theorem ofSymbol?_symbol {s : Signature} (hs : s.Spellable) : ofSymbol? s.symbol = some s :=
  ofSymbol?_eq_some_iff.2 ⟨hs.spelling, hs.text_spelling, hs.signature_spelling⟩

end Symbols

namespace Spelling

/-- The same symbol, without zeros in front of numbers. -/
def plain (p : Spelling) : Spelling :=
  p.spellable.spelling

theorem plain_params (p : Spelling) : p.plain.params = p.params.map Numeral.plain := by
  change p.signature.params.attach.map (fun w => Numeral.ofNat w.1 (p.spellable.params w.1 w.2)) = _
  apply List.ext_getElem
  · simp [signature]
  · intro i hi hi'
    simp [signature, Numeral.plain]

theorem Label.length_plain (l : Label) : l.isName.label.length = l.length.plain :=
  Numeral.ext (congrArg decimal l.length_eq.symm)

theorem numerals_plain (p : Spelling) : p.plain.numerals = p.numerals.map Numeral.plain := by
  simp only [numerals, plain_params, List.map_cons]
  rw [← Label.length_plain, ← Label.length_plain]
  rfl

theorem length_text (p : Spelling) : p.text.length = (p.numerals.map (·.digits.length)).sum +
    (p.signature.className.length + p.signature.method.length + p.signature.params.length +
      p.signature.variadic.toNat + 7) := by
  have hvariadic : (if p.variadic then ['V'] else []).length = p.variadic.toNat := by cases p.variadic <;> rfl
  have hparams : (p.params.flatMap fun n => n.digits ++ ['_']).length =
      (p.params.map (·.digits.length)).sum + p.params.length := by
    generalize p.params = ns
    induction ns with
    | nil => rfl
    | cons n ns ih =>
      rw [List.flatMap_cons, List.length_append, ih]
      simp
      omega
  simp only [text, numerals, Label.text, List.length_cons, List.length_append, hparams, hvariadic, signature,
    List.length_map, List.map_cons, List.sum_cons, String.length_toList]
  omega

theorem Plain.eq {p : Spelling} (h : p.Plain) : p.plain.text = p.text := by
  have hlabel : ∀ l : Label, l.length ∈ p.numerals → l.isName.label.text = l.text := by
    intro l hl
    rw [Label.text, Label.length_plain, (h _ hl).eq]
    rfl
  have hparams : p.plain.params = p.params := by
    rw [plain_params]
    exact (List.map_congr_left fun n hn => (h n (by simp [numerals, hn])).eq).trans p.params.map_id'
  have hbits : p.plain.objectBits = p.objectBits := (h p.objectBits (by simp [numerals])).eq
  have hresult : p.plain.result = p.result := (h p.result (by simp [numerals])).eq
  have hclass : p.plain.className.text = p.className.text := hlabel p.className (by simp [numerals])
  have hmethod : p.plain.method.text = p.method.text := hlabel p.method (by simp [numerals])
  rw [text, hbits, hclass, hmethod, hparams, hresult]
  rfl

theorem symbol_eq_iff (p : Spelling) : p.signature.symbol.toList = p.text ↔ p.Plain := by
  rw [← p.spellable.text_spelling]
  change p.plain.text = p.text ↔ p.Plain
  refine ⟨fun heq => ?_, Plain.eq⟩
  by_contra hzeros
  obtain ⟨n, hn, hzero⟩ : ∃ n ∈ p.numerals, ¬ n.Plain := by simpa [Plain] using hzeros
  have hlt : (p.numerals.map (·.plain.digits.length)).sum < (p.numerals.map (·.digits.length)).sum :=
    List.sum_lt_sum _ _ (fun n _ => n.length_plain_le) ⟨n, hn, Numeral.length_plain_lt hzero⟩
  have hlength := congrArg List.length heq
  rw [length_text, length_text, numerals_plain, List.map_map,
    show p.plain.signature = p.signature from p.spellable.signature_spelling] at hlength
  exact absurd (Nat.add_right_cancel hlength) hlt.ne

end Spelling
end Signature

/-- A symbol is read exactly if it can be spelled, and as the signature of its spelling. It is the symbol of that
signature exactly if no number in it has a zero in front of another digit. So among symbols without such zeros no two
are read as the same signature. -/
theorem symbols_read_as_spelled (symbol : String) (s : Signature) :
    (Signature.ofSymbol? symbol = some s ↔ ∃ p : Signature.Spelling, p.text = symbol.toList ∧ p.signature = s) ∧
    ∀ p : Signature.Spelling, p.text = symbol.toList → p.signature = s →
      (s.symbol = symbol ↔ p.Plain) ∧
      ∀ q : Signature.Spelling, p.Plain → q.Plain → q.signature = s → q.text = symbol.toList := by
  refine ⟨Signature.ofSymbol?_eq_some_iff, ?_⟩
  rintro p hp rfl
  refine ⟨?_, fun q hplain hq hsame => ?_⟩
  · rw [← p.symbol_eq_iff, hp, String.toList_inj]
  · calc q.text = q.signature.symbol.toList := (q.symbol_eq_iff.2 hq).symm
      _ = p.signature.symbol.toList := by rw [hsame]
      _ = p.text := p.symbol_eq_iff.2 hplain
      _ = symbol.toList := hp

/-- One signature, spelled without zeros in front and with them; the first is the only spelling without them. -/
theorem symbols_read_as_spelled_of_zeros : ∃ p q : Signature.Spelling,
    p.text = "_BP8C1AM2f0P10_VR0".toList ∧ q.text = "_BP08C1AM02f0P010_VR00".toList ∧
    p.signature = q.signature ∧ p.Plain ∧ ¬ q.Plain ∧ q.plain.text = p.text := by
  obtain ⟨hread, hplain⟩ := symbols_read_as_spelled "_BP8C1AM2f0P10_VR0" ⟨8, "A", "f0", [10], true, 0⟩
  obtain ⟨hread', hplain'⟩ := symbols_read_as_spelled "_BP08C1AM02f0P010_VR00" ⟨8, "A", "f0", [10], true, 0⟩
  obtain ⟨p, hp, hsignature⟩ := hread.1 (by decide +kernel)
  obtain ⟨q, hq, hsame⟩ := hread'.1 (by decide +kernel)
  obtain ⟨hiff, hunique⟩ := hplain p hp hsignature
  have hp' : p.Plain := hiff.1 (by decide +kernel)
  have hq' : ¬ q.Plain := (hplain' q hq hsame).1.not.1 (by decide +kernel)
  have hzeros : q.plain.signature = q.signature := q.spellable.signature_spelling
  refine ⟨p, q, hp, hq, hsignature.trans hsame.symm, hp', hq', ?_⟩
  rw [hp]
  refine hunique q.plain hp' (q.plain.symbol_eq_iff.1 ?_) (hzeros.trans hsame)
  rw [hzeros]
  exact q.spellable.text_spelling.symm

/-- A zero in front of the size of the object is read over, and the symbol is none that a signature has. -/
theorem zero_in_front_is_read :
    Signature.ofSymbol? "_BP08C1AM1fPR8" = some ⟨8, "A", "f", [], false, 8⟩ ∧
    (⟨8, "A", "f", [], false, 8⟩ : Signature).symbol = "_BP8C1AM1fPR8" ∧
    ¬ ∀ (symbol : String) (s : Signature), Signature.ofSymbol? symbol = some s → s.symbol = symbol := by
  have hread : Signature.ofSymbol? "_BP08C1AM1fPR8" = some ⟨8, "A", "f", [], false, 8⟩ := by decide +kernel
  have hsymbol : (⟨8, "A", "f", [], false, 8⟩ : Signature).symbol = "_BP8C1AM1fPR8" := by decide +kernel
  refine ⟨hread, hsymbol, fun hall => ?_⟩
  exact absurd (hsymbol.symm.trans (hall _ _ hread)) (by decide)

end Bitpack
