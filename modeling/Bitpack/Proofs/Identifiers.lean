import Mathlib
import Bitpack.Proofs.Bodies
import Bitpack.Proofs.Declarations

/-! The C names of methods. A name is that of the object and that of the method with an underscore in between, so
methods of one object never share one; and of the names that have another meaning in the output only those with an
underscore can be met, those of the word types. -/

namespace Bitpack

open C (Expr)

namespace C

/-- The names that have a meaning in every output. -/
inductive Reserved : String → Prop
  | word : Reserved "Bitpack_t"
  | type (w : Word) : Reserved (wordType w)
  | print : Reserved "printf"
  | object : Reserved "self"
  | bank (bank : Bank) : Reserved bank.text
  | result (w : Word) : Reserved (Expr.result.text w)
  | temp (w : Word) (index : ℕ) : Reserved ((Expr.temp index).text w)

theorem underscore_not_mem_numbered (word : String) (h : '_' ∉ word.toList) (n : ℕ) :
    '_' ∉ (word ++ toString n).toList := by
  rw [String.toList_append, List.mem_append, not_or]
  exact ⟨h, by simp⟩

theorem Reserved.cases_underscore {name : String} (h : Reserved name) :
    (∃ type ∈ ["Bitpack", "uint32", "uint64"], name = type ++ "_" ++ "t") ∨ '_' ∉ name.toList := by
  cases h with
  | word => exact .inl ⟨"Bitpack", by decide, rfl⟩
  | type w =>
    cases w with
    | w32 => exact .inl ⟨"uint32", by decide, rfl⟩
    | w64 => exact .inl ⟨"uint64", by decide, rfl⟩
  | print | object => exact .inr (by decide)
  | result w => exact .inr ((by decide : '_' ∉ "ret".toList))
  | bank bank =>
    cases bank with
    | params | locals => exact .inr (by decide)
    | args index => exact .inr (underscore_not_mem_numbered "args" (by decide) index)
  | temp w index => exact .inr (underscore_not_mem_numbered "t" (by decide) index)

end C

theorem reserved_functionName_iff {u : SourceUnit} {m : Method} : C.Reserved (Lower.functionName u m) ↔
    u.name ∈ ["Bitpack", "uint32", "uint64"] ∧ m.name = "t" := by
  constructor
  · intro h
    rcases h.cases_underscore with ⟨type, htype, hname⟩ | hnone
    · have hsplit : type.toList ++ '_' :: "t".toList = u.name.toList ++ '_' :: m.name.toList := by
        simpa [Lower.functionName, String.ext_iff] using hname.symm
      have hnone : ∀ type ∈ ["Bitpack", "uint32", "uint64"], '_' ∉ type.toList := by decide
      obtain ⟨hleft, -, hright⟩ := (List.append_cons_inj_of_notMem (hnone type htype) (by decide)).1 hsplit
      rw [← String.toList_inj.1 hleft]
      exact ⟨htype, (String.toList_inj.1 hright).symm⟩
    · exact absurd (by simp [Lower.functionName]) hnone
  · rintro ⟨hname, ht⟩
    unfold Lower.functionName
    rw [ht]
    simp only [List.mem_cons, List.not_mem_nil, or_false] at hname
    rcases hname with h | h | h
    · rw [h]
      exact .word
    · rw [h]
      exact .type .w32
    · rw [h]
      exact .type .w64

theorem SourceUnit.WellFormed.functionNames_nodup {u : SourceUnit} (hu : u.WellFormed) :
    (u.methods.toList.map (Lower.functionName u)).Nodup :=
  hu.names.of_map.map_on fun _ hm _ hm' h =>
    hu.eq_of_functionName (Array.mem_toList_iff.1 hm) (Array.mem_toList_iff.1 hm') h

/-- The C names of the methods of a unit differ from each other. One of them has another meaning in the output if,
and only if, it is that of a method `t` of an object with the name of a word type. -/
theorem function_name_clashes_iff (w : Word) (src : String) {u : SourceUnit} (hu : (SourceUnit.ofText w src).1 = u) :
    (u.generate w).1 = u.lower.1.text ∧
    u.lower.1.prototypes.map (·.name) = u.visibleMethods.map (Lower.functionName u) ∧
    (u.methods.toList.map (Lower.functionName u)).Nodup ∧
    ∀ m ∈ u.methods, C.Reserved (Lower.functionName u m) ↔
      u.name ∈ ["Bitpack", "uint32", "uint64"] ∧ m.name = "t" := by
  obtain ⟨hwf, hword⟩ := SourceUnit.ofText_wellFormed w src
  rw [hu] at hwf hword
  refine ⟨by rw [SourceUnit.generate, if_pos hword], ?_, hwf.functionNames_nodup, fun _ _ => reserved_functionName_iff⟩
  exact List.map_map

/-- Of two methods only the one whose name completes that of a type. -/
theorem function_name_clashes_iff_of_type :
    ∃ u m m', (SourceUnit.ofText .w64 "object 8 uint32;8 t(){}8 u(){}").1 = u ∧ m ∈ u.methods ∧ m' ∈ u.methods ∧
      C.Reserved (Lower.functionName u m) ∧ ¬ C.Reserved (Lower.functionName u m') := by
  let u := (SourceUnit.ofText .w64 "object 8 uint32;8 t(){}8 u(){}").1
  have h : (u.methods[0]?.bind fun m => u.methods[1]?.map fun m' =>
      decide (u.name = "uint32" ∧ m.name = "t" ∧ m'.name = "u")) = some true := by
    decide +kernel
  obtain ⟨m, hm, h⟩ := Option.bind_eq_some_iff.1 h
  obtain ⟨m', hm', h⟩ := Option.map_eq_some_iff.1 h
  obtain ⟨hobject, ht, hu⟩ := of_decide_eq_true h
  have hm := Array.mem_of_getElem? hm
  have hm' := Array.mem_of_getElem? hm'
  obtain ⟨-, -, -, hclash⟩ := function_name_clashes_iff .w64 _ (u := u) rfl
  refine ⟨u, m, m', rfl, hm, hm', (hclash m hm).2 ⟨by rw [hobject]; decide, ht⟩, fun h => ?_⟩
  exact absurd (hu.symm.trans ((hclash m' hm').1 h).2) (by decide)

/-- An accepted unit whose one function has the name of the word type. -/
theorem function_named_like_word_type :
    ∃ c, compile .w64 "object 8 Bitpack;8 t(){}" = .ok c ∧ c.faults = [] ∧
      c.unit.lower.1.prototypes.map (·.name) = ["Bitpack_t"] ∧ C.Reserved "Bitpack_t" := by
  have h : ((compile .w64 "object 8 Bitpack;8 t(){}").toOption.map fun c =>
      decide (c.faults = [] ∧ c.unit.lower.1.prototypes.map (·.name) = ["Bitpack_t"])) = some true := by
    decide +kernel
  obtain ⟨c, hc, h⟩ := Option.map_eq_some_iff.1 h
  obtain ⟨hfaults, hnames⟩ := of_decide_eq_true h
  exact ⟨c, compile_of_toOption hc, hfaults, hnames, .word⟩

end Bitpack
