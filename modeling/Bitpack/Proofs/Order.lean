import Mathlib
import Bitpack.Proofs.Bodies
import Bitpack.Proofs.Declarations
import Bitpack.Proofs.Parts

/-! The order of items. A source without problems is a header and a list of items, and these may stand in any order:
the parts of the unit are the same, so each method gets the same code. -/

namespace Bitpack

section Permutations

variable {u u' : SourceUnit}

/-- The same methods, in any order. -/
def SourceUnit.Permuted (u u' : SourceUnit) : Prop :=
  ∃ ms : List Method, ms.Perm u.methods.toList ∧ List.Forall₂ (Method.Alike u u') ms u'.methods.toList

theorem forall₂_alike_of_stands {w : Word} {parts : List (Part w)} {ms : List Method}
    (h : List.Forall₂ (Part.Stands u) ms parts) : ∀ {ms' : List Method}, List.Forall₂ (Part.Stands u') ms' parts →
      List.Forall₂ (Method.Alike u u') ms ms' := by
  induction h with
  | nil =>
    intro ms' h'
    cases h'
    exact .nil
  | cons hm _ ih =>
    intro ms' h'
    cases h' with
    | cons hm' h' => exact .cons (hm.alike hm') (ih h')

theorem SourceUnit.MadeOf.permuted {w : Word} {parts parts' : List (Part w)} (h : u.MadeOf w parts)
    (h' : u'.MadeOf w parts') (hperm : parts'.Perm parts) : u.Permuted u' := by
  obtain ⟨ms, hms, hperm'⟩ := List.perm_comp_forall₂ hperm h.methods.flip
  exact ⟨ms, hperm', forall₂_alike_of_stands hms.flip h'.methods⟩

theorem find?_name_eq_some {ms : List Method} (hnodup : (ms.map (·.name)).Nodup) {name : String} {m : Method} :
    ms.find? (fun m => m.name == name) = some m ↔ m ∈ ms ∧ m.name = name := by
  constructor
  · intro h
    exact ⟨List.mem_of_find?_eq_some h, by simpa using List.find?_some h⟩
  · rintro ⟨hm, rfl⟩
    cases hfind : ms.find? fun m' => m'.name == m.name with
    | none => exact absurd (List.find?_eq_none.1 hfind m hm) (by simp)
    | some m' =>
      have hname : m'.name = m.name := by simpa using List.find?_some hfind
      exact congrArg some (List.inj_on_of_nodup_map hnodup (List.mem_of_find?_eq_some hfind) hm hname)

theorem find?_name_alike {ms ms' : List Method} (h : List.Forall₂ (Method.Alike u u') ms ms') (name : String) :
    Option.Rel (Method.Alike u u') (ms.find? fun m => m.name == name) (ms'.find? fun m => m.name == name) := by
  induction h with
  | nil => exact .none
  | cons hm _ ih =>
    rw [List.find?_cons, List.find?_cons, hm.name]
    split
    · exact .some hm
    · exact ih

theorem SourceUnit.Permuted.alike (h : u.Permuted u') (hname : u.name = u'.name) (hbits : u.bits = u'.bits)
    (hword : u.word = u'.word) (hnodup : (u.methods.toList.map (·.name)).Nodup) : u.Alike u' := by
  obtain ⟨ms, hperm, hms⟩ := h
  refine ⟨hname, hbits, hword, fun name => ?_⟩
  have hfind : u.method? name = ms.find? fun m => m.name == name := by
    rw [SourceUnit.method?, ← Array.find?_toList]
    refine Option.ext fun m => ?_
    rw [find?_name_eq_some hnodup, find?_name_eq_some ((hperm.map _).nodup_iff.2 hnodup), hperm.mem_iff]
  rw [hfind, SourceUnit.method?, ← Array.find?_toList]
  exact find?_name_alike hms name

/-- The files of two such units have the same declarations and definitions, up to their order, and if nothing is wrong
with one then nothing is wrong with the other. -/
theorem SourceUnit.Permuted.lower (h : u.Permuted u') (hu : u.Alike u') :
    u'.lower.1.prototypes.Perm u.lower.1.prototypes ∧ u'.lower.1.functions.Perm u.lower.1.functions ∧
      (u.lower.2 = [] → u'.lower.2 = []) := by
  obtain ⟨ms, hperm, hms⟩ := h
  have hvisible : List.Forall₂ (Method.Alike u u') (ms.filter (·.access ≠ .ignored)) u'.visibleMethods :=
    List.rel_filter (fun m m' hm => by simp only [hm.access]) hms
  have hperm' : (ms.filter (·.access ≠ .ignored)).Perm u.visibleMethods := hperm.filter _
  have hfunctions := hperm'.filterMap (Lower.function? u)
  obtain ⟨heq, hcauses⟩ := Lower.functions_alike hu hvisible
  refine ⟨?_, ?_, fun hnil => ?_⟩
  · have hprototypes := hperm'.map (Lower.prototype u)
    rw [Lower.prototypes_alike hu hvisible] at hprototypes
    exact hprototypes
  · have hfirst := hfunctions.map (·.1)
    rw [heq] at hfirst
    exact hfirst
  · have hfaults := hfunctions.flatMap_right (·.2)
    change List.flatMap (·.2) (u.visibleMethods.filterMap (Lower.function? u)) = [] at hnil
    rw [hnil, List.perm_nil] at hfaults
    rw [hfaults, List.map_nil] at hcauses
    exact List.map_eq_nil_iff.1 hcauses.symm

end Permutations

section Code

variable {u u' : SourceUnit}

namespace SourceUnit

/-- The declaration of the method with a name. -/
def prototype? (u : SourceUnit) (name : String) : Option C.Prototype :=
  (u.method? name).map (Lower.prototype u)

/-- The definition of the method with a name. -/
def function? (u : SourceUnit) (name : String) : Option C.Function :=
  (u.method? name).bind fun m => (Lower.function? u m).map (·.1)

theorem Alike.prototype?_eq (h : u.Alike u') (name : String) : u.prototype? name = u'.prototype? name := by
  have hmethod := h.method? name
  unfold prototype?
  generalize u.method? name = x, u'.method? name = y at hmethod
  cases hmethod with
  | none => rfl
  | some hm => exact congrArg some (Lower.prototype_alike h hm)

theorem Alike.function?_eq (h : u.Alike u') (name : String) : u.function? name = u'.function? name := by
  have hmethod := h.method? name
  unfold function?
  generalize u.method? name = x, u'.method? name = y at hmethod
  cases hmethod with
  | none => rfl
  | @some m m' hm =>
    have hfunction := Lower.function?_alike h hm
    simp only [Option.bind_some]
    generalize Lower.function? u m = f, Lower.function? u' m' = f' at hfunction
    cases hfunction with
    | none => rfl
    | some hf => exact congrArg some hf.1

theorem code_of_bare (h : u.bare = u'.bare) : u.lower.1 = u'.lower.1 ∧
    u.lower.2.map (·.cause) = u'.lower.2.map (·.cause) ∧
      ∀ name, u.prototype? name = u'.prototype? name ∧ u.function? name = u'.function? name := by
  obtain ⟨hfile, hcauses⟩ := u.lower_bare
  obtain ⟨hfile', hcauses'⟩ := u'.lower_bare
  refine ⟨by rw [hfile, hfile', h], by rw [hcauses, hcauses', h], fun name => ⟨?_, ?_⟩⟩
  · rw [u.alike_bare.prototype?_eq, u'.alike_bare.prototype?_eq, h]
  · rw [u.alike_bare.function?_eq, u'.alike_bare.function?_eq, h]

end SourceUnit

namespace C.File

variable {file file' : File} {p : Prototype} {f : Function} {definition : Option Function}

theorem text_mem_lines (hp : p ∈ file.prototypes) : p.text ∈ file.lines := by
  rw [lines, if_neg (by simpa using List.ne_nil_of_mem hp)]
  exact List.mem_append_left _ (List.mem_append_right _ (List.mem_cons_of_mem _ (List.mem_map_of_mem hp)))

theorem lines_infix (hf : f ∈ file.functions) : f.lines file.word <:+: file.lines := by
  obtain ⟨before, after, hfunctions⟩ := List.append_of_mem hf
  rw [lines, hfunctions, List.flatMap_append, List.flatMap_cons, ← List.append_assoc]
  exact List.infix_append' ..

/-- The file declares a function once and defines it once, if there is a definition, and the lines of both are among
its own. -/
structure Emits (file : File) (p : Prototype) (definition : Option Function) : Prop where
  declared : file.prototypes.filter (fun q => q.name = p.name) = [p]
  defined : file.functions.filter (fun f => f.prototype.name = p.name) = definition.toList
  line : p.text ∈ file.lines
  lines : ∀ f ∈ definition, f.lines file.word <:+: file.lines

theorem emits_of_filter (hdeclared : file.prototypes.filter (fun q => q.name = p.name) = [p])
    (hdefined : file.functions.filter (fun f => f.prototype.name = p.name) = definition.toList) :
    file.Emits p definition := by
  refine ⟨hdeclared, hdefined, text_mem_lines ?_, fun f hf => lines_infix ?_⟩
  · exact List.mem_of_mem_filter (hdeclared ▸ List.mem_singleton_self p)
  · exact List.mem_of_mem_filter (hdefined ▸ Option.mem_toList.2 hf)

theorem Emits.perm (h : file.Emits p definition) (hprototypes : file'.prototypes.Perm file.prototypes)
    (hfunctions : file'.functions.Perm file.functions) : file'.Emits p definition := by
  have hdeclared := hprototypes.filter fun q => q.name = p.name
  have hdefined := hfunctions.filter fun f => f.prototype.name = p.name
  rw [h.declared, List.perm_singleton] at hdeclared
  rw [h.defined] at hdefined
  refine emits_of_filter hdeclared ?_
  cases definition with
  | none => exact List.perm_nil.1 hdefined
  | some f => exact List.perm_singleton.1 hdefined

end C.File

theorem SourceUnit.WellFormed.emits (hu : u.WellFormed) {name : String} {m : Method} (hm : u.method? name = some m)
    (hvisible : m.access ≠ .ignored) :
    ∃ p, u.prototype? name = some p ∧ u.lower.1.Emits p (u.function? name) := by
  have hmem : m ∈ u.methods := Array.mem_of_find?_eq_some hm
  have hfunction : u.function? name = Lower.definition? u m := by
    rw [function?, hm, Option.bind_some, Lower.function?, Lower.definition?, Option.map_map]
    rfl
  refine ⟨Lower.prototype u m, by rw [prototype?, hm, Option.map_some], C.File.emits_of_filter ?_ ?_⟩
  · exact (hu.filter_prototypes hmem).trans (if_neg hvisible)
  · rw [hfunction]
    exact (hu.filter_functions hmem).trans (if_neg hvisible)

end Code

section Chunks

theorem Grammar.ValidStmts.no_brace {sts : List Stmt} : ∀ {known : List String}, Grammar.ValidStmts known sts →
    ∀ k ∈ (sts.flatMap fun st => st.kinds ++ [.mark .semicolon]), k ≠ .mark .lbrace ∧ k ≠ .mark .rbrace := by
  induction sts with
  | nil => exact fun _ => List.forall_mem_nil _
  | cons st sts ih =>
    rintro known ⟨hvalid, hvalids⟩
    rw [List.flatMap_cons]
    refine List.forall_mem_append.2 ⟨List.forall_mem_append.2 ⟨fun k hk => ?_, by decide⟩, ih hvalids⟩
    have hhead := hvalid.not_endsHead k hk
    constructor <;> rintro rfl <;> exact hhead rfl

namespace Chunk

theorem exists_plain {ts : List Token} {ks : List Kind} (hts : ts.map (·.kind) = ks ++ [.mark .semicolon])
    (hks : ∀ k ∈ ks, ¬ k.endsHead) : ∃ c : Chunk, c.text = ts := by
  obtain ⟨run, last, rfl, rfl, hlast⟩ := exists_of_kinds_append hts
  obtain ⟨span, nothing, rfl, hnothing⟩ := exists_of_kinds_cons hlast
  obtain rfl := List.map_eq_nil_iff.1 hnothing
  exact ⟨.plain run ⟨.mark .semicolon, span⟩ (fun t ht => hks _ (List.mem_map_of_mem ht)) rfl, rfl⟩

theorem exists_braced {ts : List Token} {ks inside : List Kind}
    (hts : ts.map (·.kind) = ks ++ .mark .lbrace :: (inside ++ [.mark .rbrace])) (hks : ∀ k ∈ ks, ¬ k.endsHead)
    (hinside : ∀ k ∈ inside, k ≠ .mark .lbrace ∧ k ≠ .mark .rbrace) : ∃ c : Chunk, c.text = ts := by
  obtain ⟨run, others, rfl, rfl, hothers⟩ := exists_of_kinds_append hts
  obtain ⟨span, rest, rfl, hrest⟩ := exists_of_kinds_cons hothers
  obtain ⟨body, last, rfl, rfl, hlast⟩ := exists_of_kinds_append hrest
  obtain ⟨span', nothing, rfl, hnothing⟩ := exists_of_kinds_cons hlast
  obtain rfl := List.map_eq_nil_iff.1 hnothing
  exact ⟨.braced run ⟨.mark .lbrace, span⟩ body ⟨.mark .rbrace, span'⟩ (fun t ht => hks _ (List.mem_map_of_mem ht)) rfl
    (fun t ht => hinside _ (List.mem_map_of_mem ht)) rfl, rfl⟩

theorem exists_of_method {w : Word} {m : Grammar.Method} (h : m.Valid w) {ts : List Token}
    (hts : ts.map (·.kind) = m.kinds) : ∃ c : Chunk, c.text = ts := by
  obtain ⟨g, tags, body⟩ := m
  have hheading := Grammar.Method.heading_not_endsHead tags g
  cases body with
  | none => exact exists_plain hts hheading
  | some sts => exact exists_braced hts hheading (h.statements sts rfl).no_brace

theorem exists_of_items {w : Word} {items : List Grammar.Item} : ∀ {taken : List String} {ts : List Token},
    Grammar.ValidItems w taken items → ts.map (·.kind) = items.flatMap Grammar.Item.kinds →
      ∃ cs : List Chunk, ts = cs.flatMap text := by
  induction items with
  | nil => exact fun _ hts => ⟨[], List.map_eq_nil_iff.1 hts⟩
  | cons item items ih =>
    intro taken ts hvalid hts
    obtain ⟨first, others, rfl, hfirst, hothers⟩ := exists_of_kinds_append hts
    have hparts : (∃ c : Chunk, c.text = first) ∧ ∃ cs : List Chunk, others = cs.flatMap text := by
      cases item with
      | imports name =>
        exact ⟨@exists_plain first [.keyword .imports, .name name] hfirst (by simp [Kind.endsHead]), ih hvalid hothers⟩
      | method m => exact ⟨exists_of_method hvalid.1 hfirst, ih hvalid.2.2 hothers⟩
    obtain ⟨⟨c, rfl⟩, cs, rfl⟩ := hparts
    exact ⟨c :: cs, rfl⟩

theorem exists_of_ofTokens {w : Word} {finish : Token} (hfinish : finish.kind = .finish) {ts : List Token}
    (h : (SourceUnit.ofTokens w finish ts).2 = []) :
    ∃ header, ∃ cs : List Chunk, IsHeader header ∧ ts = header ++ cs.flatMap text := by
  change ((Draft.header w finish ts).1.addAll (Entry.split finish (Draft.header w finish ts).2)).faults = [] at h
  obtain ⟨bits, name, hkinds, hbits⟩ := Draft.header_sound hfinish (Draft.faults_of_addAll _ h)
  obtain ⟨items, hitems, hvalid⟩ := Draft.addAll_sound hfinish _ h
  obtain ⟨header, rest, rfl, hheader, hrest⟩ := @exists_of_kinds_append ts
    [.keyword .object, .number bits, .name name, .mark .semicolon] _ hkinds
  obtain ⟨cs, rfl⟩ := exists_of_items hvalid (hrest.trans hitems.symm)
  exact ⟨header, cs, ⟨bits, name, hheader, hbits⟩, rfl⟩

end Chunk
end Chunks

section Compilation

variable {w : Word} {src : String}

theorem compile_of_clean (h : (SourceUnit.ofText w src).2 = []) (hlower : (SourceUnit.ofText w src).1.lower.2 = []) :
    compile w src = .ok ⟨(SourceUnit.ofText w src).1, (SourceUnit.ofText w src).1.lower.1.text, []⟩ := by
  have hword := (SourceUnit.ofText_wellFormed w src).2
  simp [compile, SourceUnit.generate, hword, h, hlower]

theorem clean_of_compile {c : Compiled} (hc : compile w src = .ok c) (hclean : c.faults = []) :
    (SourceUnit.ofText w src).2 = [] ∧ (SourceUnit.ofText w src).1.lower.2 = [] := by
  have hword := (SourceUnit.ofText_wellFormed w src).2
  simp only [compile, SourceUnit.generate, hword, if_true] at hc
  split_ifs at hc
  cases hc
  exact List.append_eq_nil_iff.1 hclean

/-- If nothing is wrong with the items in one order then nothing is wrong with them in any other, and the
methods are the same. -/
theorem IsHeader.ofTokens_perm {header : List Token} (h : IsHeader header) (finish finish' : Token)
    {items items' : List Chunk} (hperm : items'.Perm items) {r r' : SourceUnit × List Diagnostic}
    (hr : SourceUnit.ofTokens w finish (header ++ items.flatMap Chunk.text) = r)
    (hr' : SourceUnit.ofTokens w finish' (header ++ items'.flatMap Chunk.text) = r') (hclean : r.2 = []) :
    r'.2 = [] ∧ r.1.Permuted r'.1 ∧ r.1.Alike r'.1 := by
  obtain ⟨n, name, -, -, hdraft⟩ := h.draft_eq
  simp only [SourceUnit.ofTokens, hdraft, Chunk.split_flatMap_text] at hr hr'
  subst hr hr'
  let start : SourceUnit := { word := w, name, bits := n }
  have hstart : start.MadeOf w [] := ⟨rfl, .nil⟩
  obtain ⟨hiff, hmade⟩ := hstart.addAll (items.map Chunk.entry) List.nodup_nil
  obtain ⟨hiff', hmade'⟩ := hstart.addAll (items'.map Chunk.entry) List.nodup_nil
  have hentries : (items'.map Chunk.entry).Perm (items.map Chunk.entry) := hperm.map _
  have hparts := hentries.filterMap (Entry.part? w)
  obtain ⟨hown, hnodup⟩ := hiff.1 hclean
  have hclean' := hiff'.2 ⟨fun e he => hown e (hentries.mem_iff.1 he), ((hparts.map _).nodup_iff).2 hnodup⟩
  have hpermuted := (hmade hclean).permuted (hmade' hclean') hparts
  obtain ⟨hname, hbits, -⟩ := Draft.addAll_unit (items.map Chunk.entry) ⟨start, []⟩
  obtain ⟨hname', hbits', -⟩ := Draft.addAll_unit (items'.map Chunk.entry) ⟨start, []⟩
  refine ⟨hclean', hpermuted, hpermuted.alike (hname.trans hname'.symm) (hbits.trans hbits'.symm)
    ((hmade hclean).word.trans (hmade' hclean').word.symm) ?_⟩
  rw [(hmade hclean).names_eq]
  exact hnodup

/-- The order of items does not matter. A source that is compiled without a problem is a header and a list of items, and
with the items in any other order it is compiled without a problem too. Each method has the same declaration and the same
definition. The output has those of each method that is not ignored, and in both orders it has the same ones. -/
theorem item_order_ignored (w : Word) (src : String) (c : Compiled) (hc : compile w src = .ok c)
    (hclean : c.faults = []) :
    (∃ header, ∃ items : List Chunk, IsHeader header ∧ Token.scan src = header ++ items.flatMap Chunk.text) ∧
    ∀ (header : List Token) (items items' : List Chunk) (src' : String), IsHeader header →
      Token.scan src = header ++ items.flatMap Chunk.text → items'.Perm items →
      (Token.scan src').map (·.kind) = (header ++ items'.flatMap Chunk.text).map (·.kind) →
      ∃ c', compile w src' = .ok c' ∧ c'.faults = [] ∧
        (∀ name, (c'.unit.prototype? name).map (·.text) = (c.unit.prototype? name).map (·.text) ∧
          (c'.unit.function? name).map (·.lines w) = (c.unit.function? name).map (·.lines w)) ∧
        c.output = c.unit.lower.1.text ∧ c'.output = c'.unit.lower.1.text ∧
        (∀ name m, c.unit.method? name = some m → m.access ≠ .ignored →
          ∃ p, c.unit.prototype? name = some p ∧ c.unit.lower.1.Emits p (c.unit.function? name) ∧
            c'.unit.lower.1.Emits p (c.unit.function? name)) ∧
        c'.unit.lower.1.prototypes.Perm c.unit.lower.1.prototypes ∧
        c'.unit.lower.1.functions.Perm c.unit.lower.1.functions := by
  obtain ⟨hunit, houtput⟩ := compile_ok hc
  obtain ⟨hread, hlower⟩ := clean_of_compile hc hclean
  have hsrc : SourceUnit.ofText w src = SourceUnit.ofTokens w (Token.finishOf src) (Token.scan src) := by
    rw [SourceUnit.ofText, if_neg]
    intro hempty
    rw [SourceUnit.ofText, if_pos hempty] at hread
    cases hread
  refine ⟨Chunk.exists_of_ofTokens rfl (hsrc ▸ hread), ?_⟩
  intro header items items' src' hheader hscan hperm hkinds
  have hscan' : Token.scan src' ≠ [] := by
    intro hnil
    rw [hnil] at hkinds
    have happend := List.map_eq_nil_iff.1 hkinds.symm
    exact hheader.ne_nil (List.append_eq_nil_iff.1 happend).1
  rw [hscan] at hsrc
  obtain ⟨hread', hpermuted, halike⟩ :=
    hheader.ofTokens_perm (Token.finishOf src) (Token.finishOf src) hperm hsrc.symm rfl hread
  obtain ⟨hprototypes, hfunctions, hfaults⟩ := hpermuted.lower halike
  -- The text has the kinds of the moved items, which is all that counts.
  obtain ⟨hbare, hcauses⟩ := SourceUnit.ofTokens_of_kinds w (Token.finishOf src') (Token.finishOf src) rfl hkinds
  rw [← SourceUnit.ofText_eq_ofTokens w hscan'] at hbare hcauses
  obtain ⟨hfile, hlater, hcode⟩ := SourceUnit.code_of_bare hbare
  rw [hread', List.map_nil, List.map_eq_nil_iff] at hcauses
  rw [hfaults hlower, List.map_nil, List.map_eq_nil_iff] at hlater
  rw [← hfile] at hprototypes hfunctions
  refine ⟨_, compile_of_clean hcauses hlater, rfl, fun name => ?_, houtput, rfl, fun name m hm hvisible => ?_, ?_, ?_⟩
  · rw [hunit, (hcode name).1, (hcode name).2, halike.prototype?_eq, halike.function?_eq]
    exact ⟨rfl, rfl⟩
  · rw [hunit] at hm ⊢
    obtain ⟨p, hp, hemits⟩ := (SourceUnit.ofText_wellFormed w src).1.emits hm hvisible
    exact ⟨p, hp, hemits, hemits.perm hprototypes hfunctions⟩
  · rw [hunit]
    exact hprototypes
  · rw [hunit]
    exact hfunctions

/-- An import, a method that calls the next one, and that one with an annotation, in this order and back to front. -/
theorem item_order_ignored_of_reverse :
    ∃ c c',
      compile .w64 "object 8 A;import b;8 f(8 a)\x7bf=g(a);\x7d@public 4 g(4 x)\x7bg=x;\x7d" = .ok c ∧
      c.faults = [] ∧
      compile .w64 "object 8 A;@public 4 g(4 x)\x7bg=x;\x7d8 f(8 a)\x7bf=g(a);\x7dimport b;" = .ok c' ∧ c'.faults = [] ∧
      ∀ name, (c'.unit.prototype? name).map (·.text) = (c.unit.prototype? name).map (·.text) ∧
        (c'.unit.function? name).map (·.lines .w64) = (c.unit.function? name).map (·.lines .w64) := by
  have hclean : ((compile .w64 "object 8 A;import b;8 f(8 a)\x7bf=g(a);\x7d@public 4 g(4 x)\x7bg=x;\x7d").toOption.any
      fun c => c.faults.isEmpty) = true := by decide +kernel
  obtain ⟨c, hc, hempty⟩ := (Option.any_eq_true _ _).1 hclean
  have hheader : IsHeader ((Token.scan
      "object 8 A;import b;8 f(8 a)\x7bf=g(a);\x7d@public 4 g(4 x)\x7bg=x;\x7d").take 4) :=
    ⟨"8", "A", by decide +kernel, by decide +kernel⟩
  have hnil := List.isEmpty_iff.1 hempty
  obtain ⟨c', hc', hnil', hcode, -⟩ := (item_order_ignored .w64 _ c (compile_of_toOption hc) hnil).2 _
    [.plain [⟨.keyword .imports, 11, 6⟩, ⟨.name "b", 18, 1⟩] ⟨.mark .semicolon, 19, 1⟩ (by decide) rfl,
      .braced [⟨.number "8", 20, 1⟩, ⟨.name "f", 22, 1⟩, ⟨.mark .lparen, 23, 1⟩, ⟨.number "8", 24, 1⟩,
          ⟨.name "a", 26, 1⟩, ⟨.mark .rparen, 27, 1⟩] ⟨.mark .lbrace, 28, 1⟩
        [⟨.name "f", 29, 1⟩, ⟨.mark .assign, 30, 1⟩, ⟨.name "g", 31, 1⟩, ⟨.mark .lparen, 32, 1⟩, ⟨.name "a", 33, 1⟩,
          ⟨.mark .rparen, 34, 1⟩, ⟨.mark .semicolon, 35, 1⟩] ⟨.mark .rbrace, 36, 1⟩ (by decide) rfl (by decide) rfl,
      .braced [⟨.mark .atSign, 37, 1⟩, ⟨.name "public", 38, 6⟩, ⟨.number "4", 45, 1⟩, ⟨.name "g", 47, 1⟩,
          ⟨.mark .lparen, 48, 1⟩, ⟨.number "4", 49, 1⟩, ⟨.name "x", 51, 1⟩, ⟨.mark .rparen, 52, 1⟩]
        ⟨.mark .lbrace, 53, 1⟩
        [⟨.name "g", 54, 1⟩, ⟨.mark .assign, 55, 1⟩, ⟨.name "x", 56, 1⟩, ⟨.mark .semicolon, 57, 1⟩]
        ⟨.mark .rbrace, 58, 1⟩ (by decide) rfl (by decide) rfl]
    _ "object 8 A;@public 4 g(4 x)\x7bg=x;\x7d8 f(8 a)\x7bf=g(a);\x7dimport b;" hheader (by decide +kernel)
    (List.reverse_perm _) (by decide +kernel)
  exact ⟨c, c', compile_of_toOption hc, hnil, hc', hnil', hcode⟩

end Compilation
end Bitpack
