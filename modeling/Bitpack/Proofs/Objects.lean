import Mathlib
import Bitpack.Proofs.Runs

/-! What is done for one input. The compiler is started once at most, for an input that was read without a problem and
whose C text was written to a new file; where it is not, the input has problems or the work on it failed. This holds
however files, tools and sinks behave. -/

namespace Bitpack

section Events

/-- A program is started. -/
def Request.isTool : Request → Bool
  | .runTool .. => true
  | .readSource _ | .drawId | .createFile _ | .writeFile .. | .fileExists _ | .emit .. => false

/-- A program is started to compile a file. -/
def Request.isCompile : Request → Bool
  | .runTool _ args => args.head? == some "-c"
  | .readSource _ | .drawId | .createFile _ | .writeFile .. | .fileExists _ | .emit .. => false

/-- A program is started for something else. -/
def Request.isLink (q : Request) : Bool :=
  q.isTool && !q.isCompile

/-- A sink took no more text. -/
def Event.WriteFailed (e : Event) : Prop :=
  ∃ sink text reason, e = ⟨.emit sink text, Except.error reason⟩

/-- No program is started. -/
def Quiet (es : List Event) : Prop :=
  ∀ e ∈ es, e.1.isTool = false

theorem quiet_nil : Quiet [] :=
  List.forall_mem_nil _

theorem quiet_singleton {e : Event} (h : e.1.isTool = false) : Quiet [e] :=
  List.forall_mem_singleton.2 h

theorem Quiet.append {es es' : List Event} (h : Quiet es) (h' : Quiet es') : Quiet (es ++ es') :=
  List.forall_mem_append.2 ⟨h, h'⟩

namespace Build

variable {α β : Type}

/-- No run starts a program. -/
def IsQuiet (x : Build α) : Prop :=
  ∀ es r, Run x es r → Quiet es

theorem isQuiet_pure (a : α) : IsQuiet (pure a) := by
  intro es r h
  obtain ⟨rfl, -⟩ := run_pure.1 h
  exact quiet_nil

theorem isQuiet_throw (e : ToolError) : IsQuiet (throw e : Build α) := by
  intro es r h
  obtain ⟨rfl, -⟩ := run_throw.1 h
  exact quiet_nil

theorem IsQuiet.bind {x : Build α} {f : α → Build β} (hx : IsQuiet x) (hf : ∀ a, IsQuiet (f a)) :
    IsQuiet (x >>= f) := by
  intro es r h
  rcases run_bind.1 h with ⟨e, -, h⟩ | ⟨a, before, after, rfl, hbefore, hafter⟩
  · exact hx _ _ h
  · exact (hx _ _ hbefore).append (hf a _ _ hafter)

theorem isQuiet_drawId : IsQuiet drawId := by
  intro es r h
  obtain ⟨a, rfl, -⟩ := run_drawId.1 h
  exact quiet_singleton rfl

theorem isQuiet_createFile (path : String) : IsQuiet (createFile path) := by
  intro es r h
  obtain ⟨a, rfl, -⟩ := run_createFile.1 h
  exact quiet_singleton rfl

theorem isQuiet_emit (sink : Sink) (text : String) : IsQuiet (emit sink text) := by
  intro es r h
  unfold emit at h
  split_ifs at h
  · exact isQuiet_pure () _ _ h
  · obtain ⟨a, hes, -⟩ := run_orThrow.1 h
    obtain rfl := Plan.run_request.1 hes
    exact quiet_singleton rfl

theorem isQuiet_emitAll (sink : Sink) (texts : List String) : IsQuiet (emitAll sink texts) := by
  induction texts with
  | nil => exact isQuiet_pure ()
  | cons text texts ih => exact (isQuiet_emit sink text).bind fun _ => ih

theorem isQuiet_report (path src : String) (faults : List Diagnostic) : IsQuiet (report path src faults) :=
  isQuiet_emitAll _ _

theorem isQuiet_listTokens (path src : String) : IsQuiet (listTokens path src) := by
  unfold listTokens
  split
  · exact (isQuiet_report _ _ _).bind fun _ => isQuiet_pure _
  · exact (isQuiet_emitAll _ _).bind fun _ => isQuiet_pure _

theorem isQuiet_showOutline (word : Word) (path src : String) : IsQuiet (showOutline word path src) :=
  (isQuiet_emit _ _).bind fun _ => (isQuiet_report _ _ _).bind fun _ => isQuiet_pure _

end Build
end Events

section Reservations

/-- Numbers are drawn, `n` at most, until a new file can be made. -/
inductive Reserved (base : String) : ℕ → UnitPaths → List Event → Prop
  | created (n : ℕ) (id : UInt64) : Reserved base (n + 1) (.ofId base id)
      [⟨.drawId, Except.ok id⟩, ⟨.createFile (UnitPaths.ofId base id).source, Creation.created⟩]
  | taken {n : ℕ} (id : UInt64) {paths : UnitPaths} {es : List Event} (h : Reserved base n paths es) :
      Reserved base (n + 1) paths
        (⟨.drawId, Except.ok id⟩ :: ⟨.createFile (UnitPaths.ofId base id).source, Creation.taken⟩ :: es)

theorem UnitPaths.isQuiet_reserveWithin (base : String) (n : ℕ) : Build.IsQuiet (reserveWithin base n) := by
  induction n with
  | zero => exact Build.isQuiet_throw _
  | succ n ih =>
    refine Build.isQuiet_drawId.bind fun id => (Build.isQuiet_createFile _).bind fun a => ?_
    cases a with
    | created => exact Build.isQuiet_pure _
    | taken => exact ih
    | failed reason => exact Build.isQuiet_throw _

theorem UnitPaths.run_reserveWithin {base : String} {paths : UnitPaths} {n : ℕ} : ∀ {es : List Event},
    Build.Run (reserveWithin base n) es (.ok paths) ↔ Reserved base n paths es := by
  induction n with
  | zero =>
    intro es
    constructor
    · intro h
      cases (Build.run_throw.1 h).2
    · intro h
      cases h
  | succ n ih =>
    intro es
    constructor
    · intro h
      obtain ⟨id, _, _, rfl, hdraw, hrest⟩ := Build.run_bind_ok.1 h
      obtain ⟨a, _, after, rfl, hcreate, hend⟩ := Build.run_bind_ok.1 hrest
      obtain ⟨_ | _, rfl, hid⟩ := Build.run_drawId.1 hdraw <;> cases hid
      obtain ⟨_, rfl, ha⟩ := Build.run_createFile.1 hcreate
      cases ha
      cases a with
      | created =>
        obtain ⟨rfl, hpaths⟩ := Build.run_pure.1 hend
        cases hpaths
        exact .created n id
      | taken => exact .taken id (ih.1 hend)
      | failed reason => cases (Build.run_throw.1 hend).2
    · intro h
      cases h with
      | created _ id =>
        exact Build.run_bind_ok.2 ⟨id, [_], [_], rfl, Build.run_drawId.2 ⟨.ok id, rfl, rfl⟩,
          Build.run_bind_ok.2 ⟨.created, [_], [], rfl, Build.run_createFile.2 ⟨.created, rfl, rfl⟩,
            Build.run_pure.2 ⟨rfl, rfl⟩⟩⟩
      | @taken _ id _ es h =>
        exact Build.run_bind_ok.2 ⟨id, [_], _ :: es, rfl, Build.run_drawId.2 ⟨.ok id, rfl, rfl⟩,
          Build.run_bind_ok.2 ⟨.taken, [_], es, rfl, Build.run_createFile.2 ⟨.taken, rfl, rfl⟩, ih.2 h⟩⟩

end Reservations

section Objects

/-- The arguments with which a C file is compiled. -/
def UnitPaths.compileArgs (paths : UnitPaths) : List String :=
  ["-c", "-O2", paths.source, "-o", paths.object]

/-- What comes before the compiler is started for an input: it is read, no problem is found, and the C text is written
to a new file. -/
inductive Prepared (c : Command) (base path : String) : UnitPaths → List Event → Prop
  | intro {src : String} {compiled : Compiled} {paths : UnitPaths} {es : List Event}
      (hcompile : compile c.word src = .ok compiled) (hfaults : compiled.faults = [])
      (hreserved : Reserved base UnitPaths.maxAttempts paths es) :
      Prepared c base path paths (⟨.readSource path, Except.ok src⟩ :: es ++
        [⟨.writeFile paths.source compiled.output, Except.ok ()⟩])

/-- An input becomes an object: the compiler can be started, and the object file is there afterwards. -/
inductive Made (c : Command) (base path : String) : String → List Event → Prop
  | intro {paths : UnitPaths} {es : List Event} (hprepared : Prepared c base path paths es) (status : ExitStatus) :
      Made c base path paths.object (es ++
        [⟨.runTool c.compiler paths.compileArgs, Except.ok status⟩, ⟨.fileExists paths.object, true⟩])

/-- The end of a successful compilation: the object file is there. -/
def Delivered (paths : UnitPaths) (answer : Except String ExitStatus) (tail : List Event) : Prop :=
  ∃ status, answer = .ok status ∧ tail = [⟨.fileExists paths.object, true⟩]

theorem Toolchain.compile_cases {t : Toolchain} {paths : UnitPaths} {es : List Event} {r : Except ToolError Unit}
    (h : Build.Run (t.compile paths) es r) : ∃ (answer : Except String ExitStatus) (tail : List Event),
      es = ⟨.runTool t.compiler paths.compileArgs, answer⟩ :: tail ∧ Quiet tail ∧
      (r = .ok () → Delivered paths answer tail) := by
  rcases Build.run_bind.1 h with ⟨e, rfl, htool⟩ | ⟨status, _, _, rfl, htool, hrest⟩
  · obtain ⟨answer, rfl, -⟩ := Build.run_runTool.1 htool
    exact ⟨answer, [], rfl, quiet_nil, nofun⟩
  · obtain ⟨answer, rfl, hanswer⟩ := Build.run_runTool.1 htool
    obtain ⟨e, -, hexists⟩ | ⟨found, _, _, rfl, hexists, hend⟩ := Build.run_bind.1 hrest
    · obtain ⟨_, -, he⟩ := Build.run_fileExists.1 hexists
      cases he
    · obtain ⟨_, rfl, hfound⟩ := Build.run_fileExists.1 hexists
      cases hfound
      cases found with
      | true =>
        obtain ⟨rfl, rfl⟩ := Build.run_pure.1 hend
        refine ⟨answer, _, rfl, quiet_singleton rfl, fun _ => ⟨status, ?_, rfl⟩⟩
        cases answer <;> cases hanswer
        rfl
      | false =>
        obtain ⟨rfl, rfl⟩ := Build.run_throw.1 hend
        exact ⟨answer, _, rfl, quiet_singleton rfl, nofun⟩

theorem Toolchain.run_compile (t : Toolchain) (paths : UnitPaths) (status : ExitStatus) :
    Build.Run (t.compile paths)
      [⟨.runTool t.compiler paths.compileArgs, Except.ok status⟩, ⟨.fileExists paths.object, true⟩] (.ok ()) :=
  Build.run_bind_ok.2 ⟨status, [_], [_], rfl, Build.run_runTool.2 ⟨.ok status, rfl, rfl⟩,
    Build.run_bind_ok.2 ⟨true, [_], [], rfl, Build.run_fileExists.2 ⟨true, rfl, rfl⟩,
      Build.run_pure.2 ⟨rfl, rfl⟩⟩⟩

namespace Build

theorem makeObject_cases {t : Toolchain} {base text : String} {es : List Event} {r : Except ToolError String}
    (h : Run (makeObject t base text) es r) : (Quiet es ∧ ∃ e, r = .error e) ∨
      ∃ (paths : UnitPaths) (drawn : List Event) (answer : Except String ExitStatus) (tail : List Event),
        Reserved base UnitPaths.maxAttempts paths drawn ∧
        es = drawn ++ ⟨.writeFile paths.source text, Except.ok ()⟩ ::
          ⟨.runTool t.compiler paths.compileArgs, answer⟩ :: tail ∧ Quiet tail ∧
        ∀ object, r = .ok object → object = paths.object ∧ Delivered paths answer tail := by
  rcases run_bind.1 h with ⟨e, rfl, hreserve⟩ | ⟨paths, drawn, _, rfl, hreserve, hrest⟩
  · exact Or.inl ⟨UnitPaths.isQuiet_reserveWithin _ _ _ _ hreserve, e, rfl⟩
  rcases run_bind.1 hrest with ⟨e, rfl, hwrite⟩ | ⟨_, _, _, rfl, hwrite, hcompile⟩
  · obtain ⟨answer, rfl, -⟩ := run_writeFile.1 hwrite
    exact Or.inl ⟨(UnitPaths.isQuiet_reserveWithin _ _ _ _ hreserve).append (quiet_singleton rfl), e, rfl⟩
  obtain ⟨_ | _, rfl, hanswer⟩ := run_writeFile.1 hwrite
  · cases hanswer
  have hreserved := UnitPaths.run_reserveWithin.1 hreserve
  rcases run_bind.1 hcompile with ⟨e, rfl, htool⟩ | ⟨_, _, _, rfl, htool, hend⟩
  · obtain ⟨answer, tail, rfl, htail, -⟩ := Toolchain.compile_cases htool
    exact Or.inr ⟨paths, drawn, answer, tail, hreserved, rfl, htail, nofun⟩
  · obtain ⟨answer, tail, rfl, htail, hok⟩ := Toolchain.compile_cases htool
    obtain ⟨rfl, rfl⟩ := run_pure.1 hend
    refine Or.inr ⟨paths, drawn, answer, tail, hreserved, by simp, htail, fun object hobject => ?_⟩
    cases hobject
    exact ⟨rfl, hok rfl⟩

theorem run_makeObject {t : Toolchain} {base : String} {paths : UnitPaths} {drawn : List Event} (text : String)
    (h : Reserved base UnitPaths.maxAttempts paths drawn) (status : ExitStatus) :
    Run (makeObject t base text) (drawn ++ [⟨.writeFile paths.source text, Except.ok ()⟩,
      ⟨.runTool t.compiler paths.compileArgs, Except.ok status⟩, ⟨.fileExists paths.object, true⟩])
      (.ok paths.object) :=
  run_bind_ok.2 ⟨paths, drawn, _, rfl, UnitPaths.run_reserveWithin.2 h,
    run_bind_ok.2 ⟨(), [_], [_, _], rfl, run_writeFile.2 ⟨.ok (), rfl, rfl⟩,
      run_bind_ok.2 ⟨(), [_, _], [], rfl, t.run_compile paths status, run_pure.2 ⟨rfl, rfl⟩⟩⟩⟩

end Build
end Objects

section Units

/-- What can come of an input. Either the compiler is not started, and then nothing may be linked, or it is started
once, with everything in order. -/
inductive UnitRun (c : Command) (base path : String) : List Event → Except ToolError UnitResult → Prop
  | stopped {es : List Event} {r : Except ToolError UnitResult} (hquiet : Quiet es)
      (hfaults : c.stage = .executable → ∀ result, r = .ok result → result.faults ≠ []) : UnitRun c base path es r
  | compiled {paths : UnitPaths} {front tail : List Event} {answer : Except String ExitStatus}
      {r : Except ToolError UnitResult} (hprepared : Prepared c base path paths front) (htail : Quiet tail)
      (hmade : c.stage = .executable → ∀ result, r = .ok result →
        result = ⟨[], some paths.object⟩ ∧ Delivered paths answer tail) :
      UnitRun c base path (front ++ ⟨.runTool c.compiler paths.compileArgs, answer⟩ :: tail) r

theorem compile_error_ne_nil {word : Word} {src : String} {faults : List Diagnostic}
    (h : compile word src = .error faults) : faults ≠ [] := by
  have hfatal : faults.any Diagnostic.isFatal := by
    unfold compile at h
    simp only at h
    split_ifs at h with hread hlower
    · cases h
      exact hread
    · cases h
      exact hlower
  rintro rfl
  cases hfatal

namespace Build

theorem report_nil (path src : String) : report path src [] = pure () :=
  rfl

theorem compiled_run {c : Command} {base path src : String} {compiled : Compiled} {es : List Event}
    {r : Except ToolError UnitResult} (hcompile : compile c.word src = .ok compiled) (hfaults : compiled.faults = [])
    (h : Run (makeObject ⟨c.compiler, c.entry⟩ base compiled.output >>= fun object =>
      if c.stage = .objects then emit .output (object ++ "\n") >>= fun _ => pure ⟨[], some object⟩
      else pure ⟨[], some object⟩) es r) :
    UnitRun c base path (⟨.readSource path, Except.ok src⟩ :: es) r := by
  have hread : Quiet [⟨.readSource path, Except.ok src⟩] := quiet_singleton rfl
  have hcompiled : ∀ {paths : UnitPaths} {drawn tail : List Event} {answer : Except String ExitStatus},
      Reserved base UnitPaths.maxAttempts paths drawn → Quiet tail →
      (c.stage = .executable → ∀ result, r = .ok result →
        result = ⟨[], some paths.object⟩ ∧ Delivered paths answer tail) →
      UnitRun c base path (⟨.readSource path, Except.ok src⟩ :: (drawn ++ ⟨.writeFile paths.source compiled.output,
        Except.ok ()⟩ :: ⟨.runTool c.compiler paths.compileArgs, answer⟩ :: tail)) r := by
    intro paths drawn tail answer hreserved htail hmade
    rw [List.append_cons, ← List.cons_append]
    exact .compiled (.intro hcompile hfaults hreserved) htail hmade
  rcases run_bind.1 h with ⟨e, rfl, hmake⟩ | ⟨object, before, after, rfl, hmake, hend⟩
  · rcases makeObject_cases hmake with ⟨hquiet, -⟩ | ⟨paths, drawn, answer, tail, hreserved, rfl, htail, -⟩
    · exact .stopped (hread.append hquiet) nofun
    · exact hcompiled hreserved htail nofun
  · rcases makeObject_cases hmake with ⟨-, e, he⟩ | ⟨paths, drawn, answer, tail, hreserved, rfl, htail, hok⟩
    · cases he
    obtain ⟨rfl, hdelivered⟩ := hok object rfl
    have hafter : Quiet after := by
      split_ifs at hend
      · exact ((isQuiet_emit _ _).bind fun _ => isQuiet_pure _) _ _ hend
      · exact isQuiet_pure _ _ _ hend
    rw [List.append_assoc, List.cons_append, List.cons_append]
    refine hcompiled hreserved (htail.append hafter) fun hstage result hr => ?_
    rw [if_neg (by rw [hstage]; decide)] at hend
    obtain ⟨rfl, rfl⟩ := run_pure.1 hend
    cases hr
    exact ⟨rfl, by rwa [List.append_nil]⟩

theorem compileUnit_run {c : Command} {base path src : String} {es : List Event} {r : Except ToolError UnitResult}
    (h : Run (compileUnit c base path src) es r) : UnitRun c base path (⟨.readSource path, Except.ok src⟩ :: es) r := by
  have hread : Quiet [⟨.readSource path, Except.ok src⟩] := quiet_singleton rfl
  unfold compileUnit at h
  cases hcompile : compile c.word src with
  | error faults =>
    simp only [hcompile] at h
    refine .stopped (hread.append (((isQuiet_report _ _ _).bind fun _ => isQuiet_pure _) _ _ h)) fun _ result hr => ?_
    subst hr
    obtain ⟨_, _, _, rfl, -, hend⟩ := run_bind_ok.1 h
    cases (run_pure.1 hend).2
    exact compile_error_ne_nil hcompile
  | ok compiled =>
    simp only [hcompile] at h
    by_cases hfaults : compiled.faults = []
    · rw [hfaults, report_nil] at h
      rcases run_bind.1 h with ⟨e, -, hreport⟩ | ⟨_, _, es, rfl, hreport, hrest⟩
      · cases (run_pure.1 hreport).2
      obtain ⟨rfl, -⟩ := run_pure.1 hreport
      by_cases hstage : c.stage = .source
      · rw [if_pos hstage] at hrest
        refine .stopped (hread.append (((isQuiet_emit _ _).bind fun _ => isQuiet_pure _) _ _ hrest)) fun hlink => ?_
        exact absurd (hstage.symm.trans hlink) (by decide)
      · rw [if_neg hstage, if_neg (by decide)] at hrest
        exact compiled_run hcompile hfaults hrest
    · have hquiet : Quiet es := by
        refine (isQuiet_report _ _ _).bind (fun _ => ?_) _ _ h
        by_cases hstage : c.stage = .source
        · rw [if_pos hstage]
          exact (isQuiet_emit _ _).bind fun _ => isQuiet_pure _
        · rw [if_neg hstage, if_pos (by simpa using hfaults)]
          exact isQuiet_pure _
      refine .stopped (hread.append hquiet) fun hstage result hr => ?_
      subst hr
      obtain ⟨_, _, _, rfl, -, hrest⟩ := run_bind_ok.1 h
      rw [if_neg (by rw [hstage]; decide), if_pos (by simpa using hfaults)] at hrest
      cases (run_pure.1 hrest).2
      exact hfaults

theorem unit_run {c : Command} {base path : String} {es : List Event} {r : Except ToolError UnitResult}
    (h : Run (unit c base path) es r) : UnitRun c base path es r := by
  rcases run_bind.1 h with ⟨e, rfl, hread⟩ | ⟨src, _, rest, rfl, hread, hrest⟩
  · obtain ⟨a, rfl, -⟩ := run_readSource.1 hread
    exact .stopped (quiet_singleton rfl) nofun
  obtain ⟨_ | src, rfl, ha⟩ := run_readSource.1 hread <;> cases ha
  have hquiet : Quiet [⟨.readSource path, Except.ok src⟩] := quiet_singleton rfl
  cases hstage : c.stage with
  | tokens =>
    simp only [hstage] at hrest
    refine .stopped (hquiet.append (isQuiet_listTokens _ _ _ _ hrest)) fun hlink => ?_
    exact absurd (hstage.symm.trans hlink) (by decide)
  | outline =>
    simp only [hstage] at hrest
    refine .stopped (hquiet.append (isQuiet_showOutline _ _ _ _ _ hrest)) fun hlink => ?_
    exact absurd (hstage.symm.trans hlink) (by decide)
  | source | objects | executable =>
    simp only [hstage] at hrest
    exact compileUnit_run hrest

theorem run_unit_of_made {c : Command} (hstage : c.stage = .executable) {base path object : String} {es : List Event}
    (h : Made c base path object es) : Run (unit c base path) es (.ok ⟨[], some object⟩) := by
  obtain @⟨paths, _, @⟨src, compiled, _, drawn, hcompile, hfaults, hreserved⟩, status⟩ := h
  have hunit : Run (compileUnit c base path src) (drawn ++ [⟨.writeFile paths.source compiled.output, Except.ok ()⟩,
      ⟨.runTool c.compiler paths.compileArgs, Except.ok status⟩, ⟨.fileExists paths.object, true⟩])
      (.ok ⟨[], some paths.object⟩) := by
    unfold compileUnit
    simp only [hcompile, hfaults, report_nil]
    refine run_bind_ok.2 ⟨(), [], _, rfl, run_pure.2 ⟨rfl, rfl⟩, ?_⟩
    rw [if_neg (by rw [hstage]; decide), if_neg (by decide)]
    refine run_bind_ok.2 ⟨paths.object, _, [], (List.append_nil _).symm,
      run_makeObject compiled.output hreserved status, ?_⟩
    rw [if_neg (by rw [hstage]; decide)]
    exact run_pure.2 ⟨rfl, rfl⟩
  rw [List.cons_append, List.cons_append, List.append_assoc]
  refine run_bind_ok.2 ⟨src, [_], _, rfl, run_readSource.2 ⟨.ok src, rfl, rfl⟩, ?_⟩
  rw [hstage]
  exact hunit

end Build
end Units
end Bitpack
