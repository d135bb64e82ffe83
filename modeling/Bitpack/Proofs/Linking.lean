import Mathlib
import Bitpack.Proofs.Objects

/-! When a build links. The linker is started once, at the end, if every input was read, had no problem and became an
object, and it is given these objects in the order of the inputs; the compiler is started only for inputs that had no
problem. This holds however files, tools and sinks behave. -/

namespace Bitpack

section Logs

/-- No program is started but to compile. -/
def Unlinked (es : List Event) : Prop :=
  ∀ e ∈ es, e.1.isLink = false

/-- Wherever a program is started to compile, one of the inputs was prepared for it just before. -/
def CompilesPrepared (c : Command) (base : String) (inputs : List String) (es : List Event) : Prop :=
  ∀ front e after, es = front ++ e :: after → e.1.isCompile → ∃ path ∈ inputs, ∃ paths attempt,
    Prepared c base path paths attempt ∧ attempt <:+ front ∧ e.1 = .runTool c.compiler paths.compileArgs

variable {c : Command} {base path : String} {inputs : List String} {es es' : List Event}

theorem Unlinked.append (h : Unlinked es) (h' : Unlinked es') : Unlinked (es ++ es') :=
  List.forall_mem_append.2 ⟨h, h'⟩

theorem Quiet.unlinked (h : Quiet es) : Unlinked es := by
  intro e he
  rw [Request.isLink, h e he]
  rfl

theorem Quiet.isCompile_eq_false (h : Quiet es) {e : Event} (he : e ∈ es) : e.1.isCompile = false := by
  have htool := h e he
  obtain ⟨q, answer⟩ := e
  cases q <;> first | rfl | cases htool

theorem compilesPrepared_of_isCompile (h : ∀ e ∈ es, e.1.isCompile = false) : CompilesPrepared c base inputs es := by
  rintro front e after rfl he
  exact absurd he (by simp [h])

theorem Quiet.compilesPrepared (h : Quiet es) : CompilesPrepared c base inputs es :=
  compilesPrepared_of_isCompile fun _ => h.isCompile_eq_false

theorem CompilesPrepared.append (h : CompilesPrepared c base inputs es) (h' : CompilesPrepared c base inputs es') :
    CompilesPrepared c base inputs (es ++ es') := by
  intro front e after hes he
  rcases List.append_eq_append_iff.1 hes with ⟨front', rfl, hes'⟩ | ⟨_ | ⟨e', back⟩, rfl, hback⟩
  · obtain ⟨path, hpath, paths, attempt, hprepared, hattempt, hargs⟩ := h' front' e after hes' he
    exact ⟨path, hpath, paths, attempt, hprepared, hattempt.trans (List.suffix_append _ _), hargs⟩
  · obtain ⟨path, hpath, paths, attempt, hprepared, hattempt, hargs⟩ := h' [] e after hback.symm he
    exact ⟨path, hpath, paths, attempt, hprepared, hattempt.trans (List.nil_suffix), hargs⟩
  · obtain ⟨rfl, -⟩ := List.cons.inj hback
    exact h front e back rfl he

theorem CompilesPrepared.mono (h : CompilesPrepared c base inputs es) {inputs' : List String}
    (hinputs : ∀ path ∈ inputs, path ∈ inputs') : CompilesPrepared c base inputs' es := by
  intro front e after hes he
  obtain ⟨path, hpath, hrest⟩ := h front e after hes he
  exact ⟨path, hinputs path hpath, hrest⟩

theorem Reserved.quiet {n : ℕ} {paths : UnitPaths} (h : Reserved base n paths es) : Quiet es :=
  UnitPaths.isQuiet_reserveWithin base n es _ (UnitPaths.run_reserveWithin.2 h)

theorem Prepared.quiet {paths : UnitPaths} (h : Prepared c base path paths es) : Quiet es := by
  obtain ⟨-, -, hreserved⟩ := h
  exact (Quiet.append (quiet_singleton rfl) hreserved.quiet).append (quiet_singleton rfl)

theorem UnitRun.unlinked {r : Except ToolError UnitResult} (h : UnitRun c base path es r) : Unlinked es := by
  cases h with
  | stopped hquiet => exact hquiet.unlinked
  | compiled hprepared htail =>
    exact hprepared.quiet.unlinked.append (List.forall_mem_cons.2 ⟨rfl, htail.unlinked⟩)

theorem UnitRun.compilesPrepared {r : Except ToolError UnitResult} (h : UnitRun c base path es r) :
    CompilesPrepared c base [path] es := by
  cases h with
  | stopped hquiet => exact hquiet.compilesPrepared
  | @compiled paths attempt tail answer _ hprepared htail =>
    -- The compiler is started at one point only, since nothing else is started before or after it.
    intro front e after hes he
    refine ⟨path, List.mem_singleton_self path, paths, attempt, hprepared, ?_⟩
    rcases List.append_eq_append_iff.1 hes with ⟨_ | ⟨e', front'⟩, rfl, hrest⟩ | ⟨_ | ⟨e', back⟩, rfl, hback⟩
    · cases hrest
      exact ⟨by rw [List.append_nil], rfl⟩
    · cases hrest
      exact absurd he (by simp [htail.isCompile_eq_false])
    · cases hback
      exact ⟨by rw [List.append_nil], rfl⟩
    · cases hback
      exact absurd he (by simp [hprepared.quiet.isCompile_eq_false])

end Logs

section Tallies

namespace Tally

theorem mayLink_record (t : Tally) (category : Category) : (t.record category).mayLink = false := by
  unfold record mayLink
  split_ifs <;> simp

theorem mayLink_of_recordAll {ds : List Diagnostic} :
    ∀ {t : Tally}, (t.recordAll ds).mayLink → t.mayLink ∧ ds = [] := by
  induction ds with
  | nil => exact fun h => ⟨h, rfl⟩
  | cons d ds ih =>
    intro t h
    have hstart := (ih (t := t.record d.cause.category) h).1
    rw [mayLink_record] at hstart
    cases hstart

end Tally
end Tallies

section Builds

variable {c : Command} {base : String}

/-- The inputs become objects, one after the other: their objects, each with what was done for it. -/
def MadeAll (c : Command) (base : String) (inputs : List String) (made : List (String × List Event)) : Prop :=
  List.Forall₂ (fun path m => Made c base path m.1 m.2) inputs made

namespace Build

theorem units_cons {tally : Tally} {objects : List String} {path : String} {rest : List String} {es : List Event}
    {r : Except ToolError (Tally × List String)} (h : Run (units c base tally objects (path :: rest)) es r) :
    ∃ first later answer, es = first ++ later ∧ UnitRun c base path first answer ∧
      ((∃ result, answer = .ok result ∧
        Run (units c base (tally.recordAll result.faults) (objects ++ result.object.toList) rest) later r) ∨
      (∃ told after, later = told ++ after ∧ Quiet told ∧
        Run (units c base (tally.record .tool) objects rest) after r) ∨
      Quiet later ∧ ∃ e, r = .error e) := by
  rcases run_bind.1 h with ⟨e, -, hlift⟩ | ⟨answer, first, later, rfl, hlift, hrest⟩
  · obtain ⟨_, -, he⟩ := run_liftRun.1 hlift
    cases he
  obtain ⟨_, hunit, ha⟩ := run_liftRun.1 hlift
  cases ha
  refine ⟨first, later, answer, rfl, unit_run hunit, ?_⟩
  have htold : ∀ {text : String}, Run (emit .diagnostics text >>= fun _ =>
      units c base (tally.record .tool) objects rest) later r →
      (∃ told after, later = told ++ after ∧ Quiet told ∧
        Run (units c base (tally.record .tool) objects rest) after r) ∨ Quiet later ∧ ∃ e, r = .error e := by
    intro text hrun
    rcases run_bind.1 hrun with ⟨e, rfl, hemit⟩ | ⟨_, told, after, rfl, hemit, hafter⟩
    · exact Or.inr ⟨isQuiet_emit _ _ _ _ hemit, e, rfl⟩
    · exact Or.inl ⟨told, after, rfl, isQuiet_emit _ _ _ _ hemit, hafter⟩
  cases answer with
  | ok result => exact Or.inl ⟨result, rfl, hrest⟩
  | error e =>
    cases e with
    | output reason =>
      obtain ⟨rfl, rfl⟩ := run_throw.1 hrest
      exact Or.inr (Or.inr ⟨quiet_nil, _, rfl⟩)
    | read | write | random | tempPathsExhausted | spawn | compile | link => exact Or.inr (htold hrest)

theorem units_unlinked {inputs : List String} : ∀ {tally : Tally} {objects : List String} {es : List Event}
    {r : Except ToolError (Tally × List String)}, Run (units c base tally objects inputs) es r →
      Unlinked es ∧ CompilesPrepared c base inputs es := by
  induction inputs with
  | nil =>
    intro tally objects es r h
    obtain ⟨rfl, -⟩ := run_pure.1 h
    exact ⟨quiet_nil.unlinked, quiet_nil.compilesPrepared⟩
  | cons path rest ih =>
    intro tally objects es r h
    have hrest : ∀ {es}, CompilesPrepared c base rest es → CompilesPrepared c base (path :: rest) es :=
      fun h => h.mono fun _ => List.mem_cons_of_mem path
    obtain ⟨first, later, answer, rfl, hfirst, hlater⟩ := units_cons h
    have hprepared : CompilesPrepared c base (path :: rest) first :=
      hfirst.compilesPrepared.mono fun _ hpath => List.mem_cons.2 (Or.inl (List.mem_singleton.1 hpath))
    rcases hlater with ⟨result, -, hrun⟩ | ⟨told, after, rfl, htold, hrun⟩ | ⟨hquiet, -⟩
    · obtain ⟨hlink, hcompile⟩ := ih hrun
      exact ⟨hfirst.unlinked.append hlink, hprepared.append (hrest hcompile)⟩
    · obtain ⟨hlink, hcompile⟩ := ih hrun
      exact ⟨hfirst.unlinked.append (htold.unlinked.append hlink),
        hprepared.append (htold.compilesPrepared.append (hrest hcompile))⟩
    · exact ⟨hfirst.unlinked.append hquiet.unlinked, hprepared.append hquiet.compilesPrepared⟩

theorem units_made (hstage : c.stage = .executable) {inputs : List String} : ∀ {tally tally' : Tally}
    {objects objects' : List String} {es : List Event},
    Run (units c base tally objects inputs) es (.ok (tally', objects')) → tally'.mayLink →
      tally.mayLink ∧ ∃ made, MadeAll c base inputs made ∧ es = made.flatMap (·.2) ∧
        objects' = objects ++ made.map (·.1) := by
  induction inputs with
  | nil =>
    intro tally tally' objects objects' es h hlink
    obtain ⟨rfl, hr⟩ := run_pure.1 h
    cases hr
    exact ⟨hlink, [], .nil, rfl, (List.append_nil _).symm⟩
  | cons path rest ih =>
    intro tally tally' objects objects' es h hlink
    obtain ⟨first, later, answer, rfl, hfirst, hlater⟩ := units_cons h
    rcases hlater with ⟨result, rfl, hrun⟩ | ⟨told, after, rfl, htold, hrun⟩ | ⟨-, e, he⟩
    · obtain ⟨htally, made, hmade, rfl, rfl⟩ := ih hrun hlink
      obtain ⟨htally, hfaults⟩ := Tally.mayLink_of_recordAll htally
      cases hfirst with
      | stopped hquiet hnone => exact absurd hfaults (hnone hstage result rfl)
      | @compiled paths front tail answer _ hprepared htail hok =>
        obtain ⟨rfl, status, rfl, rfl⟩ := hok hstage result rfl
        exact ⟨htally, (paths.object, front ++ [_, _]) :: made, .cons (.intro hprepared status) hmade, rfl,
          List.append_assoc _ _ _⟩
    · have hstart := (ih hrun hlink).1
      rw [Tally.mayLink_record] at hstart
      cases hstart
    · cases he

theorem run_units_of_madeAll (hstage : c.stage = .executable) {inputs : List String}
    {made : List (String × List Event)} (h : MadeAll c base inputs made) : ∀ (tally : Tally) (objects : List String),
      Run (units c base tally objects inputs) (made.flatMap (·.2)) (.ok (tally, objects ++ made.map (·.1))) := by
  induction h with
  | nil =>
    intro tally objects
    exact run_pure.2 ⟨rfl, by rw [List.map_nil, List.append_nil]⟩
  | @cons path m inputs made hpath _ ih =>
    intro tally objects
    refine run_bind_ok.2 ⟨.ok ⟨[], some m.1⟩, m.2, _, rfl,
      run_liftRun.2 ⟨_, run_unit_of_made hstage hpath, rfl⟩, ?_⟩
    have hrest := ih tally (objects ++ [m.1])
    rw [List.append_assoc] at hrest
    exact hrest

theorem link_run {t : Toolchain} {objects : List String} {output : String} {es : List Event}
    {r : Except ToolError Unit} (h : Run (t.link objects output) es r) : ∃ answer : Except String ExitStatus,
      es = [⟨.runTool t.compiler (["-static", "-nostartfiles", "-e", t.entry] ++ objects ++ ["-o", output]),
        answer⟩] := by
  rcases run_bind.1 h with ⟨e, -, htool⟩ | ⟨status, _, after, rfl, htool, hend⟩
  · obtain ⟨answer, rfl, -⟩ := run_runTool.1 htool
    exact ⟨answer, rfl⟩
  · obtain ⟨answer, rfl, -⟩ := run_runTool.1 htool
    have hafter : after = [] := by
      split_ifs at hend
      · exact (run_throw.1 hend).1
      · exact (run_pure.1 hend).1
    exact ⟨answer, by rw [hafter]; rfl⟩

end Build
end Builds

section Commands

/-- The arguments with which objects are linked. -/
def Command.linkArgs (c : Command) (objects : List String) : List String :=
  ["-static", "-nostartfiles", "-e", c.entry] ++ objects ++ ["-o", c.output]

/-- What the temporary files of a command begin with. -/
def Command.base (c : Command) (tempDir : String) : String :=
  joinPath (c.tempDir.getD tempDir) "bitc-"

/-- All that a command asks for and how it is answered, in order. -/
def Command.log (c : Command) (tempDir : String) (world : World) : List Event :=
  (((c.plan tempDir).run.perform world.answer).run []).2

variable {c : Command} {tempDir : String} {log : List Event} {r : Except ToolError Tally}

theorem Command.run_log (c : Command) (tempDir : String) (world : World) :
    ∃ r, Build.Run (c.plan tempDir) (c.log tempDir world) r :=
  Build.run_perform world (c.plan tempDir)

theorem Command.plan_eq (tempDir : String) (hsymbol : c.symbol = none) : c.plan tempDir =
    Build.units c (c.base tempDir) Tally.empty [] c.inputs >>= fun p =>
      if c.stage = .executable then Build.linkAll c p.1 p.2 >>= fun _ => pure p.1 else pure p.1 := by
  unfold Command.plan
  rw [hsymbol]
  rfl

/-- The end of a build that is to link: either it is told that nothing is linked, or the linker is started. -/
theorem Command.linkAll_run {tally : Tally} {objects : List String}
    (h : Build.Run (Build.linkAll c tally objects >>= fun _ => pure tally) log r) :
    tally.mayLink = false ∧ Quiet log ∨ tally.mayLink ∧ ∃ answer : Except String ExitStatus,
      log = [⟨.runTool c.compiler (c.linkArgs objects), answer⟩] := by
  have hlink : ∃ r, Build.Run (Build.linkAll c tally objects) log r := by
    rcases Build.run_bind.1 h with ⟨e, -, hlink⟩ | ⟨a, before, _, rfl, hlink, hend⟩
    · exact ⟨_, hlink⟩
    · obtain ⟨rfl, -⟩ := Build.run_pure.1 hend
      exact ⟨_, by rwa [List.append_nil]⟩
  obtain ⟨r, hlink⟩ := hlink
  unfold Build.linkAll at hlink
  split_ifs at hlink with hmay
  · exact Or.inr ⟨hmay, Build.link_run hlink⟩
  · exact Or.inl ⟨Bool.eq_false_iff.2 hmay, Build.isQuiet_emit _ _ _ _ hlink⟩

theorem Command.plan_run (hsymbol : c.symbol = none) (h : Build.Run (c.plan tempDir) log r) :
    CompilesPrepared c (c.base tempDir) c.inputs log ∧
    (Unlinked log ∨ c.stage = .executable ∧ ∃ made, MadeAll c (c.base tempDir) c.inputs made ∧
      ∃ answer : Except String ExitStatus,
        log = made.flatMap (·.2) ++ [⟨.runTool c.compiler (c.linkArgs (made.map (·.1))), answer⟩]) := by
  rw [c.plan_eq tempDir hsymbol] at h
  rcases Build.run_bind.1 h with ⟨e, -, hunits⟩ | ⟨⟨tally, objects⟩, es, after, rfl, hunits, hend⟩
  · obtain ⟨hlink, hcompile⟩ := Build.units_unlinked hunits
    exact ⟨hcompile, Or.inl hlink⟩
  obtain ⟨hlink, hcompile⟩ := Build.units_unlinked hunits
  by_cases hstage : c.stage = .executable
  · rw [if_pos hstage] at hend
    rcases linkAll_run hend with ⟨-, hquiet⟩ | ⟨hmay, answer, rfl⟩
    · exact ⟨hcompile.append hquiet.compilesPrepared, Or.inl (hlink.append hquiet.unlinked)⟩
    · obtain ⟨-, made, hmade, rfl, rfl⟩ := Build.units_made hstage hunits hmay
      refine ⟨hcompile.append (compilesPrepared_of_isCompile ?_), Or.inr ⟨hstage, made, hmade, answer, rfl⟩⟩
      exact List.forall_mem_singleton.2 rfl
  · rw [if_neg hstage] at hend
    obtain ⟨rfl, -⟩ := Build.run_pure.1 hend
    rw [List.append_nil]
    exact ⟨hcompile, Or.inl hlink⟩

theorem Command.links_of_madeAll (hsymbol : c.symbol = none) (hstage : c.stage = .executable)
    (h : Build.Run (c.plan tempDir) log r) (made : List (String × List Event))
    (hmade : MadeAll c (c.base tempDir) c.inputs made) (hlog : made.flatMap (·.2) <+: log) :
    ∃ e ∈ log, e.1.isLink := by
  obtain ⟨rest, rfl⟩ := hlog
  have hall := Build.run_units_of_madeAll hstage hmade Tally.empty []
  rw [c.plan_eq tempDir hsymbol] at h
  rcases Build.run_bind.1 h with ⟨e, -, hunits⟩ | ⟨⟨tally, objects⟩, es, after, heq, hunits, hend⟩
  · obtain ⟨-, he⟩ := Build.Run.unique hall hunits (List.append_nil _).symm
    cases he
  · obtain ⟨rfl, hr⟩ := Build.Run.unique hall hunits heq
    cases hr
    rw [if_pos hstage] at hend
    rcases linkAll_run hend with ⟨hmay, -⟩ | ⟨-, answer, rfl⟩
    · cases hmay
    · refine ⟨_, heq ▸ List.mem_append_right _ List.mem_cons_self, rfl⟩

/-- Text is written to a sink. -/
def Request.isEmit : Request → Bool
  | .emit .. => true
  | .readSource _ | .drawId | .createFile _ | .writeFile .. | .fileExists _ | .runTool .. => false

theorem Event.isEmit_of_writeFailed {e : Event} (h : e.WriteFailed) : e.1.isEmit := by
  obtain ⟨sink, text, reason, rfl⟩ := h
  rfl

theorem Reserved.isEmit_eq_false {base : String} {n : ℕ} {paths : UnitPaths} {es : List Event}
    (h : Reserved base n paths es) : ∀ e ∈ es, e.1.isEmit = false := by
  induction h with
  | created => simp [Request.isEmit]
  | taken id h ih => exact List.forall_mem_cons.2 ⟨rfl, List.forall_mem_cons.2 ⟨rfl, ih⟩⟩

theorem Made.isEmit_eq_false {c : Command} {base path object : String} {es : List Event}
    (h : Made c base path object es) : ∀ e ∈ es, e.1.isEmit = false := by
  obtain ⟨⟨-, -, hreserved⟩, status⟩ := h
  refine List.forall_mem_append.2 ⟨List.forall_mem_append.2 ⟨?_, ?_⟩, ?_⟩
  · exact List.forall_mem_cons.2 ⟨rfl, hreserved.isEmit_eq_false⟩
  · exact List.forall_mem_singleton.2 rfl
  · exact List.forall_mem_cons.2 ⟨rfl, List.forall_mem_singleton.2 rfl⟩

theorem MadeAll.isEmit_eq_false {c : Command} {base : String} {inputs : List String}
    {made : List (String × List Event)} (h : MadeAll c base inputs made) :
    ∀ e ∈ made.flatMap (·.2), e.1.isEmit = false := by
  induction h with
  | nil => exact List.forall_mem_nil _
  | cons hpath _ ih => exact List.forall_mem_append.2 ⟨hpath.isEmit_eq_false, ih⟩

theorem MadeAll.unlinked {c : Command} (hstage : c.stage = .executable) {base : String} {inputs : List String}
    {made : List (String × List Event)} (h : MadeAll c base inputs made) : Unlinked (made.flatMap (·.2)) :=
  (Build.units_unlinked (Build.run_units_of_madeAll hstage h Tally.empty [])).1

/-- Whatever the machine does: the objects are linked if and only if no sink failed and every input was read, had no
problem and became an object. The linker is then started once, after all this, for exactly these objects in the order
of the inputs, and at no other stage. The compiler is started only for inputs that were read without a problem. -/
theorem link_gate (c : Command) (tempDir : String) (world : World) (hsymbol : c.symbol = none) :
    (c.stage = .executable → ((∃ e ∈ c.log tempDir world, e.1.isLink) ↔
      (∀ e ∈ c.log tempDir world, ¬ e.WriteFailed) ∧
      ∃ made, MadeAll c (c.base tempDir) c.inputs made ∧ made.flatMap (·.2) <+: c.log tempDir world)) ∧
    (c.log tempDir world).countP (·.1.isLink) ≤ 1 ∧
    (∀ e ∈ c.log tempDir world, e.1.isLink → c.stage = .executable ∧
      ∃ made, MadeAll c (c.base tempDir) c.inputs made ∧ c.log tempDir world = made.flatMap (·.2) ++ [e] ∧
        e.1 = .runTool c.compiler (c.linkArgs (made.map (·.1)))) ∧
    CompilesPrepared c (c.base tempDir) c.inputs (c.log tempDir world) := by
  obtain ⟨r, hrun⟩ := c.run_log tempDir world
  have hgate := fun hstage => Command.links_of_madeAll hsymbol hstage hrun
  obtain ⟨hcompiles, hcases⟩ := Command.plan_run hsymbol hrun
  generalize c.log tempDir world = log at *
  rcases hcases with hlink | ⟨hstage, made, hmade, answer, rfl⟩
  · have hnone : ∀ {e}, e ∈ log → ¬ e.1.isLink := fun he => by simp [hlink _ he]
    refine ⟨fun hstage => ⟨?_, ?_⟩, ?_, fun e he h => absurd h (hnone he), hcompiles⟩
    · rintro ⟨e, he, h⟩
      exact absurd h (hnone he)
    · rintro ⟨-, made, hmade, hlog⟩
      exact hgate hstage made hmade hlog
    · rw [List.countP_eq_zero.2 fun e he => hnone he]
      exact Nat.zero_le 1
  · have hnone : ∀ e ∈ made.flatMap (·.2), ¬ e.1.isLink := fun e he => by simp [hmade.unlinked hstage e he]
    refine ⟨fun _ => ⟨fun _ => ⟨?_, made, hmade, List.prefix_append _ _⟩, ?_⟩, ?_, ?_, hcompiles⟩
    · intro e he hfailed
      have hemit := Event.isEmit_of_writeFailed hfailed
      rcases List.mem_append.1 he with he | he
      · exact absurd hemit (by simp [hmade.isEmit_eq_false e he])
      · obtain rfl := List.mem_singleton.1 he
        cases hemit
    · exact fun _ => ⟨_, List.mem_append_right _ List.mem_cons_self, rfl⟩
    · rw [List.countP_append, List.countP_eq_zero.2 hnone, List.countP_singleton]
      split_ifs <;> omega
    · intro e he h
      rcases List.mem_append.1 he with he | he
      · exact absurd h (hnone e he)
      · obtain rfl := List.mem_singleton.1 he
        exact ⟨hstage, made, hmade, rfl, rfl⟩

/-- A machine on which everything succeeds and every input is `src`. -/
def World.smooth (src : String) : World := fun past q =>
  match q with
  | .readSource _ => Except.ok src
  | .drawId => Except.ok past.length.toUInt64
  | .createFile _ => Creation.created
  | .writeFile .. => Except.ok ()
  | .fileExists _ => true
  | .runTool .. => Except.ok (.exited 0)
  | .emit .. => Except.ok ()

/-- Two inputs that become objects and are linked. -/
theorem link_gate_of_smooth :
    ∃ made, MadeAll { inputs := ["a", "b"] } "/tmp/bitc-" ["a", "b"] made ∧
      made.flatMap (·.2) <+: Command.log { inputs := ["a", "b"] } "/tmp" (.smooth "object 8 A;8 f();") := by
  have hlinks : ∃ e ∈ Command.log { inputs := ["a", "b"] } "/tmp" (.smooth "object 8 A;8 f();"), e.1.isLink := by
    decide +kernel
  have hbase : Command.base { inputs := ["a", "b"] } "/tmp" = "/tmp/bitc-" := by decide +kernel
  rw [← hbase]
  exact (((link_gate { inputs := ["a", "b"] } "/tmp" (.smooth "object 8 A;8 f();") rfl).1 rfl).1 hlinks).2

end Commands
end Bitpack
