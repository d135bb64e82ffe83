import Mathlib
import Bitpack.Build.Run

/-! Runs of plans. A run is what was asked, with the answers, in order, and what came of it. Each way in which a
machine may answer gives one run, and the answers determine it. -/

namespace Bitpack

/-- A request and the answer to it. -/
abbrev Event := (q : Request) × q.Answer

/-- How a machine answers a request after all that was asked before. -/
abbrev World := List Event → (q : Request) → q.Answer

/-- Answers a request and writes it down. -/
def World.answer (world : World) (q : Request) : StateM (List Event) q.Answer := do
  let past ← get
  set (past ++ [(⟨q, world past q⟩ : Event)])
  return world past q

namespace Plan

variable {α β : Type}

/-- The plan may ask what is asked in `es`, and ends with `a` if it is answered as there. -/
def Run : Plan α → List Event → α → Prop
  | .done a, es, b => es = [] ∧ b = a
  | .ask q next, es, b => ∃ r es', es = ⟨q, r⟩ :: es' ∧ (next r).Run es' b

theorem run_pure {a b : α} {es : List Event} : Run (pure a : Plan α) es b ↔ es = [] ∧ b = a :=
  Iff.rfl

theorem run_request {q : Request} {es : List Event} {a : q.Answer} : Run (request q) es a ↔ es = [⟨q, a⟩] := by
  constructor
  · rintro ⟨r, es', rfl, rfl, rfl⟩
    rfl
  · rintro rfl
    exact ⟨a, [], rfl, rfl, rfl⟩

/-- A run of two plans in a row is a run of the first and then one of the second. -/
theorem run_bind {p : Plan α} {f : α → Plan β} {b : β} : ∀ {es : List Event}, Run (p >>= f) es b ↔
    ∃ a before after, es = before ++ after ∧ p.Run before a ∧ (f a).Run after b := by
  induction p with
  | done a =>
    intro es
    constructor
    · exact fun h => ⟨a, [], es, rfl, ⟨rfl, rfl⟩, h⟩
    · rintro ⟨a', before, after, rfl, ⟨rfl, rfl⟩, h⟩
      exact h
  | ask q next ih =>
    intro es
    constructor
    · rintro ⟨r, es', rfl, h⟩
      obtain ⟨a, before, after, rfl, hp, hf⟩ := (ih r).1 h
      exact ⟨a, ⟨q, r⟩ :: before, after, rfl, ⟨r, before, rfl, hp⟩, hf⟩
    · rintro ⟨a, _, after, rfl, ⟨r, before, rfl, hp⟩, hf⟩
      exact ⟨r, before ++ after, rfl, (ih r).2 ⟨a, before, after, rfl, hp, hf⟩⟩

theorem Run.unique {p : Plan α} {a a' : α} : ∀ {es es' rest rest' : List Event}, p.Run es a → p.Run es' a' →
    es ++ rest = es' ++ rest' → es = es' ∧ a = a' := by
  induction p with
  | done b =>
    rintro es es' rest rest' ⟨rfl, rfl⟩ ⟨rfl, rfl⟩ -
    exact ⟨rfl, rfl⟩
  | ask q next ih =>
    rintro _ _ rest rest' ⟨r, es, rfl, h⟩ ⟨r', es', rfl, h'⟩ heq
    rw [List.cons_append, List.cons_append] at heq
    obtain ⟨hevent, hrest⟩ := List.cons.inj heq
    cases hevent
    obtain ⟨rfl, rfl⟩ := ih r h h' hrest
    exact ⟨rfl, rfl⟩

theorem run_perform (world : World) (p : Plan α) : ∀ past : List Event, ∃ es,
    ((p.perform world.answer).run past).2 = past ++ es ∧ p.Run es ((p.perform world.answer).run past).1 := by
  induction p with
  | done a => exact fun past => ⟨[], (List.append_nil past).symm, rfl, rfl⟩
  | ask q next ih =>
    intro past
    obtain ⟨es, hes, hrun⟩ := ih (world past q) (past ++ [⟨q, world past q⟩])
    refine ⟨⟨q, world past q⟩ :: es, ?_, world past q, es, rfl, hrun⟩
    rw [List.append_cons]
    exact hes

end Plan

namespace Build

variable {α β : Type} {es : List Event}

/-- A run of a plan that may fail. -/
def Run (x : Build α) (es : List Event) (r : Except ToolError α) : Prop :=
  Plan.Run x.run es r

theorem run_pure {a : α} {r : Except ToolError α} : Run (pure a) es r ↔ es = [] ∧ r = .ok a :=
  Iff.rfl

theorem run_throw {e : ToolError} {r : Except ToolError α} : Run (throw e) es r ↔ es = [] ∧ r = .error e :=
  Iff.rfl

theorem run_lift {p : Plan α} {r : Except ToolError α} : Run (ExceptT.lift p) es r ↔ ∃ a, p.Run es a ∧ r = .ok a := by
  refine Plan.run_bind.trans ⟨?_, ?_⟩
  · rintro ⟨a, before, after, rfl, hp, rfl, rfl⟩
    exact ⟨a, by rwa [List.append_nil], rfl⟩
  · rintro ⟨a, hp, rfl⟩
    exact ⟨a, es, [], (List.append_nil es).symm, hp, rfl, rfl⟩

theorem run_liftRun {x : Build α} {r : Except ToolError (Except ToolError α)} :
    Run (ExceptT.lift x.run) es r ↔ ∃ a, Run x es a ∧ r = .ok a :=
  run_lift

theorem run_bind {x : Build α} {f : α → Build β} {r : Except ToolError β} : Run (x >>= f) es r ↔
    (∃ e, r = .error e ∧ Run x es (.error e)) ∨
    ∃ a before after, es = before ++ after ∧ Run x before (.ok a) ∧ Run (f a) after r := by
  refine Plan.run_bind.trans ⟨?_, ?_⟩
  · rintro ⟨a | a, before, after, rfl, hx, hf⟩
    · obtain ⟨rfl, rfl⟩ := hf
      exact Or.inl ⟨a, rfl, by rwa [List.append_nil]⟩
    · exact Or.inr ⟨a, before, after, rfl, hx, hf⟩
  · rintro (⟨e, rfl, hx⟩ | ⟨a, before, after, rfl, hx, hf⟩)
    · exact ⟨.error e, es, [], (List.append_nil es).symm, hx, rfl, rfl⟩
    · exact ⟨.ok a, before, after, rfl, hx, hf⟩

theorem run_bind_ok {x : Build α} {f : α → Build β} {b : β} : Run (x >>= f) es (.ok b) ↔
    ∃ a before after, es = before ++ after ∧ Run x before (.ok a) ∧ Run (f a) after (.ok b) := by
  refine run_bind.trans ⟨?_, Or.inr⟩
  rintro (⟨e, he, -⟩ | h)
  · cases he
  · exact h

theorem run_orThrow {error : String → ToolError} {p : Plan (Except String α)} {r : Except ToolError α} :
    Run (orThrow error p) es r ↔ ∃ a, p.Run es a ∧ r = a.mapError error := by
  refine run_bind.trans ⟨?_, ?_⟩
  · rintro (⟨e, -, h⟩ | ⟨a, before, after, rfl, hp, h⟩)
    · obtain ⟨_, _, h⟩ := run_lift.1 h
      cases h
    · obtain ⟨a, hp, h'⟩ := run_lift.1 hp
      cases h'
      cases a with
      | ok a =>
        obtain ⟨rfl, rfl⟩ := h
        exact ⟨.ok a, by rwa [List.append_nil], rfl⟩
      | error reason =>
        obtain ⟨rfl, rfl⟩ := h
        exact ⟨.error reason, by rwa [List.append_nil], rfl⟩
  · rintro ⟨a, hp, rfl⟩
    refine Or.inr ⟨a, es, [], (List.append_nil es).symm, run_lift.2 ⟨a, hp, rfl⟩, ?_⟩
    cases a <;> exact ⟨rfl, rfl⟩

theorem run_readSource {path : String} {r : Except ToolError String} : Run (readSource path) es r ↔
    ∃ a : Except String String, es = [⟨.readSource path, a⟩] ∧ r = a.mapError (.read path) :=
  run_orThrow.trans (exists_congr fun _ => and_congr_left' Plan.run_request)

theorem run_drawId {r : Except ToolError UInt64} : Run drawId es r ↔
    ∃ a : Except String UInt64, es = [⟨.drawId, a⟩] ∧ r = a.mapError .random :=
  run_orThrow.trans (exists_congr fun _ => and_congr_left' Plan.run_request)

theorem run_writeFile {path text : String} {r : Except ToolError Unit} : Run (writeFile path text) es r ↔
    ∃ a : Except String Unit, es = [⟨.writeFile path text, a⟩] ∧ r = a.mapError (.write path) :=
  run_orThrow.trans (exists_congr fun _ => and_congr_left' Plan.run_request)

theorem run_runTool {program : String} {args : List String} {r : Except ToolError ExitStatus} :
    Run (runTool program args) es r ↔
      ∃ a : Except String ExitStatus, es = [⟨.runTool program args, a⟩] ∧ r = a.mapError (.spawn program) :=
  run_orThrow.trans (exists_congr fun _ => and_congr_left' Plan.run_request)

theorem run_createFile {path : String} {r : Except ToolError Creation} : Run (createFile path) es r ↔
    ∃ a : Creation, es = [⟨.createFile path, a⟩] ∧ r = .ok a :=
  run_lift.trans (exists_congr fun _ => and_congr_left' Plan.run_request)

theorem run_fileExists {path : String} {r : Except ToolError Bool} : Run (fileExists path) es r ↔
    ∃ a : Bool, es = [⟨.fileExists path, a⟩] ∧ r = .ok a :=
  run_lift.trans (exists_congr fun _ => and_congr_left' Plan.run_request)

theorem Run.unique {x : Build α} {r r' : Except ToolError α} {es' rest rest' : List Event} (h : Run x es r)
    (h' : Run x es' r') (heq : es ++ rest = es' ++ rest') : es = es' ∧ r = r' :=
  Plan.Run.unique h h' heq

/-- Where a plan is carried out, what is written down is a run of it. -/
theorem run_perform (world : World) (x : Build α) :
    ∃ r, Run x ((x.run.perform world.answer).run []).2 r := by
  obtain ⟨es, hes, hrun⟩ := Plan.run_perform world x.run []
  rw [hes]
  exact ⟨_, hrun⟩

-- From here on runs are taken apart by the statements above only.
attribute [irreducible] Run

end Build
end Bitpack
