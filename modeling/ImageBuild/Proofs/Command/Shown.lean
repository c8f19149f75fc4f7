import ImageBuild.Proofs.Command.Outcome
import ImageBuild.Proofs.Engine.Output
import ImageBuild.Proofs.Solve.Success

/-!
# `ImageBuild.Proofs.Command.Shown`: what a build shows of its engine's output

A build that succeeds answers for the whole way from the output of the engine program to what the
user sees. On that way lie the reading of the lines (`Proofs/Engine/Output`), the engine of a
scripted solve (`Proofs/Solve/Scripted`), the tasks and their relay (`Proofs/Solve/Success`) and
the renderer.

* `Solve.Stage.Follows.of_succeeded`: in a scripted solve that succeeded the engine returned well,
  and the renderer that keeps listening gets all that was sent.
* `Engine.exists_does_engineScript`: a request that cannot be written is a breach of the protocol
  before any batch, so every engine does what some output says.
* `build_showsOutput`: a build succeeds only if the first terminal line of the output says that
  the solve is done, and then the progress that it printed is that of the batches before this
  line, all of them and in order. Whatever becomes of a build, it prints the progress of a leading
  part of these batches.
-/

set_option autoImplicit false

namespace ImageBuild

open Progress (StatusResponse translate)

/-! ### Scripted solves that succeed -/

namespace Solve.Stage.Follows

variable {s : Script} {g : Stage}

/-- What a scripted solve says of itself is so. -/
theorem exists_truthful (h : g.Follows s) :
    ∃ steps, g.run = (startRun s).advance steps ∧ (startRun s).Truthful steps := by
  obtain ⟨steps, hsteps⟩ := h.reached
  exact ⟨steps, hsteps, (invariant_startRun s).truthful rfl rfl steps⟩

/-- After success the engine has returned well, and a renderer that does not hang up gets all that
it sent. -/
theorem of_succeeded (h : g.Follows s) (htake : s.renderer.take = none)
    (hok : g.run.result = some (.ok ())) :
    g.run.EngineReturned .ok ∧ g.run.rendered none = g.run.relay.sent.map translate := by
  have hup := h.listens htake
  obtain ⟨steps, hsteps, htruthful⟩ := h.exists_truthful
  rw [hsteps] at hok hup ⊢
  have hreturns := ((htruthful.ok_iff _ hok).mp rfl).1
  have hnot : ¬ (startRun s).EngineReturned .ok := (invariant_startRun s).not_engineReturned rfl
  exact ⟨(SolveRun.engineReturned_iff (invariant_startRun s) hnot).mp hreturns,
    (htruthful.delivered hok hup).1⟩

end Solve.Stage.Follows

/-! ### What an engine does with an output -/

namespace Engine

/-- A request that cannot be written is a breach of the protocol before any batch. -/
theorem does_engineScript_unwritten (b : Behaviour) :
    Does (Program.engineScript false b) [] b.exit .malformed where
  sendings := rfl
  returns how := by
    constructor
    · rintro ⟨-, rfl⟩
      exact .malformed
    · intro h
      cases h with
      | malformed => exact ⟨rfl, rfl⟩

/-- With or without a request, the engine does what an output says that brings a leading part of
the batches. It says that it is done only with a request, and if its own output does. -/
theorem exists_does_engineScript {o : OutputText} {b : Behaviour} (houtput : b.output = o.bytes)
    {before : List String} {verdict : Verdict} {batches : List StatusResponse}
    (hends : EndsAt o.lines before verdict) (hbrings : Brings before batches) (written : Bool) :
    ∃ told ending, Does (Program.engineScript written b) told b.exit ending ∧ told <+: batches ∧
      (ending = .done → told = batches ∧ verdict = .done) := by
  cases written with
  | false =>
    refine ⟨[], .malformed, does_engineScript_unwritten b, List.nil_prefix, ?_⟩
    intro hdone
    cases hdone
  | true =>
    exact ⟨batches, verdict, does_engineScript houtput hends hbrings, List.prefix_rfl,
      fun hdone => ⟨rfl, hdone⟩⟩

end Engine

/-! ### What is shown -/

namespace Command

open Engine (Behaviour Brings EndsAt OutputText Verdict)

variable {w : World} {config : EngineConfig} {args : BuildArguments} {r : BuildRequest}
  {t : FileTree} {o : OutputText} {before : List String} {verdict : Verdict}
  {batches : List StatusResponse}

/-- The progress of some batches as it is printed. -/
def progressOf (batches : List StatusResponse) : Bytes :=
  (Progress.Renderer.new.run ⟨none⟩ (batches.map translate)).1

/-- What a stage shows when its engine's output has these batches before a terminal line that says
this. -/
structure ShowsOutput (b : Behaviour) (batches : List StatusResponse) (verdict : Verdict)
    (stage : Stage Unit) : Prop where
  /-- Success means that the engine said that it is done and exited, and that all was shown. -/
  ok : stage.result = .ok () →
    verdict = .done ∧ b.exit.isSome = true ∧ stage.printed.stderr = progressOf batches
  /-- What is shown is what the engine said, from its beginning on. -/
  isPrefix : ∃ shown, shown <+: batches ∧ stage.printed.stderr = progressOf shown

/-- Nothing is shown of a stage that fails before the engine is asked. -/
theorem showsOutput_of_nothing {b : Behaviour} {stage : Stage Unit} {failure : Failure}
    (hprinted : stage.printed.stderr = []) (hresult : stage.result = .error failure) :
    ShowsOutput b batches verdict stage where
  ok hok := by
    rw [hresult] at hok
    cases hok
  isPrefix := ⟨[], List.nil_prefix, hprinted⟩

/-- A solve is scripted by what its engine does, and its renderer keeps listening. -/
theorem exists_script_of_orchestrate {solve : SolveRun}
    (h : orchestrate w config t r = some solve) :
    ∃ (s : Solve.Script) (fuel : Nat), solve = (Solve.Stage.advance s fuel (.start s)).run ∧
      s.engine = Engine.Program.engineScript (handedRequest w r).line?.isSome w.engine ∧
      s.renderer.take = none := by
  unfold orchestrate at h
  dsimp only at h
  split at h
  · cases h
  · cases h
    exact ⟨_, _, rfl, rfl, rfl⟩

/-- What the renderer gets of a solve is what a leading part of the batches says, and after
success it is all of them. -/
theorem rendered_of_orchestrate {solve : SolveRun} (h : orchestrate w config t r = some solve)
    (houtput : w.engine.output = o.bytes) (hends : EndsAt o.lines before verdict)
    (hbrings : Brings before batches) :
    (∃ shown, shown <+: batches ∧ solve.rendered none = shown.map translate) ∧
      (solve.result = some (.ok ()) → verdict = .done ∧ w.engine.exit.isSome = true ∧
        solve.rendered none = batches.map translate) := by
  obtain ⟨s, fuel, rfl, hengine, htake⟩ := exists_script_of_orchestrate h
  obtain ⟨told, ending, hdoes, htold, hdone⟩ :=
    Engine.exists_does_engineScript houtput hends hbrings (handedRequest w r).line?.isSome
  rw [← hengine] at hdoes
  have hforwards := hdoes.forwards fuel
  have hfollows := Solve.Stage.follows_advance s fuel
  generalize Solve.Stage.advance s fuel (.start s) = g at hforwards hfollows
  constructor
  · -- What the renderer gets is a leading part of what was sent, and that one of the batches.
    have hrendered : g.run.rendered none <+: g.run.relay.sent.map translate :=
      hfollows.invariant.relay.isPrefix
    obtain ⟨shown, hshown, heq⟩ := List.prefix_map_iff.mp hrendered
    exact ⟨shown, (hshown.trans hforwards.isPrefix).trans htold, heq⟩
  · intro hok
    obtain ⟨hreturned, hrendered⟩ := hfollows.of_succeeded htake hok
    rcases hforwards.returned .ok hreturned with ⟨hsent, hreturns⟩ | ⟨hclosed, -⟩
    · obtain ⟨hending, hexit⟩ := Engine.returns_ok_iff.mp hreturns
      obtain ⟨rfl, hverdict⟩ := hdone hending
      exact ⟨hverdict, hexit, by rw [hrendered, hsent]⟩
    · cases hclosed

/-- A solve shows what its engine puts out. -/
theorem solveWith_showsOutput (config : EngineConfig) (t : FileTree) (r : BuildRequest)
    (houtput : w.engine.output = o.bytes) (hends : EndsAt o.lines before verdict)
    (hbrings : Brings before batches) :
    ShowsOutput w.engine batches verdict (solveWith w config t r) := by
  unfold solveWith
  cases horchestrate : orchestrate w config t r with
  | none => exact showsOutput_of_nothing rfl rfl
  | some solve =>
    obtain ⟨⟨shown, hshown, hpart⟩, hall⟩ :=
      rendered_of_orchestrate horchestrate houtput hends hbrings
    have hprogress : (Progress.Renderer.new.run ⟨none⟩ (solve.rendered none)).1 =
        progressOf shown := by
      rw [hpart]
      rfl
    dsimp only
    -- Only a solve that has ended well must have rendered everything.
    cases hresult : solve.result with
    | none => exact ⟨(fun hok => nomatch hok), shown, hshown, hprogress⟩
    | some result =>
      cases result with
      | error f => exact ⟨(fun hok => nomatch hok), shown, hshown, hprogress⟩
      | ok =>
        obtain ⟨hverdict, hexit, hrendered⟩ := hall hresult
        refine ⟨fun _ => ⟨hverdict, hexit, ?_⟩, shown, hshown, hprogress⟩
        show (Progress.Renderer.new.run ⟨none⟩ (solve.rendered none)).1 = progressOf batches
        rw [hrendered]
        rfl

/-- A build that succeeds says the truth about its engine: the output of the engine program came
to a line that says that the solve is done, before any other terminal line, and the program
exited. The progress that the build printed is then that of the batches before this line, all of
them, once each and in order. A build that fails has printed the progress of a leading part of the
batches before the first terminal line. This holds for every engine whose output is text, for
every request and every tree, and whenever the user interrupts the build. -/
theorem build_showsOutput (config : EngineConfig) (args : BuildArguments)
    (houtput : w.engine.output = o.bytes) (hends : EndsAt o.lines before verdict)
    (hbrings : Brings before batches) :
    ShowsOutput w.engine batches verdict (build w config args) := by
  obtain ⟨r, t, -, hprinted, hresult⟩ | ⟨-, hprinted, failure, hresult⟩ :=
    build_cases w config args
  · have hsolve := solveWith_showsOutput config t r houtput hends hbrings
    refine ⟨?_, ?_⟩
    · rw [hprinted, hresult]
      exact hsolve.ok
    · rw [hprinted]
      exact hsolve.isPrefix
  · exact showsOutput_of_nothing (by rw [hprinted]; rfl) hresult

end Command
end ImageBuild
