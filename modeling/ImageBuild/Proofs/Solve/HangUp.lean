import ImageBuild.Proofs.Solve.Failures

/-!
# `ImageBuild.Proofs.Solve.HangUp`: a renderer that hangs up does no harm

The relay goes on when the renderer hangs up, so the engine's queue stays. It goes away too early
only with a relay that is dropped, and that happens in a scope that is cancelled already. What the
engine makes of a queue that is gone therefore comes too late to be reported.

The renderer may hang up at any time, and nothing is assumed of the order of steps:

* `Harmless.receiver`: an engine that cannot send any more works in a cancelled scope;
* `Harmless.failedSend`: from then on only a failure that the session has had already is reported;
* `Harmless.relay`: the relay ends well if it ends by itself;
* `Harmless.toBlame`: a solve that fails was cancelled by the caller, or it has the session or the
  engine to blame, and the engine only for what it returned while the scope was open.
-/

set_option autoImplicit false

namespace ImageBuild.SolveRun

/-- The engine may still send, but nobody is there to take it. -/
def CannotSend (r : SolveRun) : Prop := r.relay.engineOpen = true ∧ r.relay.phase = .stopped

/-! ### What a renderer that hangs up cannot do -/

/-- The solve does not fail for its renderer, whenever that hangs up. -/
structure Harmless (start : SolveRun) (steps : List Step) : Prop where
  /-- If the engine may still send and its queue is gone, the scope is cancelled. -/
  receiver : (start.advance steps).CannotSend → (start.advance steps).scopeCancelled = true
  /-- After the engine could not send, nothing is reported but that the solve was cancelled or a
  failure that the session had had before. -/
  failedSend : ∀ before after, steps = before ++ after → (start.advance before).CannotSend →
    ∀ fault, (start.advance steps).result = some (.error fault) →
      fault = .cancelled ∨ (start.advance before).Failed .session fault
  /-- The relay ends well if it ends by itself. -/
  relay : ∀ how, (start.advance steps).BodyEnded .relay how → how = .ok
  /-- If the solve fails, the caller has cancelled it, the session could not be opened, or the
  session or the engine ended badly, the engine while nothing had gone wrong yet. -/
  toBlame : ∀ fault, (start.advance steps).result = some (.error fault) →
    (start.advance steps).cancelled = true ∨
    (start.advance steps).group = none ∨
    (start.advance steps).EndedBadly .session ∨
    start.Took steps fun r s =>
      ∃ how, how ≠ .ok ∧ s = .engineReturns how ∧ r.scopeCancelled = false

variable {eventBuffer rendererRoom : Nat} {steps before : List Step} {fault : BuildFault}

/-- A queue that is still sent to is gone only in a cancelled scope. -/
theorem Invariant.scopeCancelled_of_cannotSend {r : SolveRun} (hinv : r.Invariant)
    (hcannot : r.CannotSend) : r.scopeCancelled = true := by
  refine (hinv.receiver hcannot.2).resolve_left ?_
  rw [hcannot.1]
  simp

/-- What is reported after the engine could not send is what the session had failed with. -/
theorem reported_of_cannotSend (after : List Step)
    (hcannot : ((new eventBuffer rendererRoom).advance before).CannotSend)
    (hresult : ((new eventBuffer rendererRoom).advance (before ++ after)).result =
      some (.error fault)) :
    fault = .cancelled ∨
      ((new eventBuffer rendererRoom).advance before).Failed .session fault := by
  have hinv := advance_invariant (invariant_new eventBuffer rendererRoom) before
  by_cases hne : fault = .cancelled
  · exact Or.inl hne
  · -- The scope is cancelled by now, so what is reported was there by now.
    obtain ⟨g, hg⟩ := Option.isSome_iff_exists.mp (hinv.stopped hcannot.2)
    have hscope := hinv.scopeCancelled_of_cannotSend hcannot
    rw [scopeCancelled, hg] at hscope
    rw [advance_append] at hresult
    obtain ⟨task, hfailed⟩ := hinv.failed_before hg hscope hne hresult
    have hbad := hfailed.endedBadly hinv
    cases task with
    | session => exact Or.inr hfailed
    | solve => exact absurd hbad (hinv.not_endedBadly_solve (hinv.engine hcannot.1))
    | relay => exact absurd hbad (not_endedBadly_relay _ _ before)

/-- A solve that fails with an open scope has its session to blame, or what its engine
returned. -/
theorem toBlame_of_error
    (hresult : ((new eventBuffer rendererRoom).advance steps).result = some (.error fault)) :
    ((new eventBuffer rendererRoom).advance steps).cancelled = true ∨
    ((new eventBuffer rendererRoom).advance steps).group = none ∨
    ((new eventBuffer rendererRoom).advance steps).EndedBadly .session ∨
    (new eventBuffer rendererRoom).Took steps fun r s =>
      ∃ how, how ≠ .ok ∧ s = .engineReturns how ∧ r.scopeCancelled = false := by
  have hstart := invariant_new eventBuffer rendererRoom
  cases hcancelled : ((new eventBuffer rendererRoom).advance steps).cancelled with
  | true => exact Or.inl rfl
  | false =>
    cases hg : ((new eventBuffer rendererRoom).advance steps).group with
    | none => exact Or.inr (Or.inl rfl)
    | some g =>
      obtain ⟨task, hbad⟩ := exists_endedBadly hcancelled hresult hg
      cases task with
      | session => exact Or.inr (Or.inr (Or.inl hbad))
      | relay => exact absurd hbad (not_endedBadly_relay _ _ steps)
      | solve =>
        obtain ⟨how, hne, hended⟩ := hbad
        have hreturned := (engineReturned_iff hstart not_engineReturned_new).mpr
          (Or.inr (Or.inr hended))
        -- The engine returned while nothing had gone wrong, or the session had before.
        rcases returned_in_open_scope hcancelled hreturned with hsession |
          ⟨before, s, after, hsplit, hpossible, hs, hopen⟩
        · exact Or.inr (Or.inr (Or.inl hsession))
        · exact Or.inr (Or.inr (Or.inr
            ⟨before, s, after, hsplit, hpossible, how, hne, hs, hopen⟩))

/-- A renderer that hangs up never makes a solve fail, whenever it does so, whatever engine and
session do, and in whichever order all this happens. -/
theorem hangUp_harmless (eventBuffer rendererRoom : Nat) (steps : List Step) :
    (new eventBuffer rendererRoom).Harmless steps := by
  have hstart := invariant_new eventBuffer rendererRoom
  refine ⟨(advance_invariant hstart steps).scopeCancelled_of_cannotSend, ?_, ?_, ?_⟩
  · rintro before after rfl hcannot fault hresult
    exact reported_of_cannotSend after hcannot hresult
  · intro how hended
    exact relayEnded_ok hstart not_bodyEnded_new hended
  · intro fault hresult
    exact toBlame_of_error hresult

/-- The renderer hangs up, the engine goes on, the session is lost, and the relay is dropped. -/
def lostAfterHangUp : List Step :=
  [.openSession (.ok ()), .relay .hangUp, .send ⟨[], [], []⟩, .relay .take, .relay .detach,
    .sessionReturns .ok, .record .session, .record .session, .record .session, .drop .relay]

/-- The engine returns that it could not send, and all tasks are joined. -/
def sendFails : List Step :=
  [.engineReturns (.failed (.relay "status channel closed")), .closeSession, .endSolve,
    .record .relay, .record .solve, .join .session, .join .solve, .join .relay, .finish]

/-- The renderer hangs up and the engine cannot send any more. The solve fails because of the
session, which was lost. -/
theorem lostAfterHangUp_harmless :
    ((new 1 1).advance lostAfterHangUp).CannotSend ∧
    ((new 1 1).advance (lostAfterHangUp ++ sendFails)).result = some (.error closedEarly) ∧
    (new 1 1).Harmless (lostAfterHangUp ++ sendFails) :=
  ⟨⟨rfl, rfl⟩, rfl, hangUp_harmless 1 1 (lostAfterHangUp ++ sendFails)⟩

end ImageBuild.SolveRun
