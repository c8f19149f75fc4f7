import ImageBuild.Proofs.Solve.Ends
import ImageBuild.Solve.Scripted

/-!
# `ImageBuild.Proofs.Solve.Scripted`: engines do what their scripts say

In a scripted solve the others act as they come, and the engine may be dropped with what it has
left to do. What it did until then is what its script says, and `Follows` says so of every stage:
the batches that were sent are the first ones of the script, in order and once each, and an engine
that has returned by itself had sent all of them, or it could not go on. That nobody takes its
batches any more only happens in a cancelled scope, for the engine of a script does not close its
queue before it returns. Every stage is one that a solve comes to by its own steps, so what holds
of all solves holds of scripted ones.

* `Progress.Relay.Takes.sent_eq`: only the engine itself sends and returns, so the steps of all
  others (`IsOthers`) change nothing of this.
* `Follows.runEngine`: the engine's own turn, by induction on what it has left to send.
* `follows_advance`: every stage of a scripted solve follows its script.
-/

set_option autoImplicit false

namespace ImageBuild

open Progress (Relay RelayStep StatusResponse)

/-! ### Steps of all but the engine -/

/-- What was sent changes when something is sent. -/
theorem Progress.Relay.Takes.sent_eq {r r' : Relay} {s : RelayStep} (h : Relay.Takes r s r')
    (hs : ∀ b, s ≠ .send b) : r'.sent = r.sent := by
  cases h with
  | send b => exact absurd rfl (hs b)
  | close | take | discard | forward | detach | finish | drop | deliver | hangUp => rfl

/-- Only closing it closes the engine's queue. -/
theorem Progress.Relay.Takes.engineOpen_eq {r r' : Relay} {s : RelayStep} (h : Relay.Takes r s r')
    (hs : s ≠ .close) : r'.engineOpen = r.engineOpen := by
  cases h with
  | close => exact absurd rfl hs
  | send | take | discard | forward | detach | finish | drop | deliver | hangUp => rfl

namespace SolveRun

variable {r r' : SolveRun} {s : Step} {how : TaskEnd}

/-- A step that is not the engine's: it neither sends a batch nor closes the queue nor returns.
Nor does the renderer hang up in it. -/
def IsOthers : Step → Prop
  | .send _ | .closeQueue | .engineReturns _ => False
  | .relay t => t ≠ .hangUp
  | .cancel | .openSession _ | .abandon | .sessionReturns _ | .closeSession | .endSolve | .drop _
  | .record _ | .join _ | .recordPanic | .finish => True

namespace IsOthers

/-- It sends no batch. -/
theorem ne_send (h : IsOthers s) (b : StatusResponse) : s ≠ .send b := by
  rintro rfl
  exact h

/-- It does not close the queue. -/
theorem ne_closeQueue (h : IsOthers s) : s ≠ .closeQueue := by
  rintro rfl
  exact h

/-- It is not the return of the engine. -/
theorem ne_engineReturns (h : IsOthers s) (how : TaskEnd) : s ≠ .engineReturns how := by
  rintro rfl
  exact h

/-- It is not the hanging up of the renderer. -/
theorem ne_hangUp (h : IsOthers s) : s ≠ .relay .hangUp := by
  rintro rfl
  exact h rfl

end IsOthers

/-- Only sending adds to what was sent. -/
theorem Takes.sent_eq (h : Takes r s r') (hs : ∀ b, s ≠ .send b) :
    r'.relay.sent = r.relay.sent := by
  cases h with
  | send => exact absurd rfl (hs _)
  | closeQueue _ _ htakes | endRelay _ htakes | dropRelay _ _ htakes =>
    exact htakes.sent_eq (by simp)
  | @relay t _ hfree htakes =>
    refine htakes.sent_eq ?_
    rintro b rfl
    exact hfree.elim
  | cancelEarly | cancel | opens | failsToOpen | abandon | sessionReturns | engineReturns
    | enginePanics
  | closeSession | endSolve | dropSession | dropSolve | record | join | recordPanic | finish =>
    rfl

/-- Only hanging up makes the renderer hang up. -/
theorem Takes.hungUp_eq (h : Takes r s r') (hs : s ≠ .relay .hangUp) :
    r'.relay.hungUp = r.relay.hungUp := by
  cases h with
  | send _ _ htakes | closeQueue _ _ htakes | endRelay _ htakes | dropRelay _ _ htakes =>
    exact htakes.hungUp_eq (by simp)
  | relay _ htakes => exact htakes.hungUp_eq fun heq => hs (congrArg _ heq)
  | cancelEarly | cancel | opens | failsToOpen | abandon | sessionReturns | engineReturns
    | enginePanics
  | closeSession | endSolve | dropSession | dropSolve | record | join | recordPanic | finish =>
    rfl

/-- A batch is sent behind those that were sent before. -/
theorem Takes.sent_of_send {b : StatusResponse} (h : Takes r (.send b) r') :
    r'.relay.sent = r.relay.sent ++ [b] := by
  cases h with
  | send _ _ htakes =>
    cases htakes with
    | send => rfl

/-- An engine that still works has its queue open if it had, unless it closes it itself. -/
theorem Takes.engineOpen_of_working (h : Takes r s r') (hs : s ≠ .closeQueue)
    (hworking : r'.solver = .working) (hopen : r.solver = .working → r.relay.engineOpen = true) :
    r'.relay.engineOpen = true := by
  cases h with
  | closeQueue => exact absurd rfl hs
  | engineReturns | enginePanics | closeSession | endSolve | dropSolve => cases hworking
  | send _ _ htakes | endRelay _ htakes | dropRelay _ _ htakes =>
    exact (htakes.engineOpen_eq (by simp)).trans (hopen hworking)
  | @relay t _ hfree htakes =>
    refine (htakes.engineOpen_eq ?_).trans (hopen hworking)
    rintro rfl
    exact hfree.elim
  | cancelEarly | cancel | opens | failsToOpen | abandon | sessionReturns | dropSession
    | record | join
  | recordPanic | finish => exact hopen hworking

/-- Only an engine that works can send. -/
theorem Takes.working_of_send {b : StatusResponse} (h : Takes r (.send b) r') :
    r.solver = .working := by
  cases h with
  | send _ hworking => exact hworking

/-- Only an engine that works can return. -/
theorem Takes.working_of_engineReturns (h : Takes r (.engineReturns how) r') :
    r.solver = .working := by
  cases h with
  | engineReturns _ _ hworking | enginePanics _ hworking => exact hworking

end SolveRun

namespace Solve

open SolveRun (IsOthers EngineReturned)

variable {s : Script} {g g' : Stage} {step : SolveRun.Step} {how : TaskEnd}

/-! ### Following the script -/

namespace Stage

/-- How an engine may return at a stage: because nobody takes its batches any more in a cancelled
scope, because what it would send next is no batch, or as the script says when nothing is left. -/
inductive MayReturn (s : Script) (g : Stage) : TaskEnd → Prop
  | closed : g.run.scopeCancelled = true → MayReturn s g (.failed (.relay "closed"))
  | unreadable {sending : Sending} {rest : List Sending} : g.sendings = sending :: rest →
    sending.batch = none → MayReturn s g (.failed .protocol)
  | ended : g.sendings = [] → s.engine.after.isSome = true → MayReturn s g s.engine.ends

/-- What the engine has left to send decides, and whether the scope is cancelled. -/
theorem MayReturn.mono (h : MayReturn s g how) (hsendings : g'.sendings = g.sendings)
    (hscope : g.run.scopeCancelled = true → g'.run.scopeCancelled = true) :
      MayReturn s g' how := by
  cases h with
  | closed hcancelled => exact .closed (hscope hcancelled)
  | unreadable hleft hbatch => exact .unreadable (hsendings.trans hleft) hbatch
  | ended hleft hafter => exact .ended (hsendings.trans hleft) hafter

/-- The engine has done what the script says so far. -/
structure Follows (s : Script) (g : Stage) : Prop where
  invariant : g.run.Invariant
  /-- What was sent and what is left to send make up what the script says. -/
  sent : ∃ done, s.engine.sendings = done ++ g.sendings ∧
    done.map (·.batch) = g.run.relay.sent.map some
  /-- When nothing is left to send, the engine only waits for its end if it has one. -/
  due : g.sendings = [] → g.engineDue.isSome = true → s.engine.after.isSome = true
  queue : g.run.solver = .working → g.run.relay.engineOpen = true
  returned : ∀ how, g.run.EngineReturned how → MayReturn s g how
  /-- A renderer that does not hang up has not done so. -/
  listens : s.renderer.take = none → g.run.relay.hungUp = false
  /-- All that happened were steps of the solve. -/
  reached : ∃ steps, g.run = (startRun s).advance steps

namespace Follows

/-- Nothing but the solve and what the engine has left to do matters. -/
theorem congr (h : g.Follows s) (hrun : g'.run = g.run) (hsendings : g'.sendings = g.sendings)
    (hdue : g'.engineDue = g.engineDue) : g'.Follows s where
  invariant := hrun ▸ h.invariant
  sent := by rw [hrun, hsendings]; exact h.sent
  due := by rw [hsendings, hdue]; exact h.due
  queue := by rw [hrun]; exact h.queue
  returned how hreturned :=
    (h.returned how (hrun ▸ hreturned)).mono hsendings fun hcancelled => hrun ▸ hcancelled
  listens := by rw [hrun]; exact h.listens
  reached := by rw [hrun]; exact h.reached

/-- A step that is possible is one more step of the solve. -/
theorem reached_step (h : g.Follows s) {run : SolveRun} (hstep : g.run.step? step = some run) :
    ∃ steps, run = (startRun s).advance steps := by
  obtain ⟨steps, hsteps⟩ := h.reached
  refine ⟨steps ++ [step], ?_⟩
  rw [SolveRun.advance_append, ← hsteps]
  show run = g.run.next step
  rw [SolveRun.next, hstep]
  rfl

/-- A step of somebody else leaves the engine where it is, and so does a return as the script
says. -/
theorem perform_of (h : g.Follows s) (hsend : ∀ b, step ≠ .send b) (hclose : step ≠ .closeQueue)
    (hreturns : ∀ how, step = .engineReturns how → g.run.solver = .working → MayReturn s g how)
    (hlistens : s.renderer.take = none → step ≠ .relay .hangUp) :
    (g.perform step).Follows s := by
  unfold perform
  split
  · next run hstep =>
    have htakes := SolveRun.takes_of_step? hstep
    have hscope := htakes.scopeCancelled h.invariant
    refine ⟨SolveRun.step_invariant htakes h.invariant, ?_, h.due,
      fun hworking => htakes.engineOpen_of_working hclose hworking h.queue,
        fun how hreturned => ?_,
      fun htake => (htakes.hungUp_eq (hlistens htake)).trans (h.listens htake),
      h.reached_step hstep⟩
    · show ∃ done, _ ∧ _ = run.relay.sent.map some
      rw [htakes.sent_eq hsend]
      exact h.sent
    · rcases htakes.engineReturned_before h.invariant hreturned with hbefore | rfl
      · exact (h.returned how hbefore).mono rfl hscope
      · exact (hreturns how rfl htakes.working_of_engineReturns).mono rfl hscope
  · exact h

/-- A step of somebody else follows every script. -/
theorem perform (h : g.Follows s) (hstep : IsOthers step) : (g.perform step).Follows s :=
  h.perform_of hstep.ne_send hstep.ne_closeQueue
    (fun how heq => absurd heq (hstep.ne_engineReturns how)) fun _ => hstep.ne_hangUp

/-- So do several of them. -/
theorem performAll (h : g.Follows s) {steps : List SolveRun.Step}
    (hsteps : ∀ step ∈ steps, IsOthers step) : (g.performAll steps).Follows s := by
  unfold Stage.performAll
  induction steps generalizing g with
  | nil => exact h
  | cons step rest ih =>
    have hrest : ∀ next ∈ rest, IsOthers next :=
      fun next hnext => hsteps next (List.mem_cons_of_mem _ hnext)
    exact ih (h.perform (hsteps step List.mem_cons_self)) hrest

/-- Recording a failure is nothing that the script speaks of. -/
theorem recordAll (h : g.Follows s) (task : SolveRun.Role) : (g.recordAll task).Follows s := by
  refine h.performAll fun step hstep => ?_
  simp only [List.mem_cons, List.not_mem_nil, or_false, or_self] at hstep
  subst hstep
  exact trivial

/-- Nor is dropping a task. -/
theorem dropIfCancelled (h : g.Follows s) (task : SolveRun.Role) :
    (g.dropIfCancelled task).Follows s := by
  unfold Stage.dropIfCancelled
  split
  · have hdrops : IsOthers (.drop task) := trivial
    exact (h.perform hdrops).recordAll task
  · exact h

/-! ### The turns of the others -/

/-- The turn of the caller. -/
theorem pollCaller (h : g.Follows s) : (g.pollCaller s).Follows s := by
  unfold Stage.pollCaller
  split
  · exact h.perform trivial
  · exact h

/-- The opening of the session. -/
theorem pollOpening (h : g.Follows s) : (g.pollOpening s).Follows s := by
  unfold Stage.pollOpening
  split
  · split
    · exact h.perform trivial
    · have hopen : ∀ g' : Stage, g'.Follows s →
          (if g'.isDue g'.openDue then
            { g'.perform (.openSession s.session.opening) with
              sessionDue := s.session.after.map (g'.now + ·) }
          else g').Follows s := by
        intro g' h'
        split
        · have hopens : IsOthers (.openSession s.session.opening) := trivial
          exact (h'.perform hopens).congr rfl rfl rfl
        · exact h'
      refine hopen _ ?_
      split
      · exact h
      · exact h.congr rfl rfl rfl
  · exact h

/-- The turn of the session. -/
theorem pollSession (h : g.Follows s) : (g.pollSession s).Follows s := by
  unfold Stage.pollSession
  split
  · split
    · have hnoted : (g.note .sessionEnded).Follows s := h.congr rfl rfl rfl
      have hends : IsOthers (.sessionReturns s.session.ends) := trivial
      exact (hnoted.perform hends).recordAll .session
    · split
      · have hnoted : (g.note .sessionClosed).Follows s := h.congr rfl rfl rfl
        have hcloses : IsOthers (.sessionReturns s.session.onShutdown) := trivial
        exact (hnoted.perform hcloses).recordAll .session
      · exact h
  · exact h

/-- The turn of the relay. -/
theorem pollRelay (h : g.Follows s) : g.pollRelay.Follows s := by
  unfold Stage.pollRelay
  split
  · refine (h.performAll fun step hstep => ?_).dropIfCancelled .relay
    obtain ⟨own, hown, hmem⟩ := List.mem_flatten.mp hstep
    rw [(List.mem_replicate.mp hown).2] at hmem
    obtain ⟨t, ht, rfl⟩ := List.mem_map.mp hmem
    show t ≠ .hangUp
    rintro rfl
    simp [Relay.ownSteps] at ht
  · exact h

/-- The turn of the renderer. It hangs up only if the script says so. -/
theorem pollRenderer (h : g.Follows s) : (g.pollRenderer s).Follows s := by
  unfold Stage.pollRenderer
  split
  · have hrelay : (g.perform (.relay (g.run.relay.rendererStep s.renderer.take))).Follows s := by
      refine h.perform_of (by simp) (by simp) (by simp) fun htake => ?_
      rw [htake]
      simp [Relay.rendererStep]
    dsimp only
    split
    · exact hrelay.congr rfl rfl rfl
    · exact hrelay
  · exact h

/-- The turn of who waits for the tasks. -/
theorem pollWaiter (h : g.Follows s) : g.pollWaiter.Follows s := by
  refine (h.performAll fun step hstep => ?_).perform trivial
  obtain ⟨task, -, hmem⟩ := List.mem_flatMap.mp hstep
  simp only [List.mem_cons, List.not_mem_nil, or_false, or_self] at hmem
  rcases hmem with rfl | rfl <;> exact trivial

/-! ### The turn of the engine -/

/-- The engine returns as the script says. -/
theorem returnEngine (h : g.Follows s) (hreturns : g.run.solver = .working → MayReturn s g how) :
    (g.returnEngine how).Follows s := by
  unfold Stage.returnEngine Stage.performAll
  refine Follows.recordAll ?_ .solve
  have hreturned : (g.perform (.engineReturns how)).Follows s := by
    refine h.perform_of (by simp) (by simp) (fun how' heq => ?_) (by simp)
    cases heq
    exact hreturns
  -- Telling the session to close and ending the task is nothing that the script speaks of.
  have hcloses : IsOthers .closeSession := trivial
  have hends : IsOthers .endSolve := trivial
  exact (hreturned.perform hcloses).perform hends

/-- The engine sends the next batch of the script. -/
theorem send (h : g.Follows s) {sending : Sending} {rest : List Sending} {batch : StatusResponse}
    (hsendings : g.sendings = sending :: rest) (hbatch : sending.batch = some batch)
    {run : SolveRun} (hstep : g.run.step? (.send batch) = some run) :
    ({ g with run, steps := g.steps + 1, sendings := rest, engineDue := g.nextDue s rest } :
      Stage).Follows s := by
  have htakes := SolveRun.takes_of_step? hstep
  refine ⟨SolveRun.step_invariant htakes h.invariant, ?_, ?_,
    fun hworking => htakes.engineOpen_of_working (by simp) hworking h.queue,
      fun how hreturned => ?_,
    fun htake => (htakes.hungUp_eq (by simp)).trans (h.listens htake), h.reached_step hstep⟩
  · obtain ⟨done, hall, hdone⟩ := h.sent
    refine ⟨done ++ [sending], ?_, ?_⟩
    · show s.engine.sendings = done ++ [sending] ++ rest
      rw [hall, hsendings, List.append_assoc, List.singleton_append]
    · show _ = run.relay.sent.map some
      rw [htakes.sent_of_send, List.map_append, List.map_append, hdone, List.map_singleton,
        List.map_singleton, hbatch]
  · rintro (rfl : rest = []) (hdue : (s.engine.after.map (g.now + ·)).isSome = true)
    simpa using hdue
  · -- An engine that sends has not returned.
    rcases htakes.engineReturned_before h.invariant hreturned with hbefore | heq
    · exact absurd hbefore (h.invariant.not_engineReturned htakes.working_of_send)
    · cases heq

/-- The engine goes on as the script says until it has to wait. -/
theorem runEngine {left : List Sending} (h : g.Follows s) (hleft : g.sendings = left) :
    (Stage.runEngine s left g).Follows s := by
  induction left generalizing g with
  | nil =>
    unfold Stage.runEngine
    split
    · next hdue =>
      refine h.returnEngine fun _ => .ended hleft (h.due hleft ?_)
      cases hengine : g.engineDue with
      | none => rw [hengine] at hdue; cases hdue
      | some _ => rfl
    · exact h
  | cons sending rest ih =>
    unfold Stage.runEngine
    split
    · split
      · next hbatch =>
        exact h.returnEngine fun _ => .unreadable hleft hbatch
      · next batch hbatch =>
        split
        · next hstopped =>
          -- The queue of an engine that works is open, so the relay has not stopped by itself.
          refine h.returnEngine fun hworking => .closed ?_
          refine (h.invariant.receiver hstopped).resolve_left fun hclosed => ?_
          rw [h.queue hworking] at hclosed
          cases hclosed
        · split
          · next run hstep =>
            exact ih (h.send hleft hbatch hstep) rfl
          · exact h
    · exact h

/-- The turn of the engine, which is asked to solve when it comes first. -/
theorem pollEngine (h : g.Follows s) : (g.pollEngine s).Follows s := by
  unfold Stage.pollEngine
  split
  · have hasked : (if g.asked then g
        else
          { g.note (.solve g.run.state) with
            asked := true
            engineDue := g.nextDue s g.sendings } :
        Stage).Follows s := by
      split
      · exact h
      · refine ⟨h.invariant, h.sent, fun hnil hdue => ?_, h.queue, fun how hreturned =>
          (h.returned how hreturned).mono rfl id, h.listens, h.reached⟩
        have hend : (s.engine.after.map (g.now + ·)).isSome = true := by
          change (g.nextDue s g.sendings).isSome = true at hdue
          rwa [show g.sendings = [] from hnil] at hdue
        simpa using hend
    exact (hasked.runEngine rfl).dropIfCancelled .solve
  · exact h

/-! ### All turns -/

/-- A turn of everyone. -/
theorem turn (h : g.Follows s) : (g.turn s).Follows s :=
  h.pollOpening.pollCaller.pollRenderer.pollSession.pollEngine.pollRelay

/-- The solve goes on as the script says. -/
theorem advance (h : g.Follows s) (fuel : Nat) : (Stage.advance s fuel g).Follows s := by
  induction fuel generalizing g with
  | zero => exact h
  | succ fuel ih =>
    unfold Stage.advance
    dsimp only
    split
    · exact h.turn
    · split
      · exact ih h.turn
      · split
        · exact h.turn.pollWaiter
        · split
          · exact ih h.turn.pollWaiter
          · split
            · exact ih (h.turn.pollWaiter.congr rfl rfl rfl)
            · exact h.turn.pollWaiter

end Follows

/-- A solve that the caller has cancelled before anything happened is still one in which nothing
happened. -/
theorem invariant_startRun (s : Script) : (startRun s).Invariant := by
  have hnew := SolveRun.invariant_new (max 1 s.eventBuffer) s.renderer.room
  exact {
    starting := hnew.starting
    solving := hnew.solving
    group := fun g hg => by cases hg
    solver := hnew.solver
    engine := hnew.engine
    relay := hnew.relay
    stopped := hnew.stopped
    receiver := fun hstopped => by cases hstopped
    running := hnew.running
    state := hnew.state
    result := hnew.result }

/-- Before anyone acts nothing is sent and nothing is returned. -/
theorem follows_start (s : Script) : (Stage.start s).Follows s where
  invariant := invariant_startRun s
  sent := ⟨[], rfl, rfl⟩
  due _ hdue := nomatch hdue
  queue _ := rfl
  returned _ hreturned := absurd hreturned ((invariant_startRun s).not_engineReturned rfl)
  listens _ := rfl
  reached := ⟨[], rfl⟩

/-- Every stage of a scripted solve follows its script. -/
theorem follows_advance (s : Script) (fuel : Nat) : (Stage.advance s fuel (.start s)).Follows s :=
  (follows_start s).advance fuel

end Stage
end Solve
end ImageBuild
