import ImageBuild.Proofs.Solve.Ends

/-!
# `ImageBuild.Proofs.Solve.Success`: a solve that says it succeeded did

Engine, session and renderer are not known, so they may do anything at any time, and the caller
may cancel at any time. Whatever they do and in whichever order the steps come:

* `Truthful.ok_iff`: a solve that is over succeeded exactly if the engine returned well, the
  session returned well after it was told to close, and the relay ended by itself;
* `Truthful.lost`: a session that failed or that nobody told to close is never passed over;
* `Truthful.delivered`, `Truthful.isPrefix`: the renderer gets a beginning of what the engine
  sent, in order, and all of it if the solve succeeded and the renderer did not hang up;
* `Truthful.state`: the state that is published last says how the solve ended.

The session is told to close while batches are still on their way. That none is lost is due to the
relay, which ends only when the engine's queue is closed and empty.
-/

set_option autoImplicit false

namespace ImageBuild

namespace SolveState

variable {result : Except BuildFault Unit}

/-- A task ends well with `Ok` alone. -/
theorem ofResult_eq_succeeded_iff : ofResult result = .succeeded ↔ result = .ok () := by
  cases result with
  | ok => simp [ofResult]
  | error fault => cases hc : fault.isCancelled <;> simp [ofResult, hc]

/-- A task ends as cancelled with that error alone. -/
theorem ofResult_eq_cancelled_iff : ofResult result = .cancelled ↔
    result = .error .cancelled := by
  cases result with
  | ok => simp [ofResult]
  | error fault =>
    rw [Except.error.injEq, ← BuildFault.isCancelled_iff]
    cases hc : fault.isCancelled <;> simp [ofResult, hc]

/-- Any other error is a failure. -/
theorem ofResult_eq_failed_iff :
    ofResult result = .failed ↔ ∃ fault, fault ≠ .cancelled ∧ result = .error fault := by
  cases result with
  | ok => simp [ofResult]
  | error fault =>
    rw [ofResult]
    split
    · next hc =>
      simp [BuildFault.isCancelled_iff.mp hc]
    · next hc =>
      have hne : fault ≠ .cancelled := fun heq => hc (BuildFault.isCancelled_iff.mpr heq)
      simp [hne]

end SolveState

namespace SolveRun

open Progress (Relay translate)

variable {r : SolveRun} {steps : List Step} {result : Except BuildFault Unit}

/-- The session task ends well only if what kept the session open did and the session was told to
close. -/
theorem sessionEnd_eq_ok_iff (r : SolveRun) {how : TaskEnd} :
    r.sessionEnd how = .ok ↔ how = .ok ∧ r.shutdown = true := by
  cases how with
  | ok => cases hs : r.shutdown <;> simp [sessionEnd, hs]
  | failed | panicked => simp [sessionEnd]

/-! ### What the result says about the tasks -/

/-- A solve that is over succeeded exactly if all its tasks were started and ended well. -/
theorem Invariant.ok_iff (hinv : r.Invariant) (hresult : r.result = some result) :
    result = .ok () ↔ ∀ task, r.BodyEnded task .ok := by
  have hreports := hinv.result result hresult
  cases hg : r.group with
  -- Without a group the session never opened, and no task was started.
  | none =>
    rw [hg] at hreports
    obtain ⟨fault, rfl⟩ := hreports
    constructor
    · intro hok; cases hok
    · intro hended
      obtain ⟨g, e, hg', -⟩ := hended .session
      rw [hg] at hg'
      cases hg'
  | some g =>
    rw [hg] at hreports
    obtain ⟨hjoined, hwaiter, hgroup⟩ := TaskGroup.result?_eq_some_iff.mp hreports
    -- The waiter has joined all tasks, so a result without a fault means that each ended well.
    have hall : result = .ok () ↔ ∀ e ∈ g.tasks, e.ended = some .ok := by
      rw [(hinv.taskGroup hg).all_ok_iff hjoined hwaiter, TaskGroup.reported_iff_ne_ok hgroup,
        Classical.not_not]
    rw [hall]
    constructor
    · intro hok task
      obtain ⟨e, he⟩ := hinv.exists_task hg task
      have hmem := List.mem_of_getElem? he
      exact ⟨g, e, hg, he, by rw [hjoined e hmem]; simp, hok e hmem⟩
    · intro hended e he
      obtain ⟨task, htask⟩ := hinv.task_of_mem hg he
      obtain ⟨g', e', hg', he', -, hok⟩ := hended task
      obtain rfl := Option.some.inj (hg.symm.trans hg')
      obtain rfl := Option.some.inj (htask.symm.trans he')
      exact hok

/-- A renderer that does not hang up gets all that is in its queue. -/
theorem received_of_delivers (hup : r.relay.hungUp = false) :
    (r.advance (List.replicate r.relay.outgoing.length (.relay .deliver))).relay.received =
      r.rendered none := by
  show _ = r.relay.received ++ r.relay.outgoing
  generalize hout : r.relay.outgoing = outgoing
  induction outgoing generalizing r with
  | nil => exact (List.append_nil _).symm
  | cons b rest ih =>
    let r' : SolveRun := { r with relay := { r.relay with
      outgoing := rest, received := r.relay.received ++ [b] } }
    have hdeliver : r.next (.relay .deliver) = r' := by
      simp [next, step?, relayStep?, Relay.step?, hout, hup, r']
    have hrest := ih (r := r') hup rfl
    show ((r.next (.relay .deliver)).advance _).relay.received = _
    rw [hdeliver, hrest]
    show r.relay.received ++ [b] ++ rest = r.relay.received ++ b :: rest
    rw [List.append_assoc]
    rfl

/-! ### What a solve says of itself -/

/-- What a solve says after these steps of its engine, its session and its renderer is so. -/
structure Truthful (start : SolveRun) (steps : List Step) : Prop where
  /-- Success means that the engine returned well, that the session returned well after it was
  told to close, and that the relay came to the end of what the engine sent. -/
  ok_iff : ∀ result, (start.advance steps).result = some result → (result = .ok () ↔
    (start.Took steps fun _ s => s = .engineReturns .ok) ∧
    (start.Took steps fun r s => s = .sessionReturns .ok ∧ r.shutdown = true) ∧
    (start.Took steps fun _ s => s = .relay .finish))
  /-- A session that returned without being told to close or that failed makes success
  impossible. -/
  lost : (start.Took steps fun r s =>
      ∃ how, s = .sessionReturns how ∧ (r.shutdown = false ∨ how ≠ .ok)) →
    (start.advance steps).result ≠ some (.ok ())
  /-- After success a renderer that does not hang up gets everything that was sent: it has it or
  finds it in its queue, and it takes what it finds in as many steps. -/
  delivered : (start.advance steps).result = some (.ok ()) →
    (start.advance steps).relay.hungUp = false →
    (start.advance steps).rendered none = (start.advance steps).relay.sent.map translate ∧
    ((start.advance steps).advance (List.replicate (start.advance steps).relay.outgoing.length
      (.relay .deliver))).relay.received = (start.advance steps).relay.sent.map translate
  /-- What the renderer has received is a beginning of what was sent. -/
  isPrefix : (start.advance steps).relay.received <+:
    (start.advance steps).relay.sent.map translate
  /-- The state says that the solve is over only when it is, and then it says how it ended. -/
  running : (start.advance steps).result = none → (start.advance steps).state.isTerminal = false
  state : ∀ result, (start.advance steps).result = some result →
    ((start.advance steps).state = .succeeded ↔ result = .ok ()) ∧
    ((start.advance steps).state = .cancelled ↔ result = .error .cancelled) ∧
    ((start.advance steps).state = .failed ↔
      ∃ fault, fault ≠ .cancelled ∧ result = .error fault)

/-- The session task has ended well exactly if the session returned well after it was told to
close. -/
theorem sessionEnded_ok_iff (hstart : r.Invariant) (hgroup : r.group = none) :
    (r.advance steps).BodyEnded .session .ok ↔
      r.Took steps fun r s => s = .sessionReturns .ok ∧ r.shutdown = true := by
  rw [← sessionEnded_iff hstart (not_bodyEnded_of_group hgroup)]
  refine exists_congr fun before => exists_congr fun s => exists_congr fun after =>
    and_congr_right fun _ => and_congr_right fun _ => ?_
  constructor
  · rintro ⟨how, rfl, hend⟩
    obtain ⟨rfl, hshutdown⟩ := (sessionEnd_eq_ok_iff _).mp hend
    exact ⟨rfl, hshutdown⟩
  · rintro ⟨rfl, hshutdown⟩
    exact ⟨.ok, rfl, (sessionEnd_eq_ok_iff _).mpr ⟨rfl, hshutdown⟩⟩

/-- A solve that has not started its tasks yet will say what is true. -/
theorem Invariant.truthful (hstart : r.Invariant) (hgroup : r.group = none)
    (hworking : r.solver = .working) (steps : List Step) : r.Truthful steps := by
  have hinv := advance_invariant hstart steps
  have hrelay : ¬ r.BodyEnded .relay .ok := not_bodyEnded_of_group hgroup
  refine ⟨?_, ?_, ?_, ?_, ?_, ?_⟩
  · intro result hresult
    -- All three tasks ended well, and each of them does so in one way only.
    rw [hinv.ok_iff hresult, engineReturned_iff hstart (hstart.not_engineReturned hworking),
      hinv.solveEnded_iff hresult, ← sessionEnded_ok_iff hstart hgroup,
      relayEnded_iff hstart hrelay]
    constructor
    · intro hended
      exact ⟨hended .solve, hended .session, hended .relay⟩
    · rintro ⟨hsolve, hsession, hrelay⟩ task
      cases task with
      | session => exact hsession
      | solve => exact hsolve
      | relay => exact hrelay
  · intro hlost hresult
    obtain ⟨before, s, after, hsplit, hpossible, how, rfl, hlost⟩ := hlost
    -- The body of the session task ends once, and here it did not end well.
    have hended := (sessionEnded_iff hstart (not_bodyEnded_of_group hgroup)).mp
      ⟨before, _, after, hsplit, hpossible, how, rfl, rfl⟩
    have hok := hended.unique ((hinv.ok_iff hresult).mp rfl .session)
    rw [sessionEnd_eq_ok_iff] at hok
    rcases hlost with hopen | hne
    · rw [hok.2] at hopen; cases hopen
    · exact hne hok.1
  · intro hresult hup
    -- Success needs a relay that ended by itself, and such a relay has left nothing behind.
    have hfinished := (relayEnded_iff hstart hrelay).mpr
      ((hinv.ok_iff hresult).mp rfl .relay)
    have hall := (drained_of_relayEnded hstart hfinished).delivered hup
    exact ⟨hall, (received_of_delivers hup).trans hall⟩
  · exact (List.prefix_append _ _).trans hinv.relay.isPrefix
  · intro hnone
    rcases hinv.running hnone with hstate | hstate <;> rw [hstate] <;> rfl
  · intro result hresult
    rw [hinv.state result hresult]
    exact ⟨SolveState.ofResult_eq_succeeded_iff, SolveState.ofResult_eq_cancelled_iff,
      SolveState.ofResult_eq_failed_iff⟩

/-- A solve says what is true of its engine, its session and its renderer, whatever they do, at
whatever time the caller cancels, and in whichever order all this happens. -/
theorem new_truthful (eventBuffer rendererRoom : Nat) (steps : List Step) :
    (new eventBuffer rendererRoom).Truthful steps :=
  (invariant_new eventBuffer rendererRoom).truthful rfl rfl steps

/-- A batch with one line of output. -/
def oneLine : Progress.StatusResponse :=
  ⟨[], [], [⟨"sha256:c0ffee", .stderr, [0x64, 0x6f, 0x6e, 0x65], ⟨0, 0, 0⟩⟩]⟩

/-- A solve whose session is closed and joined before the relay looks at the only batch. -/
def closedBeforeDelivery : List Step :=
  [.openSession (.ok ()), .send oneLine, .engineReturns .ok, .closeSession, .sessionReturns .ok,
    .join .session, .endSolve, .join .solve, .relay .take, .relay .forward, .relay .finish,
    .join .relay, .finish]

/-- In this run the renderer has its batch, though the engine had closed its queue before. -/
theorem closedBeforeDelivery_truthful :
    ((new 1 1).advance closedBeforeDelivery).result = some (.ok ()) ∧
    ((new 1 1).advance closedBeforeDelivery).rendered none = [translate oneLine] ∧
    (new 1 1).Truthful closedBeforeDelivery :=
  ⟨rfl, rfl, new_truthful 1 1 closedBeforeDelivery⟩

end SolveRun
end ImageBuild
