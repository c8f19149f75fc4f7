import ImageBuild.Progress.Relay

/-!
# `ImageBuild.Proofs.Progress.Relay`: nothing is lost and nothing is out of order

A batch goes from the engine's queue through the hand of the relay into the renderer's queue and
from there to the renderer. As long as the relay is there and the renderer has not hung up, these
four places together hold what was sent, in order (`Faithful.complete`). A renderer that hangs up
loses what is in its queue, and a relay that is dropped loses what it holds and what is left for
it, so at all times the renderer has received a beginning of what was sent (`Faithful.isPrefix`).

* `Takes`, `takes_iff`: the steps that are possible, one rule for each kind.
* `Takes.faithful`: every step keeps `Faithful`.
* `Takes.drained_of_finish`, `Takes.drained`: a relay that has ended by itself has passed on
  everything, unless the renderer hung up.
* `exists_ownStep_of_hungUp`: a renderer that hung up never keeps the relay from going on.
-/

set_option autoImplicit false

namespace ImageBuild.Progress.Relay

/-! ### The steps that are possible -/

/-- A step of the engine, the relay or the renderer, with one rule for each kind. -/
inductive Takes (r : Relay) : RelayStep → Relay → Prop
  | send (b : StatusResponse) : r.engineOpen = true → r.phase ≠ .stopped →
    r.incoming.length < r.incomingRoom →
    Takes r (.send b) { r with incoming := r.incoming ++ [b], sent := r.sent ++ [b] }
  | close : r.engineOpen = true → Takes r .close { r with engineOpen := false }
  | take {b : StatusResponse} {rest : List StatusResponse} : r.phase = .waiting →
    r.incoming = b :: rest → r.detached = false →
    Takes r .take { r with incoming := rest, phase := .holding (translate b) }
  | discard {b : StatusResponse} {rest : List StatusResponse} : r.phase = .waiting →
    r.incoming = b :: rest → r.detached = true →
    Takes r .take { r with incoming := rest, phase := .waiting }
  | forward {b : SolveStatus} : r.phase = .holding b → r.hungUp = false →
    r.outgoing.length < r.outgoingRoom →
    Takes r .forward { r with outgoing := r.outgoing ++ [b], phase := .waiting }
  | detach {b : SolveStatus} : r.phase = .holding b → r.hungUp = true →
    Takes r .detach { r with detached := true, phase := .waiting }
  | finish : r.phase = .waiting → r.incoming = [] → r.engineOpen = false →
    Takes r .finish { r with phase := .stopped }
  | drop : r.phase ≠ .stopped → Takes r .drop { r with phase := .stopped, incoming := [] }
  | deliver {b : SolveStatus} {rest : List SolveStatus} : r.outgoing = b :: rest →
    r.hungUp = false →
    Takes r .deliver { r with outgoing := rest, received := r.received ++ [b] }
  | hangUp : r.hungUp = false → Takes r .hangUp { r with hungUp := true, outgoing := [] }

variable {r r' : Relay} {s : RelayStep}

/-- The rules are the steps that are possible. -/
theorem takes_iff : Takes r s r' ↔ r.step? s = some r' := by
  constructor
  · intro h
    cases h with
    | send b hopen hphase hroom => simp [step?, hopen, hphase, hroom]
    | close hopen => simp [step?, hopen]
    | take hphase hin hatt => simp [step?, hphase, hin, hatt]
    | discard hphase hin hdet => simp [step?, hphase, hin, hdet]
    | forward hphase hup hroom => simp [step?, hphase, hup, hroom]
    | detach hphase hup => simp [step?, hphase, hup]
    | finish hphase hin hclosed => simp [step?, hphase, hin, hclosed]
    | drop hphase => simp [step?, hphase]
    | deliver hout hup => simp [step?, hout, hup]
    | hangUp hup => simp [step?, hup]
  · intro h
    cases s with
    | send b =>
      obtain ⟨hc, h⟩ := Option.ite_none_right_eq_some.mp h
      simp only [Bool.and_eq_true, bne_iff_ne, ne_eq, decide_eq_true_eq] at hc
      cases h
      exact .send _ hc.1.1 hc.1.2 hc.2
    | close =>
      obtain ⟨hc, h⟩ := Option.ite_none_right_eq_some.mp h
      cases h
      exact .close hc
    | take =>
      rw [step?] at h
      cases hphase : r.phase with
      | waiting =>
        cases hin : r.incoming with
        | nil => rw [hphase, hin] at h; cases h
        | cons b rest =>
          rw [hphase, hin] at h
          cases h
          -- Once the relay is detached, what it takes is thrown away.
          by_cases hdet : r.detached = true
          · rw [if_pos hdet]
            exact .discard hphase hin hdet
          · rw [if_neg hdet]
            exact .take hphase hin (Bool.eq_false_iff.mpr hdet)
      | holding | stopped => rw [hphase] at h; cases h
    | forward =>
      rw [step?] at h
      cases hphase : r.phase with
      | holding b =>
        rw [hphase] at h
        obtain ⟨hc, h⟩ := Option.ite_none_right_eq_some.mp h
        simp only [Bool.and_eq_true, Bool.not_eq_true', decide_eq_true_eq] at hc
        cases h
        exact .forward hphase hc.1 hc.2
      | waiting | stopped => rw [hphase] at h; cases h
    | detach =>
      rw [step?] at h
      cases hphase : r.phase with
      | holding b =>
        rw [hphase] at h
        obtain ⟨hup, h⟩ := Option.ite_none_right_eq_some.mp h
        cases h
        exact .detach hphase hup
      | waiting | stopped => rw [hphase] at h; cases h
    | finish =>
      obtain ⟨hc, h⟩ := Option.ite_none_right_eq_some.mp h
      cases h
      exact .finish hc.1 hc.2.1 hc.2.2
    | drop =>
      obtain ⟨hphase, h⟩ := Option.ite_none_left_eq_some.mp h
      cases h
      exact .drop hphase
    | deliver =>
      rw [step?] at h
      cases hout : r.outgoing with
      | nil => rw [hout] at h; cases h
      | cons b rest =>
        rw [hout] at h
        obtain ⟨hup, h⟩ := Option.ite_none_left_eq_some.mp h
        cases h
        exact .deliver hout (Bool.eq_false_iff.mpr hup)
    | hangUp =>
      obtain ⟨hup, h⟩ := Option.ite_none_left_eq_some.mp h
      cases h
      exact .hangUp (Bool.eq_false_iff.mpr hup)

/-! ### What has become of the batches -/

/-- The batch that the relay has taken and not yet passed on. -/
def held : RelayPhase → List SolveStatus
  | .holding b => [b]
  | .waiting | .stopped => []

/-- The renderer gets what was sent, in order and unchanged. -/
structure Faithful (r : Relay) : Prop where
  /-- The relay gives a renderer up only after it hung up. -/
  detached : r.detached = true → r.hungUp = true
  /-- Nothing waits for a renderer that hung up. -/
  outgoing : r.hungUp = true → r.outgoing = []
  /-- What was received and what waits for the renderer is a beginning of what was sent. -/
  isPrefix : r.received ++ r.outgoing <+: r.sent.map translate
  /-- Without a loss at either end, all that was sent is somewhere on the way. -/
  complete : r.hungUp = false → r.phase ≠ .stopped →
    r.received ++ r.outgoing ++ held r.phase ++ r.incoming.map translate = r.sent.map translate

/-- A new relay is faithful. -/
theorem faithful_new (incomingRoom outgoingRoom : Nat) :
    (new incomingRoom outgoingRoom).Faithful where
  detached h := by cases h
  outgoing h := by cases h
  isPrefix := List.nil_prefix
  complete _ _ := rfl

/-- Every step keeps the order and loses nothing that it need not. -/
theorem Takes.faithful (h : Takes r s r') (hr : r.Faithful) : r'.Faithful := by
  cases h with
  | send b hopen hphase hroom =>
    refine ⟨hr.detached, hr.outgoing, ?_, fun hup hphase => ?_⟩
    · show r.received ++ r.outgoing <+: (r.sent ++ [b]).map translate
      rw [List.map_append]
      exact hr.isPrefix.trans (List.prefix_append _ _)
    · show r.received ++ r.outgoing ++ held r.phase ++ (r.incoming ++ [b]).map translate =
        (r.sent ++ [b]).map translate
      rw [List.map_append, List.map_append, ← List.append_assoc, hr.complete hup hphase]
  | close => exact ⟨hr.detached, hr.outgoing, hr.isPrefix, hr.complete⟩
  | @take b rest hphase hin hatt =>
    refine ⟨hr.detached, hr.outgoing, hr.isPrefix, fun hup _ => ?_⟩
    have hall := hr.complete hup (by rw [hphase]; simp)
    rw [hphase, hin] at hall
    simpa [held] using hall
  | discard hphase hin hdet =>
    -- A batch is thrown away only after the renderer hung up.
    refine ⟨hr.detached, hr.outgoing, hr.isPrefix, fun hup => ?_⟩
    rw [hr.detached hdet] at hup
    cases hup
  | @forward b hphase hup hroom =>
    have hall := hr.complete hup (by rw [hphase]; simp)
    rw [hphase] at hall
    refine ⟨hr.detached, fun hup' => ?_, ?_, fun _ _ => ?_⟩
    · rw [hup] at hup'; cases hup'
    · show r.received ++ (r.outgoing ++ [b]) <+: r.sent.map translate
      rw [← hall, ← List.append_assoc]
      exact List.prefix_append _ _
    · simpa [held] using hall
  | detach hphase hup =>
    refine ⟨fun _ => hup, hr.outgoing, hr.isPrefix, fun hup' => ?_⟩
    rw [hup] at hup'
    cases hup'
  | finish | drop =>
    exact ⟨hr.detached, hr.outgoing, hr.isPrefix, fun _ hphase => absurd rfl hphase⟩
  | @deliver b rest hout hup =>
    refine ⟨hr.detached, fun hup' => ?_, ?_, fun hup hphase => ?_⟩
    · rw [hup] at hup'; cases hup'
    · show r.received ++ [b] ++ rest <+: r.sent.map translate
      have hbefore := hr.isPrefix
      rw [hout] at hbefore
      simpa using hbefore
    · have hall := hr.complete hup hphase
      rw [hout] at hall
      simpa using hall
  | hangUp hup =>
    refine ⟨fun _ => rfl, fun _ => rfl, ?_, fun hup' => by cases hup'⟩
    show r.received ++ [] <+: r.sent.map translate
    rw [List.append_nil]
    exact (List.prefix_append _ _).trans hr.isPrefix

/-- The relay is over, and unless the renderer hung up all that was sent has gone to it. -/
structure Drained (r : Relay) : Prop where
  stopped : r.phase = .stopped
  delivered : r.hungUp = false → r.received ++ r.outgoing = r.sent.map translate

/-- A relay that ends by itself has passed on everything. -/
theorem Takes.drained_of_finish (h : Takes r .finish r') (hr : r.Faithful) : r'.Drained := by
  cases h with
  | finish hphase hin hclosed =>
    refine ⟨rfl, fun hup => ?_⟩
    have hall := hr.complete hup (by rw [hphase]; simp)
    rw [hphase, hin] at hall
    simpa [held] using hall

/-- Queues that were drained stay so. -/
theorem Takes.drained (h : Takes r s r') (hr : r.Drained) : r'.Drained := by
  have hstopped := hr.stopped
  cases h with
  | send _ _ hphase | drop hphase => exact absurd hstopped hphase
  | close => exact ⟨hstopped, hr.delivered⟩
  | take hphase | discard hphase | forward hphase | detach hphase | finish hphase =>
    rw [hstopped] at hphase
    cases hphase
  | @deliver b rest hout hup =>
    refine ⟨hstopped, fun hup => ?_⟩
    have hall := hr.delivered hup
    rw [hout] at hall
    simpa using hall
  | hangUp => exact ⟨hstopped, fun hup => by cases hup⟩

/-! ### Who has to wait for whom -/

/-- A step of the relay's own that is taken is one that can be. -/
theorem Takes.exists_ownStep (h : Takes r s r') (hown : s ∈ ownSteps) :
    ∃ s ∈ ownSteps, (r.step? s).isSome = true := ⟨s, hown, by rw [takes_iff.mp h]; rfl⟩

/-- A relay with nothing in its hand takes what is there, and it ends when nothing more is to
come. -/
theorem exists_ownStep_of_waiting (hphase : r.phase = .waiting)
    (hmore : r.incoming ≠ [] ∨ r.engineOpen = false) :
      ∃ s ∈ ownSteps, (r.step? s).isSome = true := by
  cases hin : r.incoming with
  | nil =>
    have hclosed : r.engineOpen = false := hmore.resolve_left fun hne => hne hin
    exact Takes.exists_ownStep (.finish hphase hin hclosed) (by decide)
  | cons b rest =>
    cases hdet : r.detached with
    | false => exact Takes.exists_ownStep (.take hphase hin hdet) (by decide)
    | true => exact Takes.exists_ownStep (.discard hphase hin hdet) (by decide)

/-- A relay that is over or has lost its renderer waits for nobody but the engine: as long as it
is there it takes what the engine has sent, and it ends when the engine sends no more. -/
theorem exists_ownStep_of_hungUp (hup : r.hungUp = true) (hphase : r.phase ≠ .stopped)
    (hmore : r.incoming ≠ [] ∨ r.engineOpen = false) :
    ∃ s ∈ ownSteps, (r.step? s).isSome = true := by
  cases hat : r.phase with
  | stopped => exact absurd hat hphase
  | holding b => exact Takes.exists_ownStep (.detach hat hup) (by decide)
  | waiting => exact exists_ownStep_of_waiting hat hmore

/-- A queue is closed already, or it can be closed. -/
theorem closed_or_takes (r : Relay) :
    { r with engineOpen := false } = r ∨ r.Takes .close { r with engineOpen := false } := by
  cases hopen : r.engineOpen with
  | false => exact Or.inl (by rw [← hopen])
  | true => exact Or.inr (.close hopen)

/-- Nobody but the renderer hangs up. -/
theorem Takes.hungUp_eq (h : Takes r s r') (hs : s ≠ .hangUp) : r'.hungUp = r.hungUp := by
  cases h with
  | hangUp => exact absurd rfl hs
  | send | close | take | discard | forward | detach | finish | drop | deliver => rfl

/-- Once the engine has closed its queue it stays closed. -/
theorem Takes.closed (h : Takes r s r') (hclosed : r.engineOpen = false) :
    r'.engineOpen = false := by
  cases h with
  | close => rfl
  | send | take | discard | forward | detach | finish | drop | deliver | hangUp => exact hclosed

/-- A relay stops by itself when the engine's queue is closed, or it is dropped. -/
theorem Takes.stops (h : Takes r s r') (hr : r.phase ≠ .stopped)
    (hstopped : r'.phase = .stopped) :
    s = .finish ∧ r.engineOpen = false ∨ s = .drop := by
  cases h with
  | finish _ _ hclosed => exact Or.inl ⟨rfl, hclosed⟩
  | drop => exact Or.inr rfl
  | send | close | deliver | hangUp => exact absurd hstopped hr
  | take | discard | forward | detach => cases hstopped

end ImageBuild.Progress.Relay
