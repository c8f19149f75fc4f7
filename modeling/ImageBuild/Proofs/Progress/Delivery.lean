import ImageBuild.Proofs.Progress.Relay

/-!
# `ImageBuild.Proofs.Progress.Delivery`: batches arrive, or the renderer is gone

What holds of a relay after any steps of the engine, the relay and the renderer, in any order, as
long as the relay is not dropped. `Undropped` is what these steps keep (`Takes.undropped`), and
`Delivers` is what follows from it:

* the renderer has received the first of the batches that were sent, in order, without a gap and
  once each, and these can be told from what it received, since nothing is lost in translation
  (`translate_injective`);
* with a renderer that stays, all batches arrive, and without one the relay still takes all of
  them;
* nobody waits for ever: as long as a batch is on its way the relay or the renderer can go on
  (`moves`), and every step that they take brings the end nearer (`load_lt`).
-/

set_option autoImplicit false

namespace ImageBuild.Progress

/-! ### Translation -/

/-- Output and errors have different descriptors. -/
theorem LogStream.descriptor_injective : Function.Injective LogStream.descriptor := by
  intro a b h
  cases a <;> cases b <;> first | rfl | cases h

/-- Nothing of a log is lost in translation. -/
theorem Log.translate_injective : Function.Injective Log.translate := by
  rintro ⟨vertex, stream, data, timestamp⟩ ⟨vertex', stream', data', timestamp'⟩ h
  simp only [Log.translate, Log.mk.injEq] at h ⊢
  exact ⟨h.1, LogStream.descriptor_injective h.2.1, h.2.2⟩

/-- Nothing of a batch is lost when it is translated. -/
theorem translate_injective : Function.Injective translate := by
  rintro ⟨vertexes, counters, logs⟩ ⟨vertexes', counters', logs'⟩ h
  simp only [translate, Batch.mk.injEq] at h ⊢
  have hlogs := (List.map_inj_right fun _ _ hlog => Log.translate_injective hlog).mp h.2.2
  exact ⟨h.1, h.2.1, hlogs⟩

namespace Relay

variable {r r' : Relay} {s : RelayStep}

/-! ### Runs -/

/-- The state after a step, if that is possible. -/
def next (r : Relay) (s : RelayStep) : Relay := (r.step? s).getD r

/-- Takes those of some steps that are possible when their turn comes. -/
def advance (r : Relay) (steps : List RelayStep) : Relay := steps.foldl next r

/-- A step is one of the rules, or it is not possible and nothing happens. -/
theorem takes_or_stays (r : Relay) (s : RelayStep) : Takes r s (r.next s) ∨ r.next s = r := by
  unfold next
  cases hstep : r.step? s with
  | some r' => exact Or.inl (takes_iff.mpr hstep)
  | none => exact Or.inr rfl

/-- What holds of a relay that was not dropped: nothing is lost that need not be, it ends when
there is nothing more to come, and there is room in its queues. -/
structure Undropped (r : Relay) : Prop where
  faithful : r.Faithful
  drained : r.phase = .stopped → r.Drained
  closed : r.phase = .stopped → r.engineOpen = false ∧ r.incoming = []
  incomingRoom : 1 ≤ r.incomingRoom
  outgoingRoom : 1 ≤ r.outgoingRoom

/-- A new relay has not been dropped. -/
theorem undropped_new {incomingRoom outgoingRoom : Nat} (hin : 1 ≤ incomingRoom)
    (hout : 1 ≤ outgoingRoom) : (new incomingRoom outgoingRoom).Undropped where
  faithful := faithful_new incomingRoom outgoingRoom
  drained h := by cases h
  closed h := by cases h
  incomingRoom := hin
  outgoingRoom := hout

/-- A relay that has ended takes nothing more, and its engine sends nothing more. -/
theorem Takes.closed_of_stopped (h : Takes r s r') (hstopped : r.phase = .stopped)
    (hclosed : r.engineOpen = false ∧ r.incoming = []) : r'.engineOpen = false ∧
    r'.incoming = [] := by
  cases h with
  | send _ _ hphase | drop hphase => exact absurd hstopped hphase
  | close => exact ⟨rfl, hclosed.2⟩
  | take hphase | discard hphase | forward hphase | detach hphase | finish hphase =>
    rw [hstopped] at hphase
    cases hphase
  | deliver | hangUp => exact hclosed

/-- The room in the queues stays the same. -/
theorem Takes.rooms (h : Takes r s r') :
    r'.incomingRoom = r.incomingRoom ∧ r'.outgoingRoom = r.outgoingRoom := by
  cases h <;> exact ⟨rfl, rfl⟩

/-- Every step but the drop keeps it. -/
theorem Takes.undropped (h : Takes r s r') (hs : s ≠ .drop) (hr : r.Undropped) :
    r'.Undropped := by
  -- If the relay was not over before, it ends by itself in this step.
  have hends : r.phase ≠ .stopped → r'.phase = .stopped → s = .finish := fun hbefore hstopped =>
    (h.stops hbefore hstopped).elim And.left fun hdrop => absurd hdrop hs
  refine ⟨h.faithful hr.faithful, fun hstopped => ?_, fun hstopped => ?_, ?_, ?_⟩
  · by_cases hbefore : r.phase = .stopped
    · exact h.drained (hr.drained hbefore)
    · cases hends hbefore hstopped
      exact h.drained_of_finish hr.faithful
  · by_cases hbefore : r.phase = .stopped
    · exact h.closed_of_stopped hbefore (hr.closed hbefore)
    · cases hends hbefore hstopped
      cases h with
      | finish _ hincoming hopen => exact ⟨hopen, hincoming⟩
  · rw [h.rooms.1]
    exact hr.incomingRoom
  · rw [h.rooms.2]
    exact hr.outgoingRoom

/-- A run without a drop keeps the relay. -/
theorem advance_undropped (hr : r.Undropped) {steps : List RelayStep} (hdrop : .drop ∉ steps) :
    (r.advance steps).Undropped := by
  induction steps generalizing r with
  | nil => exact hr
  | cons s rest ih =>
    refine ih ?_ fun hmem => hdrop (List.mem_cons_of_mem _ hmem)
    rcases takes_or_stays r s with htakes | hstays
    · exact htakes.undropped (fun hs => hdrop (hs ▸ List.mem_cons_self)) hr
    · rw [hstays]
      exact hr

/-! ### Going on -/

/-- How much of what is left to do lies with the relay itself. -/
def toDo : RelayPhase → Nat
  | .waiting => 1
  | .holding _ => 3
  | .stopped => 0

/-- How much is left to do without the engine: each batch goes through at most three steps. -/
def load (r : Relay) : Nat := 3 * r.incoming.length + toDo r.phase + r.outgoing.length

/-- Every step of the relay or of a renderer that stays brings the end nearer. -/
theorem Takes.load_lt (h : Takes r s r') (hs : s ∈ .deliver :: ownSteps) : r'.load < r.load := by
  unfold load
  cases h with
  | send | close | drop | hangUp => simp [ownSteps] at hs
  | take hphase hin | discard hphase hin =>
    simp only [hphase, hin, toDo, List.length_cons]
    omega
  | forward hphase =>
    simp only [hphase, toDo, List.length_append, List.length_singleton]
    omega
  | detach hphase | finish hphase =>
    simp only [hphase, toDo]
    omega
  | deliver hout =>
    simp only [hout, List.length_cons]
    omega

/-- Nothing is on its way, and if nothing more is to come the relay has ended. -/
structure Settled (r : Relay) : Prop where
  incoming : r.incoming = []
  held : held r.phase = []
  outgoing : r.outgoing = []
  ended : r.engineOpen = false → r.phase = .stopped

/-- A relay that has ended has left nothing but what is in the last queue. -/
theorem Undropped.settled_of_stopped (hr : r.Undropped) (hphase : r.phase = .stopped)
    (hout : r.outgoing = []) : r.Settled where
  incoming := (hr.closed hphase).2
  held := by rw [hphase]; rfl
  outgoing := hout
  ended _ := hphase

/-- What waits for a renderer waits for one that has not hung up. -/
theorem Undropped.deliver_of_outgoing (hr : r.Undropped) (hout : r.outgoing ≠ []) :
    r.hungUp = false ∧ (r.step? .deliver).isSome = true := by
  have hup : r.hungUp = false := by
    cases hup : r.hungUp with
    | false => rfl
    | true => exact absurd (hr.faithful.outgoing hup) hout
  obtain ⟨b, rest, hb⟩ := List.exists_cons_of_ne_nil hout
  refine ⟨hup, ?_⟩
  rw [takes_iff.mp (.deliver hb hup)]
  rfl

/-- As long as something is left to do, the relay can go on, or a renderer that has not hung
up. -/
theorem Undropped.exists_step (hr : r.Undropped) (hnot : ¬ r.Settled) :
    (∃ s ∈ ownSteps, (r.step? s).isSome = true) ∨
      r.hungUp = false ∧ (r.step? .deliver).isSome = true := by
  by_cases hout : r.outgoing = []
  · refine Or.inl ?_
    cases hat : r.phase with
    | waiting =>
      refine exists_ownStep_of_waiting hat ?_
      by_cases hin : r.incoming = []
      · -- If the engine could send more, there would be nothing to do.
        refine Or.inr (Bool.eq_false_iff.mpr fun hopen => hnot ⟨hin, by rw [hat]; rfl, hout, ?_⟩)
        intro hclosed
        rw [hopen] at hclosed
        cases hclosed
      · exact Or.inl hin
    | holding b =>
      -- There is room, since nothing waits for the renderer.
      cases hup : r.hungUp with
      | true => exact Takes.exists_ownStep (.detach hat hup) (by decide)
      | false =>
        refine Takes.exists_ownStep (.forward hat hup ?_) (by decide)
        rw [hout]
        exact hr.outgoingRoom
    | stopped => exact absurd (hr.settled_of_stopped hat hout) hnot
  · exact Or.inr (hr.deliver_of_outgoing hout)

/-- A step that is taken comes first. -/
theorem advance_cons (h : Takes r s r') (more : List RelayStep) :
    r.advance (s :: more) = r'.advance more := by
  show (r.next s).advance more = r'.advance more
  rw [next, takes_iff.mp h]
  rfl

/-- From every state no more steps than its load lead to the end of all that is on its way. If the
renderer has hung up, the relay takes them alone. -/
theorem Undropped.exists_settled (hr : r.Undropped) :
    ∃ more, (∀ s ∈ more, s ∈ ownSteps ∨ s = .deliver ∧ r.hungUp = false) ∧
      more.length ≤ r.load ∧ (r.advance more).Settled := by
  -- On the load: a relay that is not settled has a step of its own or a delivery left, and each
  -- of these makes the load lighter.
  induction hload : r.load using Nat.strongRecOn generalizing r with
  | ind n ih =>
    by_cases hsettled : r.Settled
    · exact ⟨[], by simp, Nat.zero_le _, hsettled⟩
    · obtain ⟨s, hs, r', htakes⟩ : ∃ s, (s ∈ ownSteps ∨ s = .deliver ∧ r.hungUp = false) ∧
          ∃ r', Takes r s r' := by
        rcases hr.exists_step hsettled with ⟨s, hown, hpossible⟩ | ⟨hup, hpossible⟩
        · obtain ⟨r', hr'⟩ := Option.isSome_iff_exists.mp hpossible
          exact ⟨s, Or.inl hown, r', takes_iff.mpr hr'⟩
        · obtain ⟨r', hr'⟩ := Option.isSome_iff_exists.mp hpossible
          exact ⟨.deliver, Or.inr ⟨rfl, hup⟩, r', takes_iff.mpr hr'⟩
      have hmine : s ∈ .deliver :: ownSteps :=
        hs.elim (List.mem_cons_of_mem _) fun hdeliver => hdeliver.1 ▸ List.mem_cons_self
      have hless := htakes.load_lt hmine
      have hup : r'.hungUp = r.hungUp :=
        htakes.hungUp_eq (by rintro rfl; simp [ownSteps] at hmine)
      have hr' : r'.Undropped := htakes.undropped (by rintro rfl; simp [ownSteps] at hmine) hr
      obtain ⟨more, hmore, hlength, hend⟩ := ih _ (hload ▸ hless) hr' rfl
      refine ⟨s :: more, ?_, ?_, ?_⟩
      · rw [hup] at hmore
        exact List.forall_mem_cons.mpr ⟨hs, hmore⟩
      · rw [List.length_cons]
        omega
      · rw [advance_cons htakes]
        exact hend

/-! ### What arrives -/

/-- What the renderer gets of a relay that is not dropped. -/
structure Delivers (r : Relay) : Prop where
  /-- It has received the first batches that were sent, in order and once each. -/
  received : r.received = (r.sent.take r.received.length).map translate
  /-- Nobody can have sent other batches than these. -/
  determined : ∀ batches : List StatusResponse, batches.map translate = r.received →
    batches = r.sent.take r.received.length
  /-- A renderer that has not hung up has received all of them when nothing is on its way any
  more. -/
  complete : r.hungUp = false → r.Settled → r.received = r.sent.map translate
  /-- That is so when the relay has ended, which it does after the engine, and the last queue is
  empty. -/
  ended : r.phase = .stopped → r.outgoing = [] → r.engineOpen = false ∧ r.Settled
  /-- Without a renderer the relay goes on as long as a batch is left for it. -/
  drains : r.hungUp = true → r.incoming ≠ [] ∨ held r.phase ≠ [] →
    ∃ s ∈ ownSteps, (r.step? s).isSome = true
  /-- With a renderer one of the two goes on as long as there is anything to do. -/
  moves : ¬ r.Settled → (∃ s ∈ ownSteps, (r.step? s).isSome = true) ∨
    r.hungUp = false ∧ (r.step? .deliver).isSome = true
  /-- In whatever order they go on, it comes to an end. -/
  shrinks : ∀ s ∈ .deliver :: ownSteps, ∀ r', r.step? s = some r' → r'.load < r.load
  /-- At that end nothing is on its way. -/
  settles : ∃ more, (∀ s ∈ more, s ∈ ownSteps ∨ s = .deliver ∧ r.hungUp = false) ∧
    more.length ≤ r.load ∧ (r.advance more).Settled

/-- A relay that was not dropped delivers. -/
theorem Undropped.delivers (hr : r.Undropped) : r.Delivers := by
  have hreceived : r.received = (r.sent.take r.received.length).map translate := by
    have hprefix : r.received <+: r.sent.map translate :=
      (List.prefix_append _ _).trans hr.faithful.isPrefix
    rw [List.map_take]
    exact List.prefix_iff_eq_take.mp hprefix
  refine ⟨hreceived, fun batches hbatches => ?_, fun hup hsettled => ?_, fun hphase hout => ?_,
    fun hup hleft => ?_, hr.exists_step, fun s hs r' hstep => (takes_iff.mpr hstep).load_lt hs,
    hr.exists_settled⟩
  · rw [hreceived] at hbatches
    exact (List.map_inj_right fun _ _ heq => translate_injective heq).mp hbatches
  · by_cases hphase : r.phase = .stopped
    · have hall := (hr.drained hphase).delivered hup
      rwa [hsettled.outgoing, List.append_nil] at hall
    · have hall := hr.faithful.complete hup hphase
      simpa [hsettled.outgoing, hsettled.held, hsettled.incoming] using hall
  · exact ⟨(hr.closed hphase).1, hr.settled_of_stopped hphase hout⟩
  · have hnot : ¬ r.Settled := fun hsettled =>
      hleft.elim (fun hin => hin hsettled.incoming) fun hheld => hheld hsettled.held
    refine (hr.exists_step hnot).resolve_right fun hdeliver => ?_
    -- A renderer that has hung up takes nothing.
    rw [hup] at hdeliver
    cases hdeliver.1

/-- However the engine, the relay and the renderer take their turns, and whenever the renderer
hangs up if it does, the relay delivers. -/
theorem advance_delivers {incomingRoom outgoingRoom : Nat} (hin : 1 ≤ incomingRoom)
    (hout : 1 ≤ outgoingRoom) {steps : List RelayStep} (hdrop : .drop ∉ steps) :
    ((new incomingRoom outgoingRoom).advance steps).Delivers :=
  (advance_undropped (undropped_new hin hout) hdrop).delivers

/-- An empty batch. -/
def nothingNew : StatusResponse := ⟨[], [], []⟩

/-- The renderer takes one batch and hangs up while the relay has the next one in its hand and
another one waits. -/
def hungUpMidway : List RelayStep :=
  [.send nothingNew, .take, .forward, .deliver, .send nothingNew, .take, .send nothingNew,
    .hangUp]

/-- Both batches are lost, and the relay goes on by itself. -/
theorem hungUpMidway_delivers :
    ((new 1 1).advance hungUpMidway).received = [translate nothingNew] ∧
    ((new 1 1).advance hungUpMidway).sent = [nothingNew, nothingNew, nothingNew] ∧
    ((new 1 1).advance hungUpMidway).incoming = [nothingNew] ∧
    ((new 1 1).advance hungUpMidway).Delivers :=
  ⟨by decide, by decide, by decide, advance_delivers (by decide) (by decide) (by decide)⟩

end Relay
end ImageBuild.Progress
