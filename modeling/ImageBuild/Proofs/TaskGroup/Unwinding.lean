import ImageBuild.Proofs.TaskGroup.FirstFailure
import Mathlib.Algebra.Ring.Nat

/-!
# `ImageBuild.Proofs.TaskGroup.Unwinding`: a recorded failure ends the whole group

Once a failure has been recorded the scope is cancelled, and then nothing that waits for the scope
can hold up the waiter. There are two limits to this, and both are stated here.

A task that stored its failure has not cancelled the scope yet, and in between the failure of
another task may already have been turned away. So what holds at once is that the scope is
cancelled or that its cancellation is the next step of whoever stored the first failure
(`CancelledSoon`).

A body may end by itself with the very failure that stands for cancellation. That is taken for a
consequence even if the scope is open, and the scope stays open.

* `recorded_cancels`: whatever else is recorded, the scope is cancelled or about to be.
* `exists_ownStep`: from then on there is always a step that waits for no body.
* `moves_add_remaining_le`: all steps together are at most as many as are left at the start.
* `recorded_unwinds`: the three together, for every group and every run.
* `ownCancellation_waits`: a body that ends with cancellation by itself leaves the waiter waiting
  for every sibling that goes on until the scope is cancelled.
-/

set_option autoImplicit false

namespace ImageBuild.TaskGroup

variable {g g' : TaskGroup} {s : Step} {fault : BuildFault}

/-! ### What has been recorded -/

/-- The failure whose recording ends in this step. What was stored counts as recorded once the
scope is cancelled for it. -/
def Recording.recorded? (o : Outcome) : Recording → Option BuildFault
  | .examine fault => if fault.isCancelled || o.scopeCancelled then some fault else none
  | .store fault => if o.first.isSome then some fault else none
  | .cancel => o.first

/-- The failure that has been recorded when a step is done. -/
def recorded? (g : TaskGroup) (s : Step) : Option BuildFault :=
  (g.recording? s).bind (·.recorded? g.outcome)

/-- The failures whose recording ends in a run, in this order. -/
def recorded (g : TaskGroup) (steps : List Step) : List BuildFault := collect recorded? g steps

/-! ### The scope is cancelled, or will be at once -/

/-- The scope is cancelled, or that is the next step of a task or of the waiter. -/
def CancelledSoon (g : TaskGroup) : Prop :=
  g.outcome.scopeCancelled = true ∨
  (∃ (i : Nat) (name : String) (ended : Option TaskEnd),
    g.tasks[i]? = some ⟨name, .recording .cancel, ended⟩) ∨
  g.waiter = some .cancel

/-- A scope that is about to be cancelled stays so until it is. -/
theorem Takes.cancelledSoon (h : Takes g s g') (hsoon : g.CancelledSoon) : g'.CancelledSoon := by
  rcases hsoon with hscope | ⟨i, name, ended, hi⟩ | hw
  · exact Or.inl (h.scopeCancelled hscope)
  · -- Of the steps of that task only its recording is possible, and it cancels the scope.
    rcases h.task hi with hi' | ⟨how, -, hrunning, -⟩ | ⟨-, hrunning, -⟩ | ⟨hs | hs, -⟩
    · exact Or.inr (Or.inl ⟨i, name, ended, hi'⟩)
    · cases hrunning
    · cases hrunning
    · subst hs
      cases h with
      | record hi' =>
        rw [hi] at hi'
        cases hi'
        exact Or.inl rfl
    · subst hs
      cases h with
      | join _ hi' => rw [hi] at hi'; cases hi'
  · cases h with
    | cancel => exact Or.inl rfl
    | finish | drop | record => exact Or.inr (Or.inr hw)
    | join hw' => rw [hw] at hw'; cases hw'
    | recordPanic hw' =>
      rw [hw] at hw'
      cases hw'
      exact Or.inl rfl

/-- So it does over a run. -/
theorem advance_cancelledSoon (hsoon : g.CancelledSoon) (steps : List Step) :
    (g.advance steps).CancelledSoon := advance_preserves Takes.cancelledSoon hsoon steps

/-- What holds of the scope of a group at all times. -/
structure ScopeInvariant (g : TaskGroup) : Prop extends g.Invariant where
  /-- The failure that is stored cancels the scope. -/
  first : g.outcome.first.isSome = true → g.CancelledSoon
  /-- A body is dropped only in a cancelled scope. -/
  dropped : ∀ e ∈ g.tasks, e.phase ≠ .running → e.ended = none → g.outcome.scopeCancelled = true

/-- The invariant holds of a group that has just been made. -/
theorem scopeInvariant_ofNames (names : List String) (cancelled : Bool) :
    (ofNames names cancelled).ScopeInvariant where
  toInvariant := invariant_ofNames names cancelled
  first h := by cases h
  dropped e he hover := by
    obtain ⟨name, -, rfl⟩ := List.mem_map.mp he
    exact absurd rfl hover

/-- The step that records a first failure has the scope cancelled soon. -/
theorem Takes.first_cancels (h : Takes g s g')
    (hinv : g.outcome.first.isSome = true → g.CancelledSoon)
    (hfirst : g'.outcome.first.isSome = true) : g'.CancelledSoon := by
  cases hbefore : g.outcome.first with
  | some fault => exact h.cancelledSoon (hinv (by rw [hbefore]; rfl))
  | none =>
    -- So the failure is stored in this very step, and the scope is cancelled in the next one.
    cases h with
    | cancel | finish | drop | join =>
      have hnone : g.outcome.first.isSome = true := hfirst
      rw [hbefore] at hnone
      cases hnone
    | @record i name r ended hi =>
      have hstored : (g.outcome.first.or r.arriving?).isSome = true := by
        rw [← Recording.first_step]; exact hfirst
      cases r with
      | examine fault | cancel => rw [hbefore] at hstored; cases hstored
      | store fault =>
        refine Or.inr (Or.inl ⟨i, name, ended, ?_⟩)
        rw [Recording.step, hbefore]
        exact List.getElem?_set_self (List.getElem?_eq_some_iff.mp hi).1
    | @recordPanic r hw =>
      have hstored : (g.outcome.first.or r.arriving?).isSome = true := by
        rw [← Recording.first_step]; exact hfirst
      cases r with
      | examine fault | cancel => rw [hbefore] at hstored; cases hstored
      | store fault =>
        refine Or.inr (Or.inr ?_)
        show (Recording.step g.outcome (.store fault)).2 = some .cancel
        rw [Recording.step, hbefore]

/-- Only a cancelled scope has tasks that were dropped. -/
theorem Takes.scope_of_dropped (h : Takes g s g')
    (hinv : ∀ e ∈ g.tasks, e.phase ≠ .running → e.ended = none →
      g.outcome.scopeCancelled = true) :
    ∀ e ∈ g'.tasks, e.phase ≠ .running → e.ended = none → g'.outcome.scopeCancelled = true := by
  intro e' he' hover hended
  have hkept : ∀ e ∈ g.tasks, e.phase ≠ .running → e.ended = none →
      g'.outcome.scopeCancelled = true :=
    fun e he hover hended => h.scopeCancelled (hinv e he hover hended)
  cases h with
  | cancel => rfl
  | recordPanic => exact hkept e' he' hover hended
  | finish how hi =>
    rcases List.mem_or_eq_of_mem_set he' with he | rfl
    · exact hkept e' he hover hended
    · cases hended
  | drop hi hscope => exact hscope
  | record hi | join _ hi =>
    rcases List.mem_or_eq_of_mem_set he' with he | rfl
    · exact hkept e' he hover hended
    · exact hkept _ (List.mem_of_getElem? hi) (by simp) hended

/-- Every step keeps the invariant. -/
theorem step_scopeInvariant (h : Takes g s g') (hinv : g.ScopeInvariant) : g'.ScopeInvariant where
  toInvariant := step_invariant h hinv.toInvariant
  first := h.first_cancels hinv.first
  dropped := h.scope_of_dropped hinv.dropped

/-- So does a run. -/
theorem advance_scopeInvariant (hinv : g.ScopeInvariant) (steps : List Step) :
    (g.advance steps).ScopeInvariant := advance_preserves step_scopeInvariant hinv steps

/-- The body of the task ended by itself with the failure that stands for cancellation. -/
def Entry.EndedCancelled (e : Entry) : Prop := e.ended = some (.failed .cancelled)

/-- The end of a recording finds the scope cancelled or leads to that, unless a body ended by
itself with the failure that stands for cancellation. -/
theorem recorded?_cancels (hinv : g.ScopeInvariant) (h : g.recorded? s = some fault) :
    (g.next s).CancelledSoon ∨
      fault = .cancelled ∧ ∃ e ∈ g.tasks, e.phase ≠ .running ∧ e.EndedCancelled := by
  obtain ⟨r, hr, hrecorded⟩ := Option.bind_eq_some_iff.mp h
  rcases takes_or_stays g s with htakes | ⟨-, hnone⟩
  · cases r with
    | store fault' =>
      rw [Recording.recorded?] at hrecorded
      split at hrecorded
      · next hfirst =>
        exact Or.inl (htakes.cancelledSoon (hinv.first hfirst))
      · cases hrecorded
    | cancel =>
      have hfirst : g.outcome.first.isSome = true := by
        rw [Recording.recorded?] at hrecorded
        rw [hrecorded]
        rfl
      exact Or.inl (htakes.cancelledSoon (hinv.first hfirst))
    | examine fault' =>
      rw [Recording.recorded?] at hrecorded
      split at hrecorded
      · next hclosed =>
        cases hrecorded
        rcases Bool.or_eq_true_iff.mp hclosed with hcancelled | hscope
        · obtain rfl := BuildFault.isCancelled_iff.mp hcancelled
          cases s with
          | cancel | finish | drop | join => cases hr
          | record i =>
            rw [recording?] at hr
            split at hr
            · next name r ended hi =>
              cases hr
              have hmem := List.mem_of_getElem? hi
              have hfits : ended = some (.failed .cancelled) ∨ ended = none ∧ _ :=
                hinv.entry _ hmem
              rcases hfits with hended | ⟨hended, -⟩
              · exact Or.inr ⟨rfl, _, hmem, by simp, hended⟩
              · have hscope := hinv.dropped _ hmem (by simp) hended
                exact Or.inl (Or.inl (htakes.scopeCancelled hscope))
            · cases hr
          | recordPanic =>
            -- The waiter records panics only.
            obtain ⟨e, -, -, -, hfits⟩ := hinv.waiter _ hr
            cases hfits
        · exact Or.inl (Or.inl (htakes.scopeCancelled hscope))
      · cases hrecorded
  · rw [hnone] at hr
    cases hr

/-- After a run in which a failure has been recorded the scope is cancelled or about to be, unless
the failure stands for cancellation and a body ended with it by itself. -/
theorem recorded_cancels (hinv : g.ScopeInvariant) (steps : List Step)
    (h : fault ∈ g.recorded steps) :
    (g.advance steps).CancelledSoon ∨
      fault = .cancelled ∧ ∃ e ∈ (g.advance steps).tasks, e.EndedCancelled := by
  obtain ⟨before, s, after, rfl, hrecorded⟩ := mem_collect.mp h
  rw [advance_append]
  rcases recorded?_cancels (advance_scopeInvariant hinv before) hrecorded with
    hsoon | ⟨hfault, e, he, hover, hended⟩
  · exact Or.inl (advance_cancelledSoon hsoon after)
  · obtain ⟨e', he', -, hended', -⟩ := advance_persists he hover (s :: after)
    exact Or.inr ⟨hfault, e', he', hended'.trans hended⟩

/-! ### The waiter comes to its end -/

/-- The steps that need neither the end of a body nor anyone outside. -/
def Step.IsOwn : Step → Prop
  | .drop _ | .record _ | .join _ | .recordPanic => True
  | .cancel | .finish .. => False

/-- Once the scope is cancelled or about to be, there is a step that waits for no body until the
waiter is done. -/
theorem exists_ownStep (hsoon : g.CancelledSoon) (hresult : g.result? = none) :
    ∃ s, s.IsOwn ∧ (g.step? s).isSome = true := by
  have hpossible : ∀ {s g'}, s.IsOwn → Takes g s g' → ∃ s, s.IsOwn ∧ (g.step? s).isSome = true :=
    fun hown htakes => ⟨_, hown, by rw [takes_iff.mp htakes]; rfl⟩
  rcases hsoon with hscope | ⟨i, name, ended, hi⟩ | hw
  · cases hw : g.waiter with
    | some r => exact hpossible (s := .recordPanic) trivial (.recordPanic hw)
    | none =>
      -- Some task is not joined yet, and whatever its phase is, it can go on.
      have hnot : ¬ ∀ e ∈ g.tasks, e.phase = .joined := by
        intro hjoined
        have hsome := result?_eq_some_iff.mpr ⟨hjoined, hw, rfl⟩
        rw [hresult] at hsome
        cases hsome
      obtain ⟨e, he, hphase⟩ : ∃ e ∈ g.tasks, e.phase ≠ .joined := by
        simpa using hnot
      obtain ⟨i, hi⟩ := List.mem_iff_getElem?.mp he
      obtain ⟨name, phase, ended⟩ := e
      cases phase with
      | running => exact hpossible (s := .drop i) trivial (.drop hi hscope)
      | recording r => exact hpossible (s := .record i) trivial (.record hi)
      | completed panicked => exact hpossible (s := .join i) trivial (.join hw hi)
      | joined => exact absurd rfl hphase
  · exact hpossible (s := .record i) trivial (.record hi)
  · exact hpossible (s := .recordPanic) trivial (.recordPanic hw)

/-- How many steps are left of a recording. -/
def Recording.remaining : Recording → Nat
  | .examine _ => 3
  | .store _ => 2
  | .cancel => 1

/-- How many steps are left of a task at most, those of the waiter for it included. -/
def Phase.remaining : Phase → Nat
  | .running => 5
  | .recording r => r.remaining + 1
  | .completed true => 4
  | .completed false => 1
  | .joined => 0

/-- How many steps are left at most, if a body that runs is going to end somehow. -/
def remaining (g : TaskGroup) : Nat :=
  (g.tasks.map (·.phase.remaining)).sum + (g.waiter.map Recording.remaining).getD 0

/-- A recording that goes on has less left to do, whether it goes on again or is over. -/
theorem Recording.remaining_step (o : Outcome) (r : Recording) :
    (phaseOf (r.step o).2).remaining < (Phase.recording r).remaining ∧
      ((r.step o).2.map remaining).getD 0 < r.remaining := by
  cases r with
  | examine fault =>
    rw [step]
    split <;> simp [phaseOf, Phase.remaining, remaining]
  | store fault =>
    rw [step]
    split <;> simp [phaseOf, Phase.remaining, remaining]
  | cancel => simp [step, phaseOf, Phase.remaining, remaining]

/-- Replacing a task changes the sum by what is left of the two. -/
theorem sum_remaining_set {tasks : List Entry} {i : Nat} {old : Entry} (h : tasks[i]? = some old)
    (new : Entry) :
    ((tasks.set i new).map (·.phase.remaining)).sum + old.phase.remaining =
      (tasks.map (·.phase.remaining)).sum + new.phase.remaining := by
  induction tasks generalizing i with
  | nil => simp at h
  | cons e rest ih =>
    cases i with
    | zero =>
      obtain rfl : e = old := by simpa using h
      simp only [List.set_cons_zero, List.map_cons, List.sum_cons]
      omega
    | succ i =>
      have hrest := ih (by simpa using h)
      simp only [List.set_cons_succ, List.map_cons, List.sum_cons]
      omega

/-- Every step but a cancellation from outside brings the end nearer. -/
theorem Takes.remaining_lt (h : Takes g s g') (hs : s ≠ .cancel) :
    g'.remaining < g.remaining := by
  unfold remaining
  cases h with
  | cancel => exact absurd rfl hs
  | @finish i name ended how hi =>
    have hset := sum_remaining_set hi ⟨name, phaseAfter how, some how⟩
    have hless : (phaseAfter how).remaining < Phase.running.remaining := by
      cases how <;> simp [phaseAfter, Phase.remaining, Recording.remaining]
    dsimp only [setTask] at hset ⊢
    omega
  | @drop i name ended hi =>
    have hset := sum_remaining_set hi ⟨name, .recording (.examine .cancelled), ended⟩
    have hless : (Phase.recording (.examine .cancelled)).remaining < Phase.running.remaining := by
      decide
    dsimp only [setTask] at hset ⊢
    omega
  | @record i name r ended hi =>
    have hset := sum_remaining_set hi ⟨name, phaseOf (r.step g.outcome).2, ended⟩
    have hless := (r.remaining_step g.outcome).1
    dsimp only [setTask] at hset ⊢
    omega
  | @join i name panicked ended hw hi =>
    have hset := sum_remaining_set hi ⟨name, .joined, ended⟩
    -- A panic is worth the steps in which the waiter records it.
    dsimp only [setTask] at hset ⊢
    rw [hw]
    cases panicked <;> simp [Phase.remaining, Recording.remaining] at hset ⊢ <;> omega
  | @recordPanic r hw =>
    have hless := (r.remaining_step g.outcome).2
    dsimp only
    rw [hw]
    exact Nat.add_lt_add_left hless _

/-- How many steps of a run are possible when their turn comes, without cancellations from
outside. -/
def moves : TaskGroup → List Step → Nat
  | _, [] => 0
  | g, s :: rest =>
    (if s ≠ .cancel ∧ (g.step? s).isSome = true then 1 else 0) + moves (g.next s) rest

/-- A possible step of the group itself takes at least one from what is left to do, and no step
adds to it. -/
theorem remaining_next (g : TaskGroup) (s : Step) :
    (if s ≠ .cancel ∧ (g.step? s).isSome = true then 1 else 0) + (g.next s).remaining ≤
      g.remaining := by
  unfold next
  cases h : g.step? s with
  | none => simp
  | some g' =>
    have htakes := takes_iff.mpr h
    by_cases hs : s = .cancel
    · subst hs
      cases htakes
      simp [remaining]
    · have hless := htakes.remaining_lt hs
      simp only [ne_eq, hs, not_false_eq_true, Option.isSome_some, and_self, if_true,
        Option.getD_some]
      omega

/-- A run has no more steps than are left at its start. -/
theorem moves_add_remaining_le (g : TaskGroup) (steps : List Step) :
    g.moves steps + (g.advance steps).remaining ≤ g.remaining := by
  induction steps generalizing g with
  | nil => exact Nat.le_of_eq (Nat.zero_add _)
  | cons s rest ih =>
    have hstep := remaining_next g s
    have hrest := ih (g.next s)
    show (if s ≠ .cancel ∧ (g.step? s).isSome = true then 1 else 0) + (g.next s).moves rest +
      ((g.next s).advance rest).remaining ≤ g.remaining
    omega

/-- Nothing that waits for the scope can keep the waiter of this group from its end. -/
structure Unwinds (g : TaskGroup) : Prop where
  /-- The scope is cancelled, or that is the next step of whoever stored the first failure. -/
  soon : g.CancelledSoon
  /-- Whatever happens, as long as the waiter is not done there is a step that waits for no
  body. -/
  goesOn : ∀ later, (g.advance later).result? = none →
    ∃ s, s.IsOwn ∧ ((g.advance later).step? s).isSome = true
  /-- No run has more steps than this. -/
  bounded : ∀ later, g.moves later ≤ g.remaining

/-- A group whose scope is about to be cancelled unwinds. -/
theorem CancelledSoon.unwinds (hsoon : g.CancelledSoon) : g.Unwinds where
  soon := hsoon
  goesOn later := exists_ownStep (advance_cancelledSoon hsoon later)
  bounded later := by have hle := moves_add_remaining_le g later; omega

/-- A failure that has been recorded ends the whole group, in every order of steps. This holds for
every failure of a body and every panic, and also for the failure that stands for cancellation
unless a body ended with it by itself. -/
theorem recorded_unwinds (names : List String) (cancelled : Bool) (steps : List Step)
    (hrecorded : fault ∈ (ofNames names cancelled).recorded steps)
    (hcause : fault ≠ .cancelled ∨
      ∀ e ∈ ((ofNames names cancelled).advance steps).tasks, ¬ e.EndedCancelled) :
    ((ofNames names cancelled).advance steps).Unwinds := by
  rcases recorded_cancels (scopeInvariant_ofNames names cancelled) steps hrecorded with
    hsoon | ⟨hfault, e, he, hended⟩
  · exact hsoon.unwinds
  · rcases hcause with hne | hnone
    · exact absurd hfault hne
    · exact absurd hended (hnone e he)

/-- A task fails while another one, which has ended with cancellation by itself, is recording
that, and a third one goes on. -/
def failureAmongWaiting : List Step :=
  [.finish 0 (.failed .cancelled), .finish 1 (.failed .protocol), .record 0, .record 1, .record 1,
    .record 1]

/-- The first of three tasks fails while the others wait, and all of them come to an end. -/
theorem failureAmongWaiting_unwinds :
    BuildFault.protocol ∈ (ofNames ["a", "b", "c"] false).recorded failureAmongWaiting ∧
    BuildFault.protocol ≠ .cancelled ∧
    ((ofNames ["a", "b", "c"] false).advance failureAmongWaiting).Unwinds :=
  have hrecorded : BuildFault.protocol ∈
      (ofNames ["a", "b", "c"] false).recorded failureAmongWaiting := by decide
  ⟨hrecorded, by decide, recorded_unwinds _ _ _ hrecorded (Or.inl (by decide))⟩

/-- A failure that is turned away has been recorded before the scope is cancelled. -/
example :
    .protocol ∈ (ofNames ["a", "b"] false).recorded
      [.finish 0 (.failed .config), .finish 1 (.failed .protocol), .record 0, .record 1,
        .record 0, .record 1] ∧
    ((ofNames ["a", "b"] false).advance
      [.finish 0 (.failed .config), .finish 1 (.failed .protocol), .record 0, .record 1,
        .record 0, .record 1]).outcome.scopeCancelled = false := by
  decide

/-! ### A body that ends with cancellation by itself -/

/-- Nothing but the end of a body or the outside can change the scope: it is open, and whatever is
recorded stands for cancellation. -/
structure Quiet (g : TaskGroup) : Prop where
  scopeOpen : g.outcome.scopeCancelled = false
  waiter : g.waiter = none
  phase : ∀ e ∈ g.tasks, e.phase = .running ∨ e.phase = .recording (.examine .cancelled) ∨
    e.phase = .completed false ∨ e.phase = .joined

/-- A group that is quiet stays so, and a body that runs goes on. -/
theorem Takes.quiet (h : Takes g s g') (hown : s.IsOwn) (hquiet : g.Quiet) :
    g'.Quiet ∧ ∀ (i : Nat) (e : Entry), g.tasks[i]? = some e → e.phase = .running →
      g'.tasks[i]? = some e := by
  constructor
  · have hset : ∀ {i : Nat} {new : Entry}, (new.phase = .completed false ∨ new.phase = .joined) →
        ∀ e ∈ g.tasks.set i new, e.phase = .running ∨
          e.phase = .recording (.examine .cancelled) ∨ e.phase = .completed false ∨
          e.phase = .joined := by
      intro i new hnew e he
      rcases List.mem_or_eq_of_mem_set he with he | rfl
      · exact hquiet.phase e he
      · exact Or.inr (Or.inr hnew)
    -- Only recordings and joins are left: nothing cancels the scope of a quiet group from inside.
    cases h with
    | cancel | finish => exact hown.elim
    | drop _ hscope => rw [hquiet.scopeOpen] at hscope; cases hscope
    | @record i name r ended hi =>
      have hphase := hquiet.phase _ (List.mem_of_getElem? hi)
      obtain rfl : r = .examine .cancelled := by simpa using hphase
      exact ⟨hquiet.scopeOpen, hquiet.waiter, hset (Or.inl rfl)⟩
    | @join i name panicked ended hw hi =>
      have hphase := hquiet.phase _ (List.mem_of_getElem? hi)
      obtain rfl : panicked = false := by simpa using hphase
      exact ⟨hquiet.scopeOpen, rfl, hset (Or.inr rfl)⟩
    | recordPanic hw => rw [hquiet.waiter] at hw; cases hw
  · intro i e hi hrunning
    rcases h.task hi with hi' | ⟨how, rfl, -⟩ | ⟨-, -, hscope, -⟩ | ⟨-, hover, -⟩
    · exact hi'
    · exact hown.elim
    · rw [hquiet.scopeOpen] at hscope; cases hscope
    · exact absurd hrunning hover

/-- Steps of the group itself leave a quiet group quiet and its tasks running. -/
theorem Quiet.advance {own : List Step} (hquiet : g.Quiet) (hown : ∀ s ∈ own, s.IsOwn) :
    (g.advance own).Quiet ∧
      ∀ (i : Nat) (e : Entry), g.tasks[i]? = some e → e.phase = .running →
        (g.advance own).tasks[i]? = some e := by
  induction own generalizing g with
  | nil => exact ⟨hquiet, fun i e hi _ => hi⟩
  | cons s rest ih =>
    have hnext : (g.next s).Quiet ∧
        ∀ (i : Nat) (e : Entry), g.tasks[i]? = some e → e.phase = .running →
          (g.next s).tasks[i]? = some e := by
      rcases takes_or_stays g s with htakes | ⟨hstays, -⟩
      · exact htakes.quiet (hown s (List.mem_cons_self ..)) hquiet
      · rw [hstays]; exact ⟨hquiet, fun i e hi _ => hi⟩
    obtain ⟨hrest, hkept⟩ := ih hnext.1 fun s hs => hown s (List.mem_cons_of_mem _ hs)
    exact ⟨hrest, fun i e hi hrunning => hkept i e (hnext.2 i e hi hrunning) hrunning⟩

/-- After a body has ended with cancellation by itself the scope is open, and the waiter waits for
every sibling that goes on until the scope is cancelled. -/
theorem ownCancellation_waits (names : List String) {i j : Nat} (hi : i < names.length)
    (hj : j < names.length) (hne : i ≠ j) {own : List Step} (hown : ∀ s ∈ own, s.IsOwn) :
    ((ofNames names false).advance (.finish i (.failed .cancelled) :: own)).result? = none ∧
    ((ofNames names false).advance
      (.finish i (.failed .cancelled) :: own)).outcome.scopeCancelled = false := by
  have hstart : ∀ {k : Nat} (hk : k < names.length),
      (ofNames names false).tasks[k]? = some ⟨names[k], .running, none⟩ := by
    intro k hk
    simp [ofNames, hk]
  have htakes : Takes _ (.finish i (.failed .cancelled)) _ := .finish _ (hstart hi)
  have hnext := takes_iff.mp htakes
  have hquiet : ((ofNames names false).next (.finish i (.failed .cancelled))).Quiet := by
    rw [next, hnext]
    refine ⟨rfl, rfl, fun e he => ?_⟩
    rcases List.mem_or_eq_of_mem_set he with he | rfl
    · obtain ⟨name, -, rfl⟩ := List.mem_map.mp he
      exact Or.inl rfl
    · exact Or.inr (Or.inl rfl)
  have hrunning : ((ofNames names false).next (.finish i (.failed .cancelled))).tasks[j]? =
      some ⟨names[j], .running, none⟩ := by
    rw [next, hnext]
    exact (List.getElem?_set_ne hne).trans (hstart hj)
  -- The sibling runs on through all that follows, and the waiter has not joined it.
  obtain ⟨hlater, hkept⟩ := hquiet.advance hown
  refine ⟨?_, hlater.scopeOpen⟩
  have hstill := hkept j _ hrunning rfl
  cases hresult : ((ofNames names false).advance
      (.finish i (.failed .cancelled) :: own)).result? with
  | none => rfl
  | some result =>
    have hjoined := (result?_eq_some_iff.mp hresult).1 _ (List.mem_of_getElem? hstill)
    cases hjoined

end ImageBuild.TaskGroup
