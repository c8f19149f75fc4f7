import ImageBuild.Proofs.TaskGroup.Steps

/-!
# `ImageBuild.Proofs.TaskGroup.FirstFailure`: the failure that a group reports

A failure is recorded in three steps, and between them other tasks, the waiter and the outside
take theirs. So more than one failure can find the scope open (`foundOpen`), and each of these
comes to be stored (`arrivals`), in an order of its own. The first of them to arrive is the one
that is kept.

`Invariant` says how the phase of each task, the way its body ended and the outcome of the group
fit together: whatever is over without a good end has left a trace in the outcome, or the waiter
is about to leave one. `step_invariant` shows it for one step and `advance_invariant` for a whole
run.

* `advance_first`: what is stored is the first arrival, in every run.
* `advance_count`: what has been found with the scope open has arrived, or it is about to.
* `result?_reportsFirst`: once the waiter is done, the result is good exactly if all bodies ended
  well, it is the first arrival if there is one, and otherwise it is that the group was cancelled.
-/

set_option autoImplicit false

namespace ImageBuild.TaskGroup

/-! ### What is found and what arrives -/

namespace Recording

/-- The failure that is looked at in this step and finds the scope open. -/
def found? (o : Outcome) : Recording → Option BuildFault
  | .examine fault => if fault.isCancelled || o.scopeCancelled then none else some fault
  | .store _ | .cancel => none

/-- The failure that is to be stored in this step, unless there is one already. -/
def arriving? : Recording → Option BuildFault
  | .store fault => some fault
  | .examine _ | .cancel => none

/-- What arrives in the next step is what is found in this one. -/
theorem arriving?_step (o : Outcome) (r : Recording) :
    (r.step o).2.bind arriving? = r.found? o := by
  cases r with
  | examine fault =>
    rw [step, found?]
    split <;> rfl
  | store fault =>
    rw [step]
    cases o.first <;> rfl
  | cancel => rfl

/-- The first failure to arrive is stored, and it is never replaced. -/
theorem first_step (o : Outcome) (r : Recording) :
    (r.step o).1.first = o.first.or r.arriving? := by
  cases r with
  | examine fault =>
    rw [step, arriving?, Option.or_none]
    split <;> rfl
  | store fault =>
    rw [step, arriving?]
    cases hfirst : o.first with
    | none => rfl
    | some first => exact hfirst
  | cancel => rw [step, arriving?, Option.or_none]

end Recording

/-- What a look at each step of a run picks out of it. -/
def collect (look : TaskGroup → Step → Option BuildFault) :
    TaskGroup → List Step → List BuildFault
  | _, [] => []
  | g, s :: rest => (look g s).toList ++ collect look (g.next s) rest

/-- The failure that finds the scope open in a step. -/
def found? (g : TaskGroup) (s : Step) : Option BuildFault :=
  (g.recording? s).bind (·.found? g.outcome)

/-- The failure that arrives in a step. -/
def arriving? (g : TaskGroup) (s : Step) : Option BuildFault :=
  (g.recording? s).bind Recording.arriving?

/-- The failures that find the scope open in a run, in the order in which they look. -/
def foundOpen (g : TaskGroup) (steps : List Step) : List BuildFault := collect found? g steps

/-- The failures that come to be stored in a run, in the order in which they arrive. -/
def arrivals (g : TaskGroup) (steps : List Step) : List BuildFault := collect arriving? g steps

/-- A look at a run picks out what it picks out of one of the steps. -/
theorem mem_collect {look : TaskGroup → Step → Option BuildFault} {g : TaskGroup}
    {steps : List Step} {fault : BuildFault} :
    fault ∈ collect look g steps ↔
      ∃ before s after, steps = before ++ s :: after ∧
        look (g.advance before) s = some fault := by
  induction steps generalizing g with
  | nil => simp [collect]
  | cons s rest ih =>
    rw [collect, List.mem_append, Option.mem_toList, ih]
    constructor
    · rintro (h | ⟨before, s', after, rfl, h⟩)
      · exact ⟨[], s, rest, rfl, h⟩
      · exact ⟨s :: before, s', after, rfl, h⟩
    · rintro ⟨before, s', after, hsplit, h⟩
      cases before with
      | nil =>
        obtain ⟨rfl, rfl⟩ := List.cons.inj hsplit
        exact Or.inl h
      | cons first before =>
        obtain ⟨rfl, rfl⟩ := List.cons.inj hsplit
        exact Or.inr ⟨before, s', after, rfl, h⟩

/-- What a run finds open, read off its first step. -/
theorem foundOpen_cons (g : TaskGroup) (s : Step) (rest : List Step) :
    g.foundOpen (s :: rest) = (g.found? s).toList ++ (g.next s).foundOpen rest := rfl

/-- What arrives in a run, read off its first step. -/
theorem arrivals_cons (g : TaskGroup) (s : Step) (rest : List Step) :
    g.arrivals (s :: rest) = (g.arriving? s).toList ++ (g.next s).arrivals rest := rfl

variable {g g' : TaskGroup} {s : Step}

/-! ### What is stored -/

/-- A step keeps the first failure, and else the one that arrives is the first. -/
theorem first_next (g : TaskGroup) (s : Step) :
    (g.next s).outcome.first = g.outcome.first.or (g.arriving? s) := by
  rcases takes_or_stays g s with htakes | ⟨hstays, hnone⟩
  · generalize g.next s = g' at htakes
    cases htakes with
    | cancel | finish | drop | join => exact Option.or_none.symm
    | record h =>
      rw [arriving?, recording?_record h]
      exact Recording.first_step _ _
    | recordPanic h =>
      rw [arriving?, recording?, h]
      exact Recording.first_step _ _
  · rw [hstays, arriving?, hnone]
    exact Option.or_none.symm

/-- What is stored after a run is what was stored before, or else the first arrival. -/
theorem advance_first (g : TaskGroup) (steps : List Step) :
    (g.advance steps).outcome.first = g.outcome.first.or (g.arrivals steps).head? := by
  induction steps generalizing g with
  | nil => exact Option.or_none.symm
  | cons s rest ih =>
    have hrest := ih (g.next s)
    rw [first_next, Option.or_assoc] at hrest
    refine hrest.trans ?_
    rw [arrivals_cons, List.head?_append]
    cases g.arriving? s <;> rfl

/-! ### What is found arrives -/

/-- The failure that a task is about to store. -/
def Entry.pending? (e : Entry) : Option BuildFault :=
  match e.phase with
  | .recording r => r.arriving?
  | .running | .completed _ | .joined => none

/-- The failures that are about to be stored. -/
def pending (g : TaskGroup) : List BuildFault :=
  g.tasks.filterMap Entry.pending? ++ (g.waiter.bind Recording.arriving?).toList

/-- How often a failure is about to be stored by the waiter. -/
def waiterCount (g : TaskGroup) (fault : BuildFault) : Nat :=
  (g.waiter.bind Recording.arriving?).toList.count fault

/-- How often a failure is about to be stored by a task. -/
def Entry.count (e : Entry) (fault : BuildFault) : Nat := e.pending?.toList.count fault

/-- Replacing a task changes what is pending by what the two tasks have pending. Both sides are
sums, for a difference of counts would be cut off at zero. -/
theorem count_pending_set (fault : BuildFault) {tasks : List Entry} {i : Nat} {old : Entry}
    (h : tasks[i]? = some old) (new : Entry) :
    ((tasks.set i new).filterMap Entry.pending?).count fault + old.count fault =
      (tasks.filterMap Entry.pending?).count fault + new.count fault := by
  have hcons : ∀ (e : Entry) (rest : List Entry),
      ((e :: rest).filterMap Entry.pending?).count fault =
        e.count fault + (rest.filterMap Entry.pending?).count fault := by
    intro e rest
    rw [Entry.count, ← List.count_append]
    congr 1
    cases he : e.pending? <;> simp [he]
  induction tasks generalizing i with
  | nil => simp at h
  | cons e rest ih =>
    cases i with
    | zero =>
      obtain rfl : e = old := by simpa using h
      rw [List.set_cons_zero, hcons, hcons]
      omega
    | succ i =>
      have hrest := ih (by simpa using h)
      rw [List.set_cons_succ, hcons, hcons]
      omega

/-- The failures on their way are those of the tasks and the one of the waiter. -/
theorem count_pending (g : TaskGroup) (fault : BuildFault) :
    g.pending.count fault =
      (g.tasks.filterMap Entry.pending?).count fault + g.waiterCount fault := by
  rw [pending, List.count_append, waiterCount]

/-- In a step a failure that is found becomes pending, and one that arrives is pending no more. -/
theorem count_next (g : TaskGroup) (s : Step) (fault : BuildFault) :
    (g.next s).pending.count fault + (g.arriving? s).toList.count fault =
      g.pending.count fault + (g.found? s).toList.count fault := by
  rcases takes_or_stays g s with htakes | ⟨hstays, hnone⟩
  · generalize g.next s = g' at htakes
    rw [count_pending, count_pending]
    cases htakes with
    | cancel => rfl
    | @finish i name ended how h =>
      -- A body that has just ended has looked at nothing yet.
      have hold : Entry.count ⟨name, .running, ended⟩ fault = 0 := rfl
      have hnew : Entry.count ⟨name, phaseAfter how, some how⟩ fault = 0 := by cases how <;> rfl
      have hset := count_pending_set fault h ⟨name, phaseAfter how, some how⟩
      show ((g.tasks.set i _).filterMap _).count fault + g.waiterCount fault + 0 =
        (g.tasks.filterMap _).count fault + g.waiterCount fault + 0
      omega
    | @drop i name ended h =>
      have hset := count_pending_set fault h ⟨name, .recording (.examine .cancelled), ended⟩
      show ((g.tasks.set i _).filterMap _).count fault + g.waiterCount fault + 0 =
        (g.tasks.filterMap _).count fault + g.waiterCount fault + 0
      exact congrArg (· + g.waiterCount fault) hset
    | @join i name panicked ended hw h =>
      have hset := count_pending_set fault h ⟨name, .joined, ended⟩
      have hbefore : g.waiterCount fault = 0 := by rw [waiterCount, hw]; rfl
      rw [hbefore]
      cases panicked <;> exact hset
    | @record i name r ended h =>
      have hset := count_pending_set fault h ⟨name, phaseOf (r.step g.outcome).2, ended⟩
      -- What the task is about to store is what it has found in this step.
      have hnew : Entry.count ⟨name, phaseOf (r.step g.outcome).2, ended⟩ fault =
          (r.found? g.outcome).toList.count fault := by
        rw [← Recording.arriving?_step]
        cases (r.step g.outcome).2 <;> rfl
      rw [arriving?, found?, recording?_record h]
      show ((g.tasks.set i _).filterMap _).count fault + g.waiterCount fault +
          Entry.count ⟨name, .recording r, ended⟩ fault =
        (g.tasks.filterMap _).count fault + g.waiterCount fault +
          (r.found? g.outcome).toList.count fault
      omega
    | @recordPanic r h =>
      have hbefore : g.waiterCount fault = r.arriving?.toList.count fault := by
        rw [waiterCount, h]; rfl
      have hafter : ((r.step g.outcome).2.bind Recording.arriving?).toList.count fault =
          (r.found? g.outcome).toList.count fault := by rw [Recording.arriving?_step]
      rw [arriving?, found?, recording?, h, hbefore]
      show (g.tasks.filterMap _).count fault +
          ((r.step g.outcome).2.bind Recording.arriving?).toList.count fault +
          r.arriving?.toList.count fault =
        (g.tasks.filterMap _).count fault + r.arriving?.toList.count fault +
          (r.found? g.outcome).toList.count fault
      omega
  · rw [hstays, arriving?, found?, hnone]
    rfl

/-- What was pending and what was found in a run has arrived in it, or it is still pending. -/
theorem advance_count (g : TaskGroup) (steps : List Step) (fault : BuildFault) :
    (g.advance steps).pending.count fault + (g.arrivals steps).count fault =
      g.pending.count fault + (g.foundOpen steps).count fault := by
  induction steps generalizing g with
  | nil => rfl
  | cons s rest ih =>
    have hstep := count_next g s fault
    have hrest := ih (g.next s)
    rw [arrivals_cons, foundOpen_cons, List.count_append, List.count_append]
    show ((g.next s).advance rest).pending.count fault + _ = _
    omega

/-! ### How phases, ends and the outcome fit together -/

/-- The group has something other than success to report. -/
def Outcome.Reported (o : Outcome) : Prop := o.first.isSome = true ∨ o.stopped = true

/-- The group has something other than success to report, or the waiter is about to. -/
def Accounted (g : TaskGroup) : Prop := g.outcome.Reported ∨ g.waiter.isSome = true

/-- A recording is about a failure of some kind, and once the failure is stored there is something
to report. -/
def Recording.Fits (o : Outcome) (isOf : BuildFault → Prop) : Recording → Prop
  | .examine fault | .store fault => isOf fault
  | .cancel => o.Reported

/-- The phase of a task fits the way its body ended, and a task that is over without a good end is
accounted for. -/
def Entry.Fits (g : TaskGroup) (e : Entry) : Prop :=
  match e.phase with
  | .running => e.ended = none
  | .recording r =>
    r.Fits g.outcome fun fault =>
      e.ended = some (.failed fault) ∨ e.ended = none ∧ fault = .cancelled
  | .completed true => e.ended = some .panicked
  | .completed false | .joined => e.ended = some .ok ∨ g.Accounted

/-- The body of the task is over and did not end well. -/
def Entry.EndedBadly (e : Entry) : Prop := e.phase ≠ .running ∧ e.ended ≠ some .ok

/-- What holds of a group at all times. -/
structure Invariant (g : TaskGroup) : Prop where
  entry : ∀ e ∈ g.tasks, e.Fits g
  /-- The waiter records the panic of a task that it has joined. -/
  waiter : ∀ r, g.waiter = some r → ∃ e ∈ g.tasks, e.phase = .joined ∧
    e.ended = some .panicked ∧ r.Fits g.outcome (· = .taskPanicked e.name)
  /-- There is nothing to report without a task that ended badly. -/
  reported : g.outcome.Reported → ∃ e ∈ g.tasks, e.EndedBadly

/-- The invariant holds of a group that has just been made. -/
theorem invariant_ofNames (names : List String) (cancelled : Bool) :
    (ofNames names cancelled).Invariant where
  entry e he := by
    obtain ⟨name, -, rfl⟩ := List.mem_map.mp he
    rfl
  waiter r h := by cases h
  reported h := by rcases h with h | h <;> cases h

/-- What was reported stays so while a recording goes on. -/
theorem Recording.reported_step {o : Outcome} (r : Recording) (h : o.Reported) :
    (r.step o).1.Reported := by
  cases r with
  | examine fault =>
    rw [step]
    split
    · exact Or.inr rfl
    · exact h
  | store fault =>
    rw [step]
    split
    · exact h
    · exact Or.inl rfl
  | cancel => exact h

/-- A recording keeps to its failure, and when it is over there is something to report. -/
theorem Recording.Fits.step {o : Outcome} {isOf : BuildFault → Prop} {r : Recording}
    (h : r.Fits o isOf) :
    match (r.step o).2 with
    | some r' => r'.Fits (r.step o).1 isOf
    | none => (r.step o).1.Reported := by
  cases r with
  | examine fault =>
    rw [Recording.step]
    by_cases hclosed : (fault.isCancelled || o.scopeCancelled) = true
    · rw [if_pos hclosed]; exact Or.inr rfl
    · rw [if_neg hclosed]; exact h
  | store fault =>
    rw [Recording.step]
    cases hfirst : o.first with
    | none => exact Or.inl rfl
    | some first =>
      show o.Reported
      exact Or.inl (by rw [hfirst]; rfl)
  | cancel => exact h

/-- A recording fits what comes later. -/
theorem Recording.Fits.mono {o o' : Outcome} {isOf : BuildFault → Prop} {r : Recording}
    (h : r.Fits o isOf) (hmono : o.Reported → o'.Reported) : r.Fits o' isOf := by
  cases r with
  | examine fault | store fault => exact h
  | cancel => exact hmono h

/-- So does a task. -/
theorem Entry.Fits.mono {e : Entry} (h : e.Fits g)
    (hreported : g.outcome.Reported → g'.outcome.Reported)
    (haccounted : g.Accounted → g'.Accounted) : e.Fits g' := by
  obtain ⟨name, phase, ended⟩ := e
  cases phase with
  | running => exact h
  | recording r => exact Recording.Fits.mono h hreported
  | completed panicked =>
    cases panicked with
    | true => exact h
    | false => exact Or.imp_right haccounted h
  | joined => exact Or.imp_right haccounted h

/-- What was reported stays so. -/
theorem Takes.reported (h : Takes g s g') (hreported : g.outcome.Reported) :
    g'.outcome.Reported := by
  cases h with
  | cancel | finish | drop | join => exact hreported
  | record | recordPanic => exact Recording.reported_step _ hreported

/-- What is accounted for stays so: the waiter ends a recording only with something to report. -/
theorem Takes.accounted (h : Takes g s g') (hinv : g.Invariant) (haccounted : g.Accounted) :
    g'.Accounted := by
  rcases haccounted with hreported | hwaiter
  · exact Or.inl (h.reported hreported)
  · cases h with
    | cancel | finish | drop | record => exact Or.inr hwaiter
    | join hw => rw [hw] at hwaiter; cases hwaiter
    | @recordPanic r hr =>
      obtain ⟨e, -, -, -, hfits⟩ := hinv.waiter r hr
      have hstep := hfits.step
      unfold Accounted
      dsimp only
      cases hrest : (r.step g.outcome).2 with
      | some r' => exact Or.inr rfl
      | none => rw [hrest] at hstep; exact Or.inl hstep

/-- Entries that fit still fit after a step, if one of them is replaced by one that does. -/
theorem entries_of_set (hinv : g.Invariant) (hreported : g.outcome.Reported → g'.outcome.Reported)
    (haccounted : g.Accounted → g'.Accounted) {i : Nat} {new : Entry} (hnew : new.Fits g')
    {e : Entry} (he : e ∈ g.tasks.set i new) : e.Fits g' := by
  rcases List.mem_or_eq_of_mem_set he with he | rfl
  · exact (hinv.entry e he).mono hreported haccounted
  · exact hnew

/-- After a step every task still fits. -/
theorem Takes.entry (h : Takes g s g') (hinv : g.Invariant) : ∀ e ∈ g'.tasks, e.Fits g' := by
  have hreported := h.reported
  have haccounted := h.accounted hinv
  intro e he
  cases h with
  | cancel | recordPanic => exact (hinv.entry e he).mono hreported haccounted
  | @finish i name ended how hi =>
    refine entries_of_set hinv hreported haccounted ?_ he
    cases how with
    | ok => exact Or.inl rfl
    | failed fault => exact Or.inl rfl
    | panicked => exact rfl
  | @drop i name ended hi hc =>
    -- The body was dropped while it ran, so what is recorded is no end of its own.
    have hrunning : ended = none := hinv.entry _ (List.mem_of_getElem? hi)
    refine entries_of_set hinv hreported haccounted ?_ he
    exact Or.inr ⟨hrunning, rfl⟩
  | @record i name r ended hi =>
    have hfits : r.Fits g.outcome _ := hinv.entry _ (List.mem_of_getElem? hi)
    have hstep := hfits.step
    refine entries_of_set hinv hreported haccounted ?_ he
    cases hrest : (r.step g.outcome).2 with
    | some r' => rw [hrest] at hstep; exact hstep
    | none => rw [hrest] at hstep; exact Or.inr (Or.inl hstep)
  | @join i name panicked ended hw hi =>
    have hcompleted := hinv.entry _ (List.mem_of_getElem? hi)
    refine entries_of_set hinv hreported haccounted ?_ he
    cases panicked with
    | true => exact Or.inr (Or.inr rfl)
    | false => exact Or.imp_right haccounted hcompleted

/-- What the waiter records is the panic of a task that it has joined. -/
theorem Takes.waiter (h : Takes g s g') (hinv : g.Invariant) (r : Recording)
    (hr : g'.waiter = some r) : ∃ e ∈ g'.tasks, e.phase = .joined ∧ e.ended = some .panicked ∧
      r.Fits g'.outcome (· = .taskPanicked e.name) := by
  -- While the waiter is at the same recording, its task stays joined.
  have hkept : g.waiter = some r → ∃ e ∈ g'.tasks, e.phase = .joined ∧
      e.ended = some .panicked ∧ r.Fits g'.outcome (· = .taskPanicked e.name) := by
    intro hr
    obtain ⟨e, he, hphase, hended, hfits⟩ := hinv.waiter r hr
    obtain ⟨e', he', hname, hended', -, hjoined⟩ := h.persists he (by rw [hphase]; simp)
    refine ⟨e', he', hjoined hphase, hended'.trans hended, ?_⟩
    rw [hname]
    exact hfits.mono h.reported
  cases h with
  | cancel | finish | drop | record => exact hkept hr
  | @join i name panicked ended hw hi =>
    cases panicked with
    | false => cases hr
    | true =>
      cases hr
      have hended : ended = some .panicked := hinv.entry _ (List.mem_of_getElem? hi)
      exact ⟨_, mem_set_new hi, rfl, hended, rfl⟩
  | @recordPanic r₀ hr₀ =>
    obtain ⟨e, he, hphase, hended, hfits⟩ := hinv.waiter r₀ hr₀
    have hstep := hfits.step
    have hrest : (r₀.step g.outcome).2 = some r := hr
    rw [hrest] at hstep
    exact ⟨e, he, hphase, hended, hstep⟩

/-- What is reported has a task that ended badly. -/
theorem Takes.badEnd (h : Takes g s g') (hinv : g.Invariant) (hreported : g'.outcome.Reported) :
    ∃ e ∈ g'.tasks, e.EndedBadly := by
  have hkept : (∃ e ∈ g.tasks, e.EndedBadly) → ∃ e ∈ g'.tasks, e.EndedBadly := by
    rintro ⟨e, he, hover, hbad⟩
    obtain ⟨e', he', -, hended, hover', -⟩ := h.persists he hover
    exact ⟨e', he', hover', by rw [hended]; exact hbad⟩
  cases h with
  | cancel | finish | drop | join => exact hkept (hinv.reported hreported)
  | @record i name r ended hi =>
    -- The task that records has ended badly itself, unless its failure is stored already.
    have hmem := List.mem_of_getElem? hi
    have hfits : r.Fits g.outcome fun fault =>
      ended = some (.failed fault) ∨ ended = none ∧ fault = .cancelled := hinv.entry _ hmem
    have hbad : ended ≠ some .ok → ∃ e ∈ g.tasks, e.EndedBadly := fun hended =>
      ⟨_, hmem, by simp, hended⟩
    cases r with
    | examine fault | store fault =>
      refine hkept (hbad ?_)
      rcases hfits with hended | ⟨hended, -⟩
      · rw [hended]; simp
      · rw [hended]; simp
    | cancel => exact hkept (hinv.reported hfits)
  | @recordPanic r hr =>
    obtain ⟨e, he, hphase, hended, -⟩ := hinv.waiter r hr
    exact hkept ⟨e, he, by rw [hphase]; simp, by rw [hended]; simp⟩

/-- Every step keeps the invariant. -/
theorem step_invariant (h : Takes g s g') (hinv : g.Invariant) : g'.Invariant where
  entry := h.entry hinv
  waiter := h.waiter hinv
  reported := h.badEnd hinv

/-- So does a run. -/
theorem advance_invariant (hinv : g.Invariant) (steps : List Step) :
    (g.advance steps).Invariant := advance_preserves step_invariant hinv steps

/-! ### Failures that are found are failures of a body -/

/-- The failure is what the body of the task ended with. -/
def Entry.Causes (e : Entry) (fault : BuildFault) : Prop :=
  e.ended = some (.failed fault) ∨ e.ended = some .panicked ∧ fault = .taskPanicked e.name

/-- A failure that finds the scope open is what a body ended with, and not that it was
cancelled. -/
theorem found?_causes (hinv : g.Invariant) {fault : BuildFault} (h : g.found? s = some fault) :
    fault ≠ .cancelled ∧ ∃ e ∈ g.tasks, e.phase ≠ .running ∧ e.Causes fault := by
  obtain ⟨r, hr, hfound⟩ := Option.bind_eq_some_iff.mp h
  -- With an open scope, all but cancellation itself is stored.
  have hopen : r = .examine fault ∧ fault ≠ .cancelled := by
    cases r with
    | store | cancel => cases hfound
    | examine fault' =>
      rw [Recording.found?] at hfound
      split at hfound
      · cases hfound
      · next hopen =>
        cases hfound
        exact ⟨rfl, by rintro rfl; exact hopen rfl⟩
  obtain ⟨rfl, hne⟩ := hopen
  refine ⟨hne, ?_⟩
  cases s with
  | cancel | finish | drop | join => cases hr
  | record i =>
    rw [recording?] at hr
    split at hr
    · next name r ended hi =>
      cases hr
      have hfits : ended = some (.failed fault) ∨ ended = none ∧ fault = .cancelled :=
        hinv.entry _ (List.mem_of_getElem? hi)
      exact ⟨_, List.mem_of_getElem? hi, by simp, Or.inl (hfits.resolve_right fun h => hne h.2)⟩
    · cases hr
  | recordPanic =>
    obtain ⟨e, he, hphase, hended, hfits⟩ := hinv.waiter _ hr
    exact ⟨e, he, by rw [hphase]; simp, Or.inr ⟨hended, hfits⟩⟩

/-- What a run finds open was caused by one of its tasks. -/
theorem foundOpen_causes (hinv : g.Invariant) (steps : List Step) {fault : BuildFault}
    (h : fault ∈ g.foundOpen steps) :
    fault ≠ .cancelled ∧ ∃ e ∈ (g.advance steps).tasks, e.Causes fault := by
  induction steps generalizing g with
  | nil => cases h
  | cons s rest ih =>
    rw [foundOpen_cons, List.mem_append, Option.mem_toList] at h
    rcases h with h | h
    · obtain ⟨hne, e, he, hover, hcauses⟩ := found?_causes hinv h
      obtain ⟨e', he', hname, hended, -⟩ := advance_persists he hover (s :: rest)
      refine ⟨hne, e', he', ?_⟩
      unfold Entry.Causes at hcauses ⊢
      rw [hname, hended]
      exact hcauses
    · exact ih (next_preserves step_invariant hinv s) h

/-! ### The result -/

/-- What a group has to report once the waiter is done, in terms of its run. -/
structure ReportsFirst (g : TaskGroup) (steps : List Step) (result : Except BuildFault Unit) :
    Prop where
  /-- The result is good exactly if every body ended well. -/
  ok_iff : result = .ok () ↔ ∀ e ∈ (g.advance steps).tasks, e.ended = some .ok
  /-- Any other failure than cancellation is the one that arrived first. -/
  error_iff : ∀ fault, fault ≠ .cancelled →
    (result = .error fault ↔ (g.arrivals steps).head? = some fault)
  /-- In every other case the group was cancelled. -/
  cancelled_iff : result = .error .cancelled ↔
    g.arrivals steps = [] ∧ ∃ e ∈ (g.advance steps).tasks, e.ended ≠ some .ok
  /-- What arrives is what found the scope open, perhaps in another order. -/
  arrivals_perm : (g.arrivals steps).Perm (g.foundOpen steps)
  /-- What found the scope open is what a body ended with by itself. -/
  causes : ∀ fault ∈ g.foundOpen steps,
    fault ≠ .cancelled ∧ ∃ e ∈ (g.advance steps).tasks, e.Causes fault
  /-- Whatever is stored at any time during the run is the result. -/
  kept : ∀ before after fault, steps = before ++ after →
    (g.advance before).outcome.first = some fault → result = .error fault

/-- There is a result once all tasks are joined and the waiter has nothing left to record. It is
the first failure, if there is one. -/
theorem result?_eq_some_iff {result : Except BuildFault Unit} :
    g.result? = some result ↔
      (∀ e ∈ g.tasks, e.phase = .joined) ∧ g.waiter = none ∧
        result = match g.outcome.first with
          | some fault => .error fault
          | none => if g.outcome.stopped then .error .cancelled else .ok () := by
  unfold result?
  simp only [List.all_eq_true, decide_eq_true_eq]
  split
  · next h =>
    rw [Option.some.injEq]
    exact ⟨fun heq => ⟨h.1, h.2, heq.symm⟩, fun heq => heq.2.2.symm⟩
  · next h =>
    constructor
    · intro hnone; cases hnone
    · rintro ⟨hjoined, hwaiter, -⟩; exact absurd ⟨hjoined, hwaiter⟩ h

/-- Once the waiter is done, nothing but a cancellation from outside is possible. -/
theorem Takes.eq_cancel_of_result? (h : Takes g s g') {result : Except BuildFault Unit}
    (hresult : g.result? = some result) : s = .cancel := by
  obtain ⟨hjoined, hwaiter, -⟩ := result?_eq_some_iff.mp hresult
  cases h with
  | cancel => rfl
  | finish _ hi | drop hi | record hi | join _ hi =>
    have hphase := hjoined _ (List.mem_of_getElem? hi)
    cases hphase
  | recordPanic hw => rw [hwaiter] at hw; cases hw

/-- Nothing is pending once the waiter is done. -/
theorem pending_eq_nil (hjoined : ∀ e ∈ g.tasks, e.phase = .joined) (hwaiter : g.waiter = none) :
    g.pending = [] := by
  have htasks : g.tasks.filterMap Entry.pending? = [] := by
    rw [List.filterMap_eq_nil_iff]
    intro e he
    rw [Entry.pending?, hjoined e he]
  rw [pending, htasks, hwaiter]
  rfl

/-- Once the waiter is done, whatever found the scope open has arrived. -/
theorem arrivals_perm_foundOpen (names : List String) (cancelled : Bool) (steps : List Step)
    (hjoined : ∀ e ∈ ((ofNames names cancelled).advance steps).tasks, e.phase = .joined)
    (hwaiter : ((ofNames names cancelled).advance steps).waiter = none) :
    ((ofNames names cancelled).arrivals steps).Perm
      ((ofNames names cancelled).foundOpen steps) := by
  rw [List.perm_iff_count]
  intro fault
  have hcount := advance_count (ofNames names cancelled) steps fault
  have hstart : (ofNames names cancelled).pending = [] := by
    simp [pending, ofNames, Entry.pending?]
  rw [pending_eq_nil hjoined hwaiter, hstart] at hcount
  simpa using hcount

/-- Once the waiter is done, all bodies have ended well exactly if there is nothing to report. -/
theorem Invariant.all_ok_iff (hinv : g.Invariant) (hjoined : ∀ e ∈ g.tasks, e.phase = .joined)
    (hwaiter : g.waiter = none) :
    (∀ e ∈ g.tasks, e.ended = some .ok) ↔ ¬ g.outcome.Reported := by
  constructor
  · intro hok hreported
    obtain ⟨e, he, -, hbad⟩ := hinv.reported hreported
    exact hbad (hok e he)
  · intro hnot e he
    have hfits := hinv.entry e he
    rw [Entry.Fits, hjoined e he] at hfits
    refine hfits.resolve_right ?_
    rintro (hreported | hw)
    · exact hnot hreported
    · rw [hwaiter] at hw; cases hw

/-- The result is not good exactly if there is something to report. -/
theorem reported_iff_ne_ok {o : Outcome} {result : Except BuildFault Unit}
    (h : result = match o.first with
      | some fault => .error fault
      | none => if o.stopped then .error .cancelled else .ok ()) :
    o.Reported ↔ result ≠ .ok () := by
  subst h
  unfold Outcome.Reported
  cases o.first with
  | some fault => simp
  | none => cases o.stopped <;> simp

/-- A group reports the failure that was stored first among those that were recorded while the
scope was open. This holds for every set of tasks, whichever way their bodies end, for a scope
that is cancelled at any time or never, and for every order of steps after which the waiter is
done. A failure that is recorded after the scope was cancelled is not among them and is never
reported. -/
theorem result?_reportsFirst (names : List String) (cancelled : Bool) (steps : List Step)
    {result : Except BuildFault Unit}
    (h : ((ofNames names cancelled).advance steps).result? = some result) :
    (ofNames names cancelled).ReportsFirst steps result := by
  obtain ⟨hjoined, hwaiter, hresult⟩ := result?_eq_some_iff.mp h
  have hstart := invariant_ofNames names cancelled
  have hinv := advance_invariant hstart steps
  have hperm := arrivals_perm_foundOpen names cancelled steps hjoined hwaiter
  have hcauses := fun fault (hf : fault ∈ (ofNames names cancelled).foundOpen steps) =>
    foundOpen_causes hstart steps hf
  have hfirst : ((ofNames names cancelled).advance steps).outcome.first =
      ((ofNames names cancelled).arrivals steps).head? := advance_first _ steps
  have hreported := reported_iff_ne_ok hresult
  refine ⟨?_, ?_, ?_, hperm, hcauses, ?_⟩
  · rw [hinv.all_ok_iff hjoined hwaiter, hreported, Classical.not_not]
  · intro fault hne
    rw [← hfirst, hresult]
    cases ((ofNames names cancelled).advance steps).outcome.first with
    | some first => simp
    | none => cases ((ofNames names cancelled).advance steps).outcome.stopped <;> simp [hne.symm]
  · constructor
    · intro hcancelled
      have hbad := hinv.reported (hreported.mpr (by rw [hcancelled]; simp))
      obtain ⟨e, he, -, hended⟩ := hbad
      refine ⟨?_, e, he, hended⟩
      cases harrivals : (ofNames names cancelled).arrivals steps with
      | nil => rfl
      | cons fault rest =>
        -- The first arrival would be the result, and no failure of a body is cancellation.
        have hne := (hcauses fault (hperm.subset (by rw [harrivals]; simp))).1
        rw [hresult, hfirst, harrivals] at hcancelled
        exact absurd (Except.error.inj hcancelled) hne
    · rintro ⟨hnil, e, he, hended⟩
      have hnotOk : result ≠ .ok () := by
        rw [← hreported]
        refine Classical.byContradiction fun hnot => ?_
        exact hended ((hinv.all_ok_iff hjoined hwaiter).mpr hnot e he)
      rw [hnil] at hfirst
      rw [hresult, hfirst] at hnotOk ⊢
      cases hstopped : ((ofNames names cancelled).advance steps).outcome.stopped with
      | true => rfl
      | false => rw [hstopped] at hnotOk; exact absurd rfl hnotOk
  · rintro before after fault rfl hbefore
    have hlater := advance_first ((ofNames names cancelled).advance before) after
    rw [← advance_append, hbefore, Option.some_or] at hlater
    rw [hresult, hlater]

/-- Three tasks, of which two fail while the scope is open and the third panics. The failure that
is found first is the second to arrive, and the panic is noticed after the scope was cancelled. -/
def concurrentFailures : List Step :=
  [.finish 0 (.failed .config), .finish 1 (.failed .protocol), .finish 2 .panicked, .record 0,
    .record 1, .record 1, .record 0, .record 1, .join 0, .join 2, .recordPanic, .join 1]

/-- Two tasks fail at once, and the one that recorded its failure first is reported. -/
theorem concurrentFailures_reportsFirst :
    ((ofNames ["a", "b", "c"] false).advance concurrentFailures).result? =
      some (.error .protocol) ∧
    (ofNames ["a", "b", "c"] false).ReportsFirst concurrentFailures (.error .protocol) :=
  ⟨rfl, result?_reportsFirst ["a", "b", "c"] false concurrentFailures rfl⟩

end ImageBuild.TaskGroup
