import ImageBuild.TaskGroup.Basic

/-!
# `ImageBuild.Proofs.TaskGroup.Steps`: what a step of a group can do

`Takes` is the step function as a relation, with one rule for each kind of step and all that the
rule asks for. A step that is not possible changes nothing and records nothing (`takes_or_stays`),
so a fact that every rule keeps holds after every run (`advance_preserves`).

The one thing that all rules share is that an ended body stays ended (`Takes.persists`): a task
only moves on to be joined.
-/

set_option autoImplicit false

namespace ImageBuild.TaskGroup

/-- The recording that goes on in a step. -/
def recording? (g : TaskGroup) : Step → Option Recording
  | .record i =>
    match g.tasks[i]? with
    | some ⟨_, .recording r, _⟩ => some r
    | _ => none
  | .recordPanic => g.waiter
  | .cancel | .finish .. | .drop _ | .join _ => none

/-- The group after a step, if that is possible. -/
def next (g : TaskGroup) (s : Step) : TaskGroup := (g.step? s).getD g

/-! ### The steps that are possible -/

/-- A step of a group, with one rule for each kind. -/
inductive Takes (g : TaskGroup) : Step → TaskGroup → Prop
  | cancel : Takes g .cancel { g with outcome := { g.outcome with scopeCancelled := true } }
  | finish {i : Nat} {name : String} {ended : Option TaskEnd} (how : TaskEnd) :
    g.tasks[i]? = some ⟨name, .running, ended⟩ →
    Takes g (.finish i how) (g.setTask i ⟨name, phaseAfter how, some how⟩)
  | drop {i : Nat} {name : String} {ended : Option TaskEnd} :
    g.tasks[i]? = some ⟨name, .running, ended⟩ → g.outcome.scopeCancelled = true →
    Takes g (.drop i) (g.setTask i ⟨name, .recording (.examine .cancelled), ended⟩)
  | record {i : Nat} {name : String} {r : Recording} {ended : Option TaskEnd} :
    g.tasks[i]? = some ⟨name, .recording r, ended⟩ →
    Takes g (.record i) { g.setTask i ⟨name, phaseOf (r.step g.outcome).2, ended⟩ with
      outcome := (r.step g.outcome).1 }
  | join {i : Nat} {name : String} {panicked : Bool} {ended : Option TaskEnd} :
    g.waiter = none → g.tasks[i]? = some ⟨name, .completed panicked, ended⟩ →
    Takes g (.join i) { g.setTask i ⟨name, .joined, ended⟩ with
      waiter := if panicked then some (.examine (.taskPanicked name)) else none }
  | recordPanic {r : Recording} :
    g.waiter = some r →
    Takes g .recordPanic { g with
      outcome := (r.step g.outcome).1, waiter := (r.step g.outcome).2 }

variable {g g' : TaskGroup} {s : Step}

/-- The step of a task that is recording goes on with its recording. -/
theorem recording?_record {i : Nat} {name : String} {r : Recording} {ended : Option TaskEnd}
    (h : g.tasks[i]? = some ⟨name, .recording r, ended⟩) : g.recording? (.record i) = some r := by
  simp [recording?, h]

/-- There is no such step for any other task. -/
theorem recording?_record_eq_none {i : Nat}
    (h : ∀ name r ended, g.tasks[i]? = some ⟨name, .recording r, ended⟩ → False) :
    g.recording? (.record i) = none := by
  rw [recording?]
  split
  · next hi => exact (h _ _ _ hi).elim
  · rfl

/-- The rules are the steps that are possible. -/
theorem takes_iff : Takes g s g' ↔ g.step? s = some g' := by
  constructor
  · intro h
    cases h with
    | cancel => rfl
    | finish how hi => simp only [step?, hi]
    | drop hi hc => simp only [step?, hi, hc, if_true]
    | record hi => simp only [step?, hi]
    | join hw hi => simp only [step?, hw, hi]
    | recordPanic hw => simp only [step?, hw]
  · intro h
    unfold step? at h
    cases s with
    | cancel =>
      cases h
      exact .cancel
    | finish i how =>
      dsimp only at h
      split at h
      · next hi =>
        cases h
        exact .finish _ hi
      · cases h
    | drop i =>
      dsimp only at h
      split at h
      · next hi =>
        obtain ⟨hc, h⟩ := Option.ite_none_right_eq_some.mp h
        cases h
        exact .drop hi hc
      · cases h
    | record i =>
      dsimp only at h
      split at h
      · next hi =>
        cases h
        exact .record hi
      · cases h
    | join i =>
      dsimp only at h
      split at h
      · next hw hi =>
        cases h
        exact .join hw hi
      · cases h
    | recordPanic =>
      cases hw : g.waiter with
      | none => rw [hw] at h; cases h
      | some r =>
        rw [hw] at h
        cases h
        exact .recordPanic hw

/-- Nothing is recorded in a step that is not possible. -/
theorem recording?_eq_none (h : g.step? s = none) : g.recording? s = none := by
  cases s with
  | cancel | finish | drop | join => rfl
  | record i =>
    refine recording?_record_eq_none fun name r ended hi => ?_
    rw [takes_iff.mp (.record hi)] at h
    cases h
  | recordPanic =>
    cases hw : g.waiter with
    | none => exact hw
    | some r => rw [takes_iff.mp (.recordPanic hw)] at h; cases h

/-- A step is one of the rules, or it is not possible and nothing is recorded. -/
theorem takes_or_stays (g : TaskGroup) (s : Step) :
    Takes g s (g.next s) ∨ g.next s = g ∧ g.recording? s = none := by
  unfold next
  cases h : g.step? s with
  | some g' => exact Or.inl (takes_iff.mpr h)
  | none => exact Or.inr ⟨rfl, recording?_eq_none h⟩

/-- What every step keeps holds after a step, whether it is possible or not. -/
theorem next_preserves {P : TaskGroup → Prop}
    (hstep : ∀ {g s g'}, Takes g s g' → P g → P g') (h : P g) (s : Step) : P (g.next s) := by
  rcases takes_or_stays g s with htakes | ⟨hstays, -⟩
  · exact hstep htakes h
  · rw [hstays]; exact h

/-- What every step keeps holds after every run. -/
theorem advance_preserves {P : TaskGroup → Prop}
    (hstep : ∀ {g s g'}, Takes g s g' → P g → P g') (h : P g) (steps : List Step) :
    P (g.advance steps) := by
  induction steps generalizing g with
  | nil => exact h
  | cons s rest ih => exact ih (next_preserves hstep h s)

/-- A run of steps can be cut anywhere. -/
theorem advance_append (g : TaskGroup) (before after : List Step) :
    g.advance (before ++ after) = (g.advance before).advance after :=
  List.foldl_append

/-- A run goes on with a step that is possible after it. -/
theorem Takes.advance_concat {steps : List Step} (h : (g.advance steps).Takes s g') :
    g.advance (steps ++ [s]) = g' := by
  rw [advance_append]
  show (g.advance steps).next s = g'
  rw [next, takes_iff.mp h]
  rfl

/-! ### One task -/

/-- What a step can do to a task: nothing, unless it is a step of that task. A body ends or is
dropped only while it runs, and how it ended is never changed after that. -/
theorem Takes.task (h : Takes g s g') {i : Nat} {e : Entry} (he : g.tasks[i]? = some e) :
    g'.tasks[i]? = some e ∨
    (∃ how, s = .finish i how ∧ e.phase = .running ∧
      g'.tasks[i]? = some ⟨e.name, phaseAfter how, some how⟩) ∨
    (s = .drop i ∧ e.phase = .running ∧ g.outcome.scopeCancelled = true ∧
      g'.tasks[i]? = some ⟨e.name, .recording (.examine .cancelled), e.ended⟩) ∨
    ((s = .record i ∨ s = .join i) ∧ e.phase ≠ .running ∧ ∃ phase, phase ≠ .running ∧
      g'.tasks[i]? = some ⟨e.name, phase, e.ended⟩) := by
  -- A step of another task replaces an entry at another index.
  have hother : ∀ {j : Nat} (new : Entry), j ≠ i → (g.tasks.set j new)[i]? = some e :=
    fun new hne => by rw [List.getElem?_set_ne hne]; exact he
  have hsame : ∀ new : Entry, (g.tasks.set i new)[i]? = some new :=
    fun new => List.getElem?_set_self (List.getElem?_eq_some_iff.mp he).1
  cases h with
  | cancel | recordPanic => exact Or.inl he
  | @finish j name ended how hj =>
    by_cases hji : j = i
    · subst hji
      obtain rfl := Option.some.inj (he.symm.trans hj)
      exact Or.inr (Or.inl ⟨how, rfl, rfl, hsame _⟩)
    · exact Or.inl (hother _ hji)
  | @drop j name ended hj hc =>
    by_cases hji : j = i
    · subst hji
      obtain rfl := Option.some.inj (he.symm.trans hj)
      exact Or.inr (Or.inr (Or.inl ⟨rfl, rfl, hc, hsame _⟩))
    · exact Or.inl (hother _ hji)
  | @record j name r ended hj =>
    by_cases hji : j = i
    · subst hji
      obtain rfl := Option.some.inj (he.symm.trans hj)
      refine Or.inr (Or.inr (Or.inr ⟨Or.inl rfl, by simp, _, ?_, hsame _⟩))
      cases (r.step g.outcome).2 <;> simp [phaseOf]
    · exact Or.inl (hother _ hji)
  | @join j name panicked ended hw hj =>
    by_cases hji : j = i
    · subst hji
      obtain rfl := Option.some.inj (he.symm.trans hj)
      exact Or.inr (Or.inr (Or.inr ⟨Or.inr rfl, by simp, _, by simp, hsame _⟩))
    · exact Or.inl (hother _ hji)

/-- No step adds or removes a task. -/
theorem Takes.length_tasks (h : Takes g s g') : g'.tasks.length = g.tasks.length := by
  cases h with
  | cancel | recordPanic => rfl
  | finish | drop | record | join => exact List.length_set

/-- A group keeps its tasks in number. -/
theorem advance_length_tasks (g : TaskGroup) (steps : List Step) :
    (g.advance steps).tasks.length = g.tasks.length :=
  advance_preserves (P := fun g' => g'.tasks.length = g.tasks.length)
    (fun htakes hlength => htakes.length_tasks.trans hlength) rfl steps

/-- A body that ends by itself is over, and how it ended is kept. -/
theorem Takes.of_finish {i : Nat} {how : TaskEnd} (h : Takes g (.finish i how) g') :
    ∃ e, g'.tasks[i]? = some e ∧ e.phase ≠ .running ∧ e.ended = some how := by
  cases h with
  | finish _ hi =>
    refine ⟨_, List.getElem?_set_self (List.getElem?_eq_some_iff.mp hi).1, ?_, rfl⟩
    cases how <;> simp [phaseAfter]

/-! ### Bodies that are over -/

/-- An entry stays if another one is replaced. -/
theorem mem_set_of_ne {tasks : List Entry} {e old new : Entry} {i : Nat} (he : e ∈ tasks)
    (hold : tasks[i]? = some old) (hne : e ≠ old) : e ∈ tasks.set i new := by
  obtain ⟨j, hj⟩ := List.mem_iff_getElem?.mp he
  refine List.mem_iff_getElem?.mpr ⟨j, ?_⟩
  rw [List.getElem?_set_ne (by rintro rfl; rw [hold] at hj; cases hj; exact hne rfl)]
  exact hj

/-- An entry that is set is in the list. -/
theorem mem_set_new {tasks : List Entry} {old new : Entry} {i : Nat}
    (hold : tasks[i]? = some old) : new ∈ tasks.set i new :=
  List.mem_set (List.getElem?_eq_some_iff.mp hold).1 new

/-- A body that is over stays over, and how it ended stays the same. -/
theorem Takes.persists (h : Takes g s g') {e : Entry} (he : e ∈ g.tasks)
    (hover : e.phase ≠ .running) :
    ∃ e' ∈ g'.tasks, e'.name = e.name ∧ e'.ended = e.ended ∧ e'.phase ≠ .running ∧
      (e.phase = .joined → e'.phase = .joined) := by
  have hsame : ∀ {tasks : List Entry}, e ∈ tasks → ∃ e' ∈ tasks, e'.name = e.name ∧
      e'.ended = e.ended ∧ e'.phase ≠ .running ∧ (e.phase = .joined → e'.phase = .joined) :=
    fun he => ⟨e, he, rfl, rfl, hover, id⟩
  -- Only a task that runs can finish or be dropped, so those two replace another entry.
  cases h with
  | cancel | recordPanic => exact hsame he
  | finish how hi | drop hi =>
    exact hsame (mem_set_of_ne he hi (by rintro rfl; exact hover rfl))
  | @record i name r ended hi =>
    by_cases heq : e = ⟨name, .recording r, ended⟩
    · subst heq
      refine ⟨_, mem_set_new hi, rfl, rfl, ?_, by simp⟩
      cases (r.step g.outcome).2 <;> simp [phaseOf]
    · exact hsame (mem_set_of_ne he hi heq)
  | @join i name panicked ended hw hi =>
    by_cases heq : e = ⟨name, .completed panicked, ended⟩
    · subst heq
      exact ⟨_, mem_set_new hi, rfl, rfl, by simp, by simp⟩
    · exact hsame (mem_set_of_ne he hi heq)

/-- A body that is over stays over in a whole run, and how it ended stays the same. -/
theorem advance_persists {e : Entry} (he : e ∈ g.tasks) (hover : e.phase ≠ .running)
    (steps : List Step) :
    ∃ e' ∈ (g.advance steps).tasks, e'.name = e.name ∧ e'.ended = e.ended ∧
      e'.phase ≠ .running := by
  refine advance_preserves
    (P := fun g => ∃ e' ∈ g.tasks, e'.name = e.name ∧ e'.ended = e.ended ∧ e'.phase ≠ .running)
    ?_ ⟨e, he, rfl, rfl, hover⟩ steps
  rintro g s g' htakes ⟨e₁, he₁, hname, hended, hover₁⟩
  obtain ⟨e', he', hname', hended', hover', -⟩ := htakes.persists he₁ hover₁
  exact ⟨e', he', hname'.trans hname, hended'.trans hended, hover'⟩

/-! ### The scope -/

/-- A scope that is cancelled stays so while a recording goes on. -/
theorem Recording.scopeCancelled_step {o : Outcome} (r : Recording)
    (h : o.scopeCancelled = true) :
    (r.step o).1.scopeCancelled = true := by
  cases r with
  | examine fault => rw [step]; split <;> exact h
  | store fault => rw [step]; split <;> exact h
  | cancel => rfl

/-- A scope that is cancelled stays so. -/
theorem Takes.scopeCancelled (h : Takes g s g') (hscope : g.outcome.scopeCancelled = true) :
    g'.outcome.scopeCancelled = true := by
  cases h with
  | cancel => rfl
  | finish | drop | join => exact hscope
  | record | recordPanic => exact Recording.scopeCancelled_step _ hscope

end ImageBuild.TaskGroup
