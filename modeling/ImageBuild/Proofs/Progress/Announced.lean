import ImageBuild.Proofs.Progress.Pages

/-!
# `ImageBuild.Proofs.Progress.Announced`: the name and the outcome of a vertex

What a run writes of a vertex, told from the updates alone and without the flags that the renderer
keeps. The name of a vertex is written at the first update that says it runs or need not run
(`Vertex.Begins`), and its outcome at the first that says how it ended (`Vertex.Ends`). No other
update of a vertex writes anything, so each of the two lines is there at most once:
`run_printsOnce`.

The two lines come in the order of these two updates. An update can say that a vertex ended
without saying that it ever ran. A vertex whose first word is such an update gets its outcome
first, and its name later if a later update says that it runs. `namesFirst_iff` says that this is
the only way, and `failedFirst_not_namesFirst` is such a run.

Both results are about the flags after all updates before (`written_after`). That the lines of one
kind are few goes through `countP_pages`: each such line raises a flag, and there is one flag.
-/

set_option autoImplicit false

namespace ImageBuild.Progress

/-! ### What an update says -/

namespace Vertex

/-- The vertex runs, or need not run because its result is there. -/
def Begins (v : Vertex) : Prop := v.started.isSome = true ∨ v.cached = true

/-- The vertex has ended: with an error, by its result being there, or at some time. -/
def Ends (v : Vertex) : Prop := v.error ≠ "" ∨ v.cached = true ∨ v.completed.isSome = true

/-- What is said of how a vertex ended. An error goes before the cache, and that before a
completion. -/
inductive EndsAs (v : Vertex) : String → Prop
  | error : v.error ≠ "" → EndsAs v ("ERROR: " ++ v.error)
  | cached : v.error = "" → v.cached = true → EndsAs v "CACHED"
  | done {stop : Instant} : v.error = "" → v.cached = false → v.completed = some stop →
    v.started = none → EndsAs v "DONE"
  | doneAfter {start stop : Instant} : v.error = "" → v.cached = false → v.completed = some stop →
    v.started = some start →
    EndsAs v ("DONE " ++ Text.secondsText (Instant.millisBetween start stop).toNat ++ "s")

end Vertex

/-- Among these updates none says of the vertex what `P` asks for. -/
def NoneTells (P : Vertex → Prop) (digest : String) (us : List Update) : Prop :=
  ∀ v, .vertex v ∈ us → v.digest = digest → ¬ P v

/-- After these updates, this is the first that says of its vertex what `P` asks for. -/
def TellsFirst (P : Vertex → Prop) (before : List Update) (v : Vertex) : Prop :=
  P v ∧ NoneTells P v.digest before

/-- No name line of the vertex comes after an outcome line of it. -/
def NamesFirst (digest : String) (lines : List Line) : Prop :=
  lines.Pairwise fun l l' => l.isOutcomeOf digest = true → l'.isNameOf digest = false

/-- The lines that may be the name of a vertex: one at the update that is the first to say that it
begins. -/
inductive NameLines (before : List Update) (v : Vertex) (number : Nat) : List Line → Prop
  | written : TellsFirst Vertex.Begins before v →
    NameLines before v number [.name v.digest number v.name]
  | none : ¬ TellsFirst Vertex.Begins before v → NameLines before v number []

/-- The lines that may be the outcome of a vertex: one at the update that is the first to say that
it ended. -/
inductive OutcomeLines (before : List Update) (v : Vertex) (number : Nat) : List Line → Prop
  | written {text : String} : TellsFirst Vertex.Ends before v → v.EndsAs text →
    OutcomeLines before v number [.outcome v.digest number text]
  | none : ¬ TellsFirst Vertex.Ends before v → OutcomeLines before v number []

/-- Some update says that the vertex ended, none up to it that it runs or need not run, and a
later one says so. -/
def EndsUnannounced (digest : String) (us : List Update) : Prop :=
  ∃ before v rest w, us = before ++ .vertex v :: rest ∧ v.digest = digest ∧ v.Ends ∧
    NoneTells Vertex.Begins digest (before ++ [.vertex v]) ∧
    .vertex w ∈ rest ∧ w.digest = digest ∧ w.Begins

namespace Renderer

variable {v : Vertex} {digest text : String} {us : List Update}

/-- The renderer takes a vertex for begun exactly if it has. -/
theorem begins_iff : begins v = true ↔ v.Begins := by
  unfold begins Vertex.Begins
  rw [Bool.or_eq_true]

/-- The renderer takes a vertex for ended exactly if it has. -/
theorem ends_iff : ends v = true ↔ v.Ends := by
  unfold ends outcome? Vertex.Ends
  by_cases herror : v.error = ""
  · rw [if_neg (not_not_intro herror)]
    cases v.cached with
    | true => simp
    | false => cases v.completed <;> cases v.started <;> simp [herror]
  · rw [if_pos herror]
    simp [herror]

/-- The outcome that is printed is the one by priority. -/
theorem outcome?_eq_some_iff : outcome? v = some text ↔ v.EndsAs text := by
  constructor
  · -- One case for each exit of the choice.
    intro h
    unfold outcome? at h
    by_cases herror : v.error = ""
    · rw [if_neg (not_not_intro herror)] at h
      cases hcached : v.cached with
      | true =>
        rw [if_pos hcached] at h
        cases h
        exact .cached herror hcached
      | false =>
        rw [if_neg (Bool.eq_false_iff.mp hcached)] at h
        cases hstop : v.completed with
        | none => rw [hstop] at h; cases h
        | some stop =>
          cases hstart : v.started with
          | none =>
            rw [hstop, hstart] at h
            cases h
            exact .done herror hcached hstop hstart
          | some start =>
            rw [hstop, hstart] at h
            cases h
            exact .doneAfter herror hcached hstop hstart
    · rw [if_pos herror] at h
      cases h
      exact .error herror
  · intro h
    unfold outcome?
    cases h with
    | error herror =>
      rw [if_pos herror]
      rfl
    | cached herror hcached => rw [if_neg (not_not_intro herror), if_pos hcached]
    | done herror hcached hstop hstart =>
      rw [if_neg (not_not_intro herror), if_neg (by simp [hcached]), hstop, hstart]
    | doneAfter herror hcached hstop hstart =>
      rw [if_neg (not_not_intro herror), if_neg (by simp [hcached]), hstop, hstart]
      rfl

/-- One more update that does not tell makes no difference. -/
theorem noneTells_cons {P : Vertex → Prop} {u : Update}
    (hu : ∀ v, u = .vertex v → v.digest = digest → ¬ P v) (h : NoneTells P digest us) :
    NoneTells P digest (u :: us) := by
  intro v hv
  cases List.mem_cons.mp hv with
  | inl hhere => exact hu v hhere.symm
  | inr hlater => exact h v hlater

/-- If some update says of the vertex what `P` asks for, one is the first. -/
theorem exists_first_tells {P : Vertex → Prop} (h : ¬ NoneTells P digest us) :
    ∃ before v rest, us = before ++ .vertex v :: rest ∧ v.digest = digest ∧
      TellsFirst P before v := by
  induction us with
  | nil => exact absurd (fun v hv => nomatch hv) h
  | cons u more ih =>
    by_cases htells : ∃ v, u = .vertex v ∧ v.digest = digest ∧ P v
    · obtain ⟨v, rfl, hdigest, hP⟩ := htells
      exact ⟨[], v, more, rfl, hdigest, hP, fun w hw => nomatch hw⟩
    · have hsilent : ∀ v, u = .vertex v → v.digest = digest → ¬ P v :=
        fun v hu hdigest hP => htells ⟨v, hu, hdigest, hP⟩
      have hmore : ¬ NoneTells P digest more := by
        intro hnone
        exact h (noneTells_cons hsilent hnone)
      obtain ⟨before, v, rest, rfl, hdigest, hP, hbefore⟩ := ih hmore
      refine ⟨u :: before, v, rest, rfl, hdigest, hP, noneTells_cons ?_ hbefore⟩
      intro w hw hwdigest
      exact hsilent w hw (hwdigest.trans hdigest)

/-- The flag of a vertex is down as long as no update has said what raises it. -/
theorem any_tells_eq_false_iff {p : Vertex → Bool} {P : Vertex → Prop}
    (hp : ∀ v, p v = true ↔ P v) :
    us.any (·.tells p digest) = false ↔ NoneTells P digest us := by
  rw [List.any_eq_false]
  constructor
  · intro h v hv hdigest hP
    refine h (.vertex v) hv ?_
    show (v.digest == digest && p v) = true
    rw [hdigest, beq_self_eq_true, (hp v).mpr hP]
    rfl
  · intro h u hu htells
    cases u with
    | counter c => cases htells
    | log l => cases htells
    | vertex v =>
      have hboth : v.digest = digest ∧ p v = true := by simpa [Update.tells] using htells
      exact h v hu hboth.1 ((hp v).mp hboth.2)

/-- At first no vertex has ended. -/
@[simp]
theorem hasFinished_new (digest : String) : new.hasFinished digest = false := rfl

/-- A vertex is not marked as begun exactly if no update said that it has. -/
theorem hasStarted_eq_false_iff (digest : String) (us : List Update) :
    (new.after us).hasStarted digest = false ↔ NoneTells Vertex.Begins digest us := by
  unfold hasStarted
  rw [written_after, ← any_tells_eq_false_iff fun _ => begins_iff]
  exact Iff.of_eq (congrArg (· = false) (Bool.false_or _))

/-- A vertex is not marked as ended exactly if no update said that it has. -/
theorem hasFinished_eq_false_iff (digest : String) (us : List Update) :
    (new.after us).hasFinished digest = false ↔ NoneTells Vertex.Ends digest us := by
  unfold hasFinished
  rw [written_after, ← any_tells_eq_false_iff fun _ => ends_iff]
  exact Iff.of_eq (congrArg (· = false) (Bool.false_or _))

/-- An update that says that a vertex has begun marks it. -/
theorem hasStarted_of_mem (hv : .vertex v ∈ us) (hdigest : v.digest = digest)
    (hbegins : v.Begins) :
    (new.after us).hasStarted digest = true := by
  rw [← Bool.not_eq_false, hasStarted_eq_false_iff]
  intro hnone
  exact hnone v hv hdigest hbegins

/-- An update that says that a vertex has ended marks it. -/
theorem hasFinished_of_mem (hv : .vertex v ∈ us) (hdigest : v.digest = digest) (hends : v.Ends) :
    (new.after us).hasFinished digest = true := by
  rw [← Bool.not_eq_false, hasFinished_eq_false_iff]
  intro hnone
  exact hnone v hv hdigest hends

/-! ### What an update of a vertex writes -/

/-- After some updates, an update of a vertex writes its name if it is the first to say that it
begins, and then its outcome if it is the first to say that it ended. -/
theorem linesOf_vertex (before : List Update) (v : Vertex) :
    ∃ names outcomes, (new.after before).linesOf (.vertex v) = names ++ outcomes ∧
      NameLines before v ((new.after (before ++ [.vertex v])).number v.digest) names ∧
      OutcomeLines before v ((new.after (before ++ [.vertex v])).number v.digest) outcomes := by
  rw [after_append]
  refine ⟨_, _, rfl, ?_, ?_⟩
  · by_cases hfirst : TellsFirst Vertex.Begins before v
    · rw [(hasStarted_eq_false_iff v.digest before).mpr hfirst.2, begins_iff.mpr hfirst.1]
      exact .written hfirst
    · rw [if_neg ?_]
      · exact .none hfirst
      · intro h
        rw [Bool.and_eq_true, Bool.not_eq_true'] at h
        exact hfirst ⟨begins_iff.mp h.2, (hasStarted_eq_false_iff v.digest before).mp h.1⟩
  · by_cases hfirst : TellsFirst Vertex.Ends before v
    · obtain ⟨text, htext⟩ := Option.isSome_iff_exists.mp (ends_iff.mpr hfirst.1)
      rw [(hasFinished_eq_false_iff v.digest before).mpr hfirst.2, htext]
      exact .written hfirst (outcome?_eq_some_iff.mp htext)
    · cases hflag : (new.after before).hasFinished v.digest with
      | true => exact .none hfirst
      | false =>
        -- The flag is down, so the update does not say how the vertex ended.
        have hsilent : outcome? v = none := by
          cases houtcome : outcome? v with
          | none => rfl
          | some text =>
            have hends : v.Ends := ends_iff.mp (by unfold ends; rw [houtcome]; rfl)
            exact absurd ⟨hends, (hasFinished_eq_false_iff v.digest before).mp hflag⟩ hfirst
        rw [hsilent]
        exact .none hfirst

/-! ### How many lines there are of a kind -/

/-- Other lines are neither names nor outcomes. -/
theorem countP_map_other {kind : Line → Bool} (hkind : ∀ text, kind (.other text) = false)
    (texts : List String) : (texts.map Line.other).countP kind = 0 := by
  rw [List.countP_eq_zero]
  intro l hl
  obtain ⟨text, -, rfl⟩ := List.mem_map.mp hl
  exact Bool.eq_false_iff.mp (hkind text)

/-- An update writes the name of a vertex exactly if it raises the flag of the vertex. -/
theorem countP_isNameOf_linesOf (digest : String) (r : Renderer) (u : Update) :
    (r.linesOf u).countP (·.isNameOf digest) + (r.hasStarted digest).toNat =
      ((r.renderUpdate u).2.hasStarted digest).toNat := by
  rw [hasStarted_renderUpdate]
  cases u with
  | counter | log =>
    unfold linesOf
    rw [countP_map_other fun _ => rfl]
    simp [Update.tells]
  | vertex v =>
    -- No outcome is a name.
    have houtcomes (number : Nat) :
        (if r.hasFinished v.digest then []
          else (outcome? v).toList.map (Line.outcome v.digest number)).countP
            (·.isNameOf digest) = 0 := by
      cases r.hasFinished v.digest <;> cases outcome? v <;> rfl
    unfold linesOf
    dsimp only
    rw [List.countP_append, houtcomes, Nat.add_zero]
    show _ = (r.hasStarted digest || (v.digest == digest && begins v)).toNat
    by_cases hdigest : v.digest = digest
    · subst hdigest
      cases r.hasStarted v.digest <;> cases begins v <;> simp [Line.isNameOf]
    · have hother : (v.digest == digest) = false := beq_false_of_ne hdigest
      rw [hother]
      split <;> simp [Line.isNameOf, hother]

/-- An update writes the outcome of a vertex exactly if it raises the flag of the vertex. -/
theorem countP_isOutcomeOf_linesOf (digest : String) (r : Renderer) (u : Update) :
    (r.linesOf u).countP (·.isOutcomeOf digest) + (r.hasFinished digest).toNat =
      ((r.renderUpdate u).2.hasFinished digest).toNat := by
  rw [hasFinished_renderUpdate]
  cases u with
  | counter | log =>
    unfold linesOf
    rw [countP_map_other fun _ => rfl]
    simp [Update.tells]
  | vertex v =>
    -- No name is an outcome.
    have hnames (number : Nat) :
        (if !r.hasStarted v.digest && begins v then [Line.name v.digest number v.name]
          else []).countP (·.isOutcomeOf digest) = 0 := by
      split <;> rfl
    unfold linesOf
    dsimp only
    rw [List.countP_append, hnames, Nat.zero_add]
    show _ = (r.hasFinished digest || (v.digest == digest && (outcome? v).isSome)).toNat
    by_cases hdigest : v.digest = digest
    · subst hdigest
      cases r.hasFinished v.digest <;> cases outcome? v <;> simp [Line.isOutcomeOf]
    · have hother : (v.digest == digest) = false := beq_false_of_ne hdigest
      rw [hother]
      cases r.hasFinished v.digest <;> cases outcome? v <;> simp [Line.isOutcomeOf, hother]

/-- If an update has a line of a kind exactly when it raises a flag, so has a run, and only
one. -/
theorem countP_pages {kind : Line → Bool} {flag : Renderer → Bool}
    (hstep : ∀ r u, (r.linesOf u).countP kind + (flag r).toNat =
      (flag (r.renderUpdate u).2).toNat)
    (r : Renderer) (us : List Update) :
    (r.pages us).flatten.countP kind + (flag r).toNat = (flag (r.after us)).toNat := by
  -- What the flag was at the start and what it is at the end differ by the lines in between.
  induction us generalizing r with
  | nil => exact Nat.zero_add _
  | cons u rest ih =>
    have hhere := hstep r u
    have hlater := ih (r.renderUpdate u).2
    show (r.linesOf u ++ ((r.renderUpdate u).2.pages rest).flatten).countP kind + _ =
      (flag ((r.renderUpdate u).2.after rest)).toNat
    rw [List.countP_append]
    omega

/-- The lines with a name and the mark before them are one together, or none, as the mark is after
them. -/
theorem countP_isNameOf_pages (digest : String) (r : Renderer) (us : List Update) :
    (r.pages us).flatten.countP (·.isNameOf digest) + (r.hasStarted digest).toNat =
      ((r.after us).hasStarted digest).toNat :=
  countP_pages (countP_isNameOf_linesOf digest) r us

/-- The same of the lines with an outcome. -/
theorem countP_isOutcomeOf_pages (digest : String) (r : Renderer) (us : List Update) :
    (r.pages us).flatten.countP (·.isOutcomeOf digest) + (r.hasFinished digest).toNat =
      ((r.after us).hasFinished digest).toNat :=
  countP_pages (countP_isOutcomeOf_linesOf digest) r us

/-- A vertex of which no outcome is told up to some line, and no name from there on, has its name
first. -/
theorem namesFirst_append {lines lines' : List Line}
    (houtcome : lines.countP (·.isOutcomeOf digest) = 0)
    (hname : lines'.countP (·.isNameOf digest) = 0) : NamesFirst digest (lines ++ lines') := by
  have hnone : ∀ l ∈ lines, l.isOutcomeOf digest ≠ true := List.countP_eq_zero.mp houtcome
  have hunnamed : ∀ l ∈ lines', l.isNameOf digest = false :=
    fun l hl => Bool.eq_false_iff.mpr (List.countP_eq_zero.mp hname l hl)
  refine List.pairwise_append.mpr ⟨?_, ?_, ?_⟩
  · exact List.pairwise_of_forall_mem_list fun l hl _ _ hends => absurd hends (hnone l hl)
  · exact List.pairwise_of_forall_mem_list fun _ _ l' hl' _ => hunnamed l' hl'
  · intro l hl l' _ hends
    exact absurd hends (hnone l hl)

/-- A vertex has its outcome after its name if no update said that it ended before the first that
says that it runs or need not run. -/
theorem namesFirst_of_first_begins {before rest : List Update}
    (hus : us = before ++ .vertex v :: rest) (hdigest : v.digest = digest) (hbegins : v.Begins)
    (hunended : NoneTells Vertex.Ends digest before) :
    NamesFirst digest (new.pages us).flatten := by
  obtain ⟨names, outcomes, hlines, hnames, houtcomes⟩ := linesOf_vertex before v
  -- The page of this update is where the outcomes may start and the names stop.
  have hsplit : (new.pages us).flatten = ((new.pages before).flatten ++ names) ++
      (outcomes ++ ((new.after (before ++ [.vertex v])).pages rest).flatten) := by
    rw [hus, pages_append, List.flatten_append, after_append]
    show _ ++ ((new.after before).linesOf (.vertex v) ++ _) = _
    rw [hlines, List.append_assoc, List.append_assoc]
    rfl
  rw [hsplit]
  apply namesFirst_append
  · have hcount := countP_isOutcomeOf_pages digest new before
    rw [(hasFinished_eq_false_iff digest before).mpr hunended, Bool.toNat_false] at hcount
    have hpage : names.countP (·.isOutcomeOf digest) = 0 := by
      cases hnames <;> rfl
    rw [List.countP_append, hpage]
    omega
  · have hup : (new.after (before ++ [.vertex v])).hasStarted digest = true :=
      hasStarted_of_mem (List.mem_append_right before List.mem_cons_self) hdigest hbegins
    have hcount := countP_isNameOf_pages digest (new.after (before ++ [.vertex v])) rest
    rw [hup, Bool.toNat_true] at hcount
    have hflag :=
      Bool.toNat_le (((new.after (before ++ [.vertex v])).after rest).hasStarted digest)
    have hpage : outcomes.countP (·.isNameOf digest) = 0 := by
      cases houtcomes <;> rfl
    rw [List.countP_append, hpage]
    omega

/-- A vertex that ended before anything said that it runs has its outcome before its name. -/
theorem not_namesFirst_of_endsUnannounced (h : EndsUnannounced digest us) :
    ¬ NamesFirst digest (new.pages us).flatten := by
  obtain ⟨before, v, rest, w, hus, hdigest, hends, hsilent, hw, hwdigest, hbegins⟩ := h
  have hsplit : (new.pages us).flatten = (new.pages (before ++ [.vertex v])).flatten ++
      ((new.after (before ++ [.vertex v])).pages rest).flatten := by
    rw [hus, ← List.flatten_append, ← pages_append, List.append_assoc]
    rfl
  -- Up to this update there is an outcome.
  have houtcome : 0 < (new.pages (before ++ [.vertex v])).flatten.countP
      (·.isOutcomeOf digest) := by
    have hup : (new.after (before ++ [.vertex v])).hasFinished digest = true :=
      hasFinished_of_mem (List.mem_append_right before List.mem_cons_self) hdigest hends
    have hcount := countP_isOutcomeOf_pages digest new (before ++ [.vertex v])
    rw [hup, hasFinished_new, Bool.toNat_true, Bool.toNat_false] at hcount
    omega
  -- After it there is a name, since the flag is still down.
  have hname : 0 < ((new.after (before ++ [.vertex v])).pages rest).flatten.countP
      (·.isNameOf digest) := by
    have hup : ((new.after (before ++ [.vertex v])).after rest).hasStarted digest = true := by
      rw [← after_append]
      exact hasStarted_of_mem (List.mem_append_right _ hw) hwdigest hbegins
    have hcount := countP_isNameOf_pages digest (new.after (before ++ [.vertex v])) rest
    rw [(hasStarted_eq_false_iff digest _).mpr hsilent, hup, Bool.toNat_false, Bool.toNat_true]
      at hcount
    omega
  obtain ⟨l, hl, houtcomeOf⟩ := List.countP_pos_iff.mp houtcome
  obtain ⟨l', hl', hnameOf⟩ := List.countP_pos_iff.mp hname
  intro hordered
  rw [hsplit] at hordered
  have hunnamed := hordered.rel_of_mem_append hl hl' houtcomeOf
  exact absurd hnameOf (Bool.eq_false_iff.mp hunnamed)

/-- In what a run writes, the name of a vertex comes before its outcome, unless some update said
that the vertex ended before any said that it runs or need not run. Then, and only then, it comes
after. -/
theorem namesFirst_iff (batches : List SolveStatus) (digest : String) :
    new.run ⟨none⟩ batches =
        (Utf8.encode (String.join ((printed batches).map Line.text)), true) ∧
      (NamesFirst digest (printed batches) ↔
        ¬ EndsUnannounced digest (batches.flatMap Batch.updates)) := by
  refine ⟨run_eq new batches, ?_⟩
  constructor
  · intro hordered hunannounced
    exact not_namesFirst_of_endsUnannounced hunannounced hordered
  · intro hannounced
    show NamesFirst digest (new.pages (batches.flatMap Batch.updates)).flatten
    by_cases hsilent : NoneTells Vertex.Begins digest (batches.flatMap Batch.updates)
    · -- There is no name at all.
      have hcount := countP_isNameOf_pages digest new (batches.flatMap Batch.updates)
      rw [(hasStarted_eq_false_iff digest _).mpr hsilent, Bool.toNat_false] at hcount
      have hname : (printed batches).countP (·.isNameOf digest) = 0 := by
        show (new.pages (batches.flatMap Batch.updates)).flatten.countP (·.isNameOf digest) = 0
        omega
      exact @namesFirst_append digest [] _ List.countP_nil hname
    · obtain ⟨before, v, rest, hus, hdigest, hbegins, hbefore⟩ := exists_first_tells hsilent
      rw [hdigest] at hbefore
      apply namesFirst_of_first_begins hus hdigest hbegins
      -- An update before it that said the end would be one that was not announced.
      apply Classical.byContradiction
      intro hended
      obtain ⟨start, w, more, rfl, hwdigest, hends, -⟩ := exists_first_tells hended
      refine hannounced ⟨start, w, more ++ .vertex v :: rest, v, ?_, hwdigest, hends, ?_,
        List.mem_append_right more List.mem_cons_self, hdigest, hbegins⟩
      · rw [hus, List.append_assoc]
        rfl
      · intro x hx
        refine hbefore x ?_
        rw [List.append_cons]
        exact List.mem_append_left more hx

/-- A vertex that fails before anything says that it runs. -/
def failedFirst : List SolveStatus :=
  [⟨[⟨"a", [], "build", false, none, none, "boom"⟩], [], []⟩,
    ⟨[⟨"a", [], "build", false, some ⟨19723, 0, 0⟩, none, ""⟩], [], []⟩]

/-- Its failure is written before its name. -/
theorem failedFirst_not_namesFirst :
    new.run ⟨none⟩ failedFirst = (Utf8.encode "#1 ERROR: boom\n#1 build\n", true) ∧
      printed failedFirst = [.outcome "a" 1 "ERROR: boom", .name "a" 1 "build"] ∧
      ¬ NamesFirst "a" (printed failedFirst) := by
  have hprinted : printed failedFirst = [.outcome "a" 1 "ERROR: boom", .name "a" 1 "build"] := by
    decide +kernel
  refine ⟨by decide +kernel, hprinted, ?_⟩
  intro hordered
  rw [hprinted] at hordered
  exact absurd (List.rel_of_pairwise_cons hordered List.mem_cons_self rfl) (by decide)

end Renderer
end ImageBuild.Progress
