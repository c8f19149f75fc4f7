import ImageBuild.Proofs.Tree.Confined

/-!
# `ImageBuild.Proofs.Tree.Resolution`: the resolution below a root, step by step

`FileTree.resolve` resolves a path below a root and stops when its links are used up. This module
takes the resolution apart into its steps and forgets the budget: `Moves` is a run of so many
steps in which so many links are followed, and `Answers` is what is answered where a run ends. A
run can go on for ever, over links that lead in circles or that lead to more and more links.

* `resolve_eq_iff`: the answer of `resolve` is that of a run with at most as many links as the
  budget has, and no run within the budget has another answer.
* `exists_bound`: the runs within a budget are of bounded length. What bounds them is the links
  that are left, and among runs with equally many the parts that are pending.
* `joinWithin_keepsBudget`: what this says about `joinWithin` and its budget of `hopLimit` links.
-/

set_option autoImplicit false

namespace ImageBuild.FileTree

variable {t : FileTree} {root entry : Path} {hops steps links left : Nat}

/-- Where a resolution stands: the names that it has reached and the parts that are pending. -/
structure Standing where
  resolved : List Name
  pending : List PendingPart

/-- Where the resolution of a path starts. -/
def Standing.start (entry : Path) : Standing := ⟨[], PendingPart.ofPath none entry⟩

variable {s s' s'' : Standing}

/-- A run of the resolution with `steps` steps, in which `links` links are followed. There is one
rule for each kind of part that a run goes on from. -/
inductive Moves (t : FileTree) (root : Path) : Nat → Nat → Standing → Standing → Prop
  | here {s : Standing} : Moves t root 0 0 s s
  | up {steps links : Nat} {names : List Name} {origin : Option (Path × Path)}
    {rest : List PendingPart} {s' : Standing} :
    names ≠ [] → Moves t root steps links ⟨names.dropLast, rest⟩ s' →
    Moves t root (steps + 1) links ⟨names, .up origin :: rest⟩ s'
  | down {steps links : Nat} {names : List Name} {name : Name} {rest : List PendingPart}
    {s' : Standing} : t.linkTarget? (candidate root names name) = none →
    Moves t root steps links ⟨names ++ [name], rest⟩ s' →
    Moves t root (steps + 1) links ⟨names, .down name :: rest⟩ s'
  | follow {steps links : Nat} {names : List Name} {name : Name} {target : Path}
    {rest : List PendingPart} {s' : Standing} :
    t.linkTarget? (candidate root names name) = some target → target.isAbsolute = false →
    Moves t root steps links
      ⟨names, PendingPart.ofPath (some (candidate root names name, target)) target ++ rest⟩ s' →
    Moves t root (steps + 1) (links + 1) ⟨names, .down name :: rest⟩ s'

/-- A resolution meets a link: the next part names one. -/
def MeetsLink (t : FileTree) (root : Path) (s : Standing) : Prop :=
  ∃ (name : Name) (rest : List PendingPart) (target : Path), s.pending = .down name :: rest ∧
    t.linkTarget? (candidate root s.resolved name) = some target

/-- What a resolution with `left` links left answers where it stands, if it makes no further
step. -/
inductive Answers (t : FileTree) (root entry : Path) (left : Nat) :
    Standing → Except EscapeFault (List Name) → Prop
  | done {names : List Name} : Answers t root entry left ⟨names, []⟩ (.ok names)
  | climbs {rest : List PendingPart} :
    Answers t root entry left ⟨[], .up none :: rest⟩ (.error (.pathEscape entry root))
  | linkClimbs {link target : Path} {rest : List PendingPart} :
    Answers t root entry left ⟨[], .up (some (link, target)) :: rest⟩
      (.error (.linkEscape link target))
  | absolute {names : List Name} {name : Name} {target : Path} {rest : List PendingPart} :
    left ≠ 0 → t.linkTarget? (candidate root names name) = some target →
    target.isAbsolute = true →
    Answers t root entry left ⟨names, .down name :: rest⟩
      (.error (.absoluteTarget target (candidate root names name)))
  | spent {names : List Name} {name : Name} {target : Path} {rest : List PendingPart} :
    left = 0 → t.linkTarget? (candidate root names name) = some target →
    Answers t root entry left ⟨names, .down name :: rest⟩ (.error (.linkLoop entry))

/-! ### The loop makes the steps of a run -/

/-- A run within the budget is what `resolve` does, and its links are taken off the budget. -/
theorem Moves.resolve_eq (h : t.Moves root steps links s s') (hlinks : links ≤ hops) :
    t.resolve root entry hops s.resolved s.pending =
      t.resolve root entry (hops - links) s'.resolved s'.pending := by
  induction h generalizing hops with
  | here => rfl
  | @up _ _ names _ _ _ hne _ ih =>
    rw [resolve.eq_def, ← ih hlinks]
    have hempty : names.isEmpty = false := by simpa using hne
    simp [hempty]
  | down hlink _ ih => rw [resolve, hlink, ← ih hlinks]
  | @follow _ links names name target rest _ hlink habs _ ih =>
    obtain ⟨hops, rfl⟩ : ∃ more, hops = more + 1 := ⟨hops - 1, by omega⟩
    rw [resolve, hlink, Nat.add_sub_add_right, ← ih (Nat.le_of_succ_le_succ hlinks)]
    simp only [habs, Bool.false_eq_true, if_false]

/-- Where a run ends, its answer is that of `resolve`. -/
theorem Answers.resolve_eq {answer : Except EscapeFault (List Name)}
    (h : t.Answers root entry left s answer) :
    t.resolve root entry left s.resolved s.pending = answer := by
  cases h with
  | done => rw [resolve]
  | climbs | linkClimbs => rw [resolve.eq_def]; rfl
  | absolute hleft hlink habs =>
    obtain ⟨left, rfl⟩ := Nat.exists_eq_succ_of_ne_zero hleft
    rw [resolve, hlink]
    simp only [habs, if_true]
  | spent hleft hlink => subst hleft; rw [resolve.eq_def]; simp only [hlink]

/-- The answer of `resolve` is that of a run within the budget. -/
theorem exists_answers (t : FileTree) (root entry : Path) (hops : Nat) (resolved : List Name)
    (pending : List PendingPart) :
    ∃ steps links s, links ≤ hops ∧ t.Moves root steps links ⟨resolved, pending⟩ s ∧
      t.Answers root entry (hops - links) s (t.resolve root entry hops resolved pending) := by
  -- One case for each exit of the loop, and one for each way on.
  induction hops, resolved, pending using resolve.induct t root with
  | case1 hops resolved =>
    rw [resolve]
    exact ⟨0, 0, _, Nat.zero_le _, .here, .done⟩
  | case2 hops resolved rest hempty link target =>
    obtain rfl : resolved = [] := by simpa using hempty
    rw [resolve.eq_def]
    exact ⟨0, 0, _, Nat.zero_le _, .here, .linkClimbs⟩
  | case3 hops resolved rest hempty =>
    obtain rfl : resolved = [] := by simpa using hempty
    rw [resolve.eq_def]
    exact ⟨0, 0, _, Nat.zero_le _, .here, .climbs⟩
  | case4 hops resolved origin rest hempty ih =>
    obtain ⟨steps, links, s, hlinks, hmoves, hanswers⟩ := ih
    have hup : t.Moves root (steps + 1) links ⟨resolved, .up origin :: rest⟩ s :=
      .up (by simpa using hempty) hmoves
    refine ⟨steps + 1, links, s, hlinks, hup, ?_⟩
    rwa [hup.resolve_eq hlinks, ← hmoves.resolve_eq hlinks]
  | case5 hops resolved name rest hlink ih =>
    obtain ⟨steps, links, s, hlinks, hmoves, hanswers⟩ := ih
    rw [resolve, hlink]
    exact ⟨steps + 1, links, s, hlinks, .down hlink hmoves, hanswers⟩
  | case6 resolved name rest target hlink =>
    have hspent : t.Answers root entry 0 ⟨resolved, .down name :: rest⟩ _ := .spent rfl hlink
    rw [hspent.resolve_eq]
    exact ⟨0, 0, _, Nat.le_refl _, .here, hspent⟩
  | case7 resolved name rest target hlink hops habs =>
    have habsolute : t.Answers root entry (hops + 1) ⟨resolved, .down name :: rest⟩ _ :=
      .absolute (by simp) hlink habs
    rw [habsolute.resolve_eq]
    exact ⟨0, 0, _, Nat.zero_le _, .here, habsolute⟩
  | case8 resolved name rest target hlink hops habs origin ih =>
    obtain ⟨steps, links, s, hlinks, hmoves, hanswers⟩ := ih
    have habs' : target.isAbsolute = false := by simpa using habs
    rw [resolve, hlink]
    simp only [habs', Bool.false_eq_true, if_false]
    refine ⟨steps + 1, links + 1, s, Nat.succ_le_succ hlinks, .follow hlink habs' hmoves, ?_⟩
    rwa [Nat.succ_sub_succ]

/-- What `resolve` answers is what a run answers that follows no more links than the budget
has. -/
theorem resolve_eq_iff {resolved : List Name} {pending : List PendingPart}
    {answer : Except EscapeFault (List Name)} :
    t.resolve root entry hops resolved pending = answer ↔
      ∃ steps links s, links ≤ hops ∧ t.Moves root steps links ⟨resolved, pending⟩ s ∧
        t.Answers root entry (hops - links) s answer := by
  constructor
  · intro h
    have hrun := exists_answers t root entry hops resolved pending
    rwa [h] at hrun
  · intro ⟨steps, links, s, hlinks, hmoves, hanswers⟩
    exact (hmoves.resolve_eq hlinks).trans hanswers.resolve_eq

/-! ### The budget bounds the runs -/

/-- No run within the budget is longer than the one that is answered. -/
theorem Moves.steps_le {steps' links' : Nat} {answer : Except EscapeFault (List Name)}
    (h : t.Moves root steps links s s') (hanswers : t.Answers root entry (hops - links) s' answer)
    (h' : t.Moves root steps' links' s s'') (hlinks : links ≤ hops) (hlinks' : links' ≤ hops) :
    steps' ≤ steps := by
  -- Both runs make the same steps, as long as both go on.
  induction h generalizing hops steps' links' with
  | here =>
    cases hanswers with
    | done => cases h'; exact Nat.le_refl 0
    | climbs | linkClimbs =>
      cases h' with
      | here => exact Nat.le_refl 0
      | up hne => exact absurd rfl hne
    | absolute _ hlink habs =>
      cases h' with
      | here => exact Nat.le_refl 0
      | down hlink' => rw [hlink] at hlink'; cases hlink'
      | follow hlink' habs' =>
        rw [hlink] at hlink'
        cases hlink'
        rw [habs] at habs'
        cases habs'
    | spent hleft hlink =>
      cases h' with
      | here => exact Nat.le_refl 0
      | down hlink' => rw [hlink] at hlink'; cases hlink'
      | follow => omega
  | up _ _ ih =>
    cases h' with
    | here => exact Nat.zero_le _
    | up _ hrest => exact Nat.succ_le_succ (ih hanswers hrest hlinks hlinks')
  | down hlink _ ih =>
    cases h' with
    | here => exact Nat.zero_le _
    | down _ hrest => exact Nat.succ_le_succ (ih hanswers hrest hlinks hlinks')
    | follow hlink' => rw [hlink] at hlink'; cases hlink'
  | @follow _ links _ _ _ _ _ hlink _ _ ih =>
    cases h' with
    | here => exact Nat.zero_le _
    | down hlink' => rw [hlink] at hlink'; cases hlink'
    | follow hlink' _ hrest =>
      rw [hlink] at hlink'
      cases hlink'
      rw [Nat.sub_add_eq, Nat.sub_right_comm] at hanswers
      exact Nat.succ_le_succ (ih hanswers hrest (by omega) (by omega))

/-- The runs that follow at most `hops` links are of bounded length. -/
theorem exists_bound (t : FileTree) (root : Path) (hops : Nat) (resolved : List Name)
    (pending : List PendingPart) :
    ∃ bound, ∀ steps links s, t.Moves root steps links ⟨resolved, pending⟩ s → links ≤ hops →
      steps ≤ bound := by
  obtain ⟨bound, links, s, hlinks, hmoves, hanswers⟩ :=
    exists_answers t root root hops resolved pending
  refine ⟨bound, ?_⟩
  intro steps links' s' hmoves' hlinks'
  exact hmoves.steps_le hanswers hmoves' hlinks hlinks'

/-- A run with more than `hops` links meets a link after it has followed `hops` of them. -/
theorem Moves.meetsLink (h : t.Moves root steps links s s') (hlinks : hops < links) :
    ∃ steps' s'', t.Moves root steps' hops s s'' ∧ t.MeetsLink root s'' := by
  induction h generalizing hops with
  | here => exact absurd hlinks (Nat.not_lt_zero _)
  | up hne _ ih =>
    obtain ⟨steps', s'', hmoves, hmeets⟩ := ih hlinks
    exact ⟨steps' + 1, s'', .up hne hmoves, hmeets⟩
  | down hlink _ ih =>
    obtain ⟨steps', s'', hmoves, hmeets⟩ := ih hlinks
    exact ⟨steps' + 1, s'', .down hlink hmoves, hmeets⟩
  | follow hlink habs _ ih =>
    cases hops with
    | zero => exact ⟨0, _, .here, _, _, _, rfl, hlink⟩
    | succ hops =>
      obtain ⟨steps', s'', hmoves, hmeets⟩ := ih (Nat.lt_of_succ_lt_succ hlinks)
      exact ⟨steps' + 1, s'', .follow hlink habs hmoves, hmeets⟩

/-- The budget is found to be used up exactly if one more link is met than it has. -/
theorem resolve_eq_linkLoop_iff {resolved : List Name} {pending : List PendingPart} {p : Path} :
    t.resolve root entry hops resolved pending = .error (.linkLoop p) ↔
      p = entry ∧ ∃ steps s, t.Moves root steps hops ⟨resolved, pending⟩ s ∧
      t.MeetsLink root s := by
  rw [resolve_eq_iff]
  constructor
  · intro ⟨steps, links, s, hlinks, hmoves, hanswers⟩
    cases hanswers with
    | spent hleft hlink =>
      obtain rfl : links = hops := by omega
      exact ⟨rfl, steps, _, hmoves, _, _, _, rfl, hlink⟩
  · intro ⟨hp, steps, s, hmoves, name, rest, target, hpending, hlink⟩
    subst hp
    obtain ⟨names, pending⟩ := s
    obtain rfl : pending = .down name :: rest := hpending
    exact ⟨steps, hops, _, Nat.le_refl _, hmoves, .spent (Nat.sub_self hops) hlink⟩

/-- A resolution that never ends uses up every budget. -/
theorem resolve_of_endless {resolved : List Name} {pending : List PendingPart}
    (h : ∀ steps, ∃ links s, t.Moves root steps links ⟨resolved, pending⟩ s) :
    t.resolve root entry hops resolved pending = .error (.linkLoop entry) := by
  obtain ⟨bound, hbound⟩ := exists_bound t root hops resolved pending
  -- One step more than the budget allows takes one link more at least.
  obtain ⟨links, s, hmoves⟩ := h (bound + 1)
  have hlinks : hops < links := by
    by_contra hle
    have hsteps := hbound _ _ _ hmoves (by omega)
    omega
  exact resolve_eq_linkLoop_iff.mpr ⟨rfl, hmoves.meetsLink hlinks⟩

/-- A link that names itself is followed as often as one likes. -/
theorem moves_of_selfLink {names : List Name} {name : Name} {target : Path}
    {rest : List PendingPart} (hlink : t.linkTarget? (candidate root names name) = some target)
    (habs : target.isAbsolute = false)
    (hself : ∀ origin, PendingPart.ofPath origin target = [.down name]) (times : Nat) :
    t.Moves root times times ⟨names, .down name :: rest⟩ ⟨names, .down name :: rest⟩ := by
  induction times with
  | zero => exact .here
  | succ times ih =>
    refine .follow hlink habs ?_
    rw [hself]
    exact ih

/-! ### Joining within the budget -/

/-- What can be resolved at all is a relative path without a NUL byte. -/
theorem joinWithin_of_relative (hnul : entry.hasNul = false) (habs : entry.isAbsolute = false) :
    t.joinWithin root entry =
      (t.resolve root entry hopLimit [] (PendingPart.ofPath none entry)).map
        fun names => root.join (.ofNames names) := by
  unfold joinWithin resolveWithin
  simp only [hnul, habs, Bool.false_eq_true, if_false]

/-- A loop is reported when one link too many is met. -/
theorem joinWithin_eq_linkLoop_iff {p : Path} :
    t.joinWithin root entry = .error (.linkLoop p) ↔
      p = entry ∧ entry.hasNul = false ∧ entry.isAbsolute = false ∧
        ∃ steps s, t.Moves root steps hopLimit (.start entry) s ∧ t.MeetsLink root s := by
  cases hnul : entry.hasNul with
  | true => simp [joinWithin, resolveWithin, hnul, Except.map]
  | false =>
    cases habs : entry.isAbsolute with
    | true => simp [joinWithin, resolveWithin, hnul, habs, Except.map]
    | false =>
      have hresolve := @resolve_eq_linkLoop_iff t root entry hopLimit []
        (PendingPart.ofPath none entry) p
      rw [joinWithin_of_relative hnul habs]
      cases hanswer : t.resolve root entry hopLimit [] (PendingPart.ofPath none entry) with
      | ok names => simpa [hanswer, Except.map, Standing.start] using hresolve
      | error fault => simpa [hanswer, Except.map, Standing.start] using hresolve

/-- A path is joined onto a root by a resolution that ends, on every tree.

* The resolutions that follow at most `hopLimit` links are of bounded length.
* The answer is that of such a resolution.
* The answer is that there are too many links exactly if the resolution follows `hopLimit` links
  without a fault and then meets one more.
* No path is accepted whose resolution would go on for ever without a budget. -/
theorem joinWithin_keepsBudget (t : FileTree) (root entry : Path) :
    (∃ bound, ∀ steps links s, t.Moves root steps links (.start entry) s → links ≤ hopLimit →
      steps ≤ bound) ∧
    (entry.hasNul = false → entry.isAbsolute = false →
      ∃ steps links s answer, links ≤ hopLimit ∧ t.Moves root steps links (.start entry) s ∧
        t.Answers root entry (hopLimit - links) s answer ∧
        t.joinWithin root entry = answer.map fun names => root.join (.ofNames names)) ∧
    (∀ p, t.joinWithin root entry = .error (.linkLoop p) ↔
      p = entry ∧ entry.hasNul = false ∧ entry.isAbsolute = false ∧
        ∃ steps s, t.Moves root steps hopLimit (.start entry) s ∧ t.MeetsLink root s) ∧
    ((∀ steps, ∃ links s, t.Moves root steps links (.start entry) s) →
      ∀ q, t.joinWithin root entry ≠ .ok q) := by
  refine ⟨exists_bound t root hopLimit _ _, ?_, fun p => joinWithin_eq_linkLoop_iff, ?_⟩
  · intro hnul habs
    obtain ⟨steps, links, s, hlinks, hmoves, hanswers⟩ :=
      exists_answers t root entry hopLimit [] (PendingPart.ofPath none entry)
    exact ⟨steps, links, s, _, hlinks, hmoves, hanswers, joinWithin_of_relative hnul habs⟩
  · intro hendless q hq
    -- What is accepted was resolved, and a resolution that never ends is answered by a fault.
    unfold joinWithin resolveWithin at hq
    split at hq
    · cases hq
    · split at hq
      · cases hq
      · rw [resolve_of_endless hendless] at hq
        cases hq

/-- A tree with a directory `a` in which `b` is a link to `./b`. -/
def circularTree : FileTree where
  nodes := [([[0x61]], .directory 0o755), ([[0x61], [0x62]], .link (.ofString "./b"))]
  workdir := []

/-- Below `a`, the path `b/c` is resolved for ever, and so it is not accepted. -/
theorem joinWithin_circularTree_keepsBudget :
    (∀ steps, ∃ links s,
      circularTree.Moves (.ofString "a") steps links (.start (.ofString "b/c")) s) ∧
    ∀ q, circularTree.joinWithin (.ofString "a") (.ofString "b/c") ≠ .ok q := by
  have hendless : ∀ steps, ∃ links s,
      circularTree.Moves (.ofString "a") steps links (.start (.ofString "b/c")) s := by
    intro steps
    have hlink : circularTree.linkTarget? (candidate (.ofString "a") [] [0x62]) =
        some (.ofString "./b") := by cbv
    exact ⟨steps, _, moves_of_selfLink hlink (by decide) (fun _ => rfl) steps⟩
  exact ⟨hendless, (joinWithin_keepsBudget circularTree (.ofString "a") (.ofString "b/c")).2.2.2
    hendless⟩

end ImageBuild.FileTree
