import ImageBuild.Proofs.Tree.Anchored

/-!
# `ImageBuild.Proofs.Tree.Lexical`: joining where there are no links

Where no link stands below a root, what a path is joined to depends on its text alone.
`Path.climbs` and `Path.keptNames` read the components from the last one back: a name stays unless
a `..` behind it is left over to take it back, and a `..` that finds no name climbs above the
start.

* `foldl_appliedTo`: going through the components from the front leaves the same names, if the
  first of them is taken for its own parent.
* `loc_of_walk_root`: they are also the names that the system finds in a tree without links.
* `climbs_le_iff`: no more than `depth` of the `..` are left over exactly if no leading part of
  the components has more than `depth` of them beyond its names.
* `resolve_of_noLink`: what the resolution answers is decided by these two readings.
* `joinWithin_of_linkFree`: what `joinWithin` accepts, what it answers, and what the faults are.
-/

set_option autoImplicit false

namespace ImageBuild

namespace Component

/-- Whether the step is an ordinary name. -/
def isNormal : Component → Bool
  | .normal _ => true
  | _ => false

/-- How many `..` find no name before them that they could take back. -/
def climbs : List Component → Nat
  | [] => 0
  | .parent :: rest => climbs rest + 1
  | .normal _ :: rest => climbs rest - 1
  | .root :: rest | .here :: rest => climbs rest

/-- The names that no `..` behind them takes back. -/
def keptNames : List Component → List Name
  | [] => []
  | .normal n :: rest => if climbs rest = 0 then n :: keptNames rest else keptNames rest
  | .root :: rest | .here :: rest | .parent :: rest => keptNames rest

/-- The names that are left of some names and the components behind them. -/
def namesAfter (names : List Name) (cs : List Component) : List Name :=
  names.take (names.length - climbs cs) ++ keptNames cs

/-- A `..` takes the last name back. -/
theorem namesAfter_parent (names : List Name) (n : Name) (rest : List Component) :
    namesAfter (names ++ [n]) (.parent :: rest) = namesAfter names rest := by
  show (names ++ [n]).take ((names ++ [n]).length - (climbs rest + 1)) ++ keptNames rest = _
  rw [List.length_append, List.length_singleton, Nat.add_sub_add_right,
    List.take_append_of_le_length (Nat.sub_le _ _)]
  rfl

/-- A name comes behind the names that are there. -/
theorem namesAfter_normal (names : List Name) (n : Name) (rest : List Component) :
    namesAfter names (.normal n :: rest) = namesAfter (names ++ [n]) rest := by
  show names.take (names.length - (climbs rest - 1)) ++
    (if climbs rest = 0 then n :: keptNames rest else keptNames rest) = _
  unfold namesAfter
  rw [List.length_append, List.length_singleton]
  cases climbs rest with
  | zero =>
    have hall : (names ++ [n]).take (names.length + 1) = names ++ [n] :=
      List.take_of_length_le (by simp)
    simp [hall]
  | succ ups =>
    have hfewer : (names ++ [n]).take (names.length + 1 - (ups + 1)) =
        names.take (names.length - ups) := by
      rw [Nat.add_sub_add_right, List.take_append_of_le_length (Nat.sub_le _ _)]
    rw [if_neg (Nat.succ_ne_zero ups), hfewer]
    rfl

/-- What a component makes of the names that are there. The first of them has no parent. -/
def appliedTo (names : List Name) : Component → List Name
  | .normal name => names ++ [name]
  | .parent => names.dropLast
  | .root | .here => names

/-- No component leaves the names as they are. -/
theorem namesAfter_end (names : List Name) : namesAfter names [] = names := by
  show names.take (names.length - 0) ++ [] = names
  rw [Nat.sub_zero, List.take_length, List.append_nil]

/-- A `..` takes the last name back, if there is one. -/
theorem namesAfter_climb (names : List Name) (rest : List Component) :
    namesAfter names (.parent :: rest) = namesAfter names.dropLast rest := by
  rcases List.eq_nil_or_concat names with rfl | ⟨front, last, rfl⟩
  · show ([] : List Name).take _ ++ keptNames rest = [].take _ ++ keptNames rest
    rw [List.take_nil, List.take_nil]
  · rw [List.concat_eq_append, List.dropLast_concat]
    exact namesAfter_parent front last rest

/-- Going through the components one by one, the same names are left in the end. -/
theorem foldl_appliedTo (names : List Name) (cs : List Component) :
    cs.foldl appliedTo names = namesAfter names cs := by
  induction cs generalizing names with
  | nil => exact (namesAfter_end names).symm
  | cons c rest ih =>
    rw [List.foldl_cons, ih]
    cases c with
    | root | here => rfl
    | parent => exact (namesAfter_climb names rest).symm
    | normal n => exact (namesAfter_normal names n rest).symm

/-- Where there were no names, those that the components keep are left. -/
theorem namesAfter_nil (cs : List Component) : namesAfter [] cs = keptNames cs := by
  unfold namesAfter
  rw [List.take_nil, List.nil_append]

/-- Names take nothing back. -/
theorem climbs_normal (names : List Name) : climbs (names.map .normal) = 0 := by
  induction names with
  | nil => rfl
  | cons n rest ih =>
    show climbs (rest.map .normal) - 1 = 0
    rw [ih]

/-- All of them are kept. -/
theorem keptNames_normal (names : List Name) : keptNames (names.map .normal) = names := by
  induction names with
  | nil => rfl
  | cons n rest ih =>
    show (if climbs (rest.map .normal) = 0 then n :: keptNames (rest.map .normal) else _) = _
    rw [climbs_normal, if_pos rfl, ih]

/-- A root and a leading `.` keep nothing and take nothing back. -/
theorem keptNames_filter (cs : List Component) :
    keptNames (cs.filter fun c => c != .root && c != .here) = keptNames cs := by
  have hboth : keptNames (cs.filter fun c => c != .root && c != .here) = keptNames cs ∧
      climbs (cs.filter fun c => c != .root && c != .here) = climbs cs := by
    induction cs with
    | nil => exact ⟨rfl, rfl⟩
    | cons c rest ih =>
      obtain ⟨hkept, hclimbs⟩ := ih
      cases c with
      | root | here => exact ⟨hkept, hclimbs⟩
      | parent | normal n => simp [keptNames, climbs, hkept, hclimbs]
  exact hboth.1

/-- No more than `depth` of the `..` are left over exactly if there are in no leading part more
than `depth` of them beyond the names. -/
theorem climbs_le_iff (cs : List Component) (depth : Nat) :
    climbs cs ≤ depth ↔
      ∀ first, first <+: cs → first.count .parent ≤ depth + first.countP isNormal := by
  -- A name makes room for one `..` more, and a `..` takes some of the room.
  induction cs generalizing depth with
  | nil => simp [climbs]
  | cons c rest ih =>
    have hcons : (∀ first, first <+: c :: rest →
          first.count .parent ≤ depth + first.countP isNormal) ↔
        ∀ first, first <+: rest →
          (c :: first).count .parent ≤ depth + (c :: first).countP isNormal := by
      constructor
      · intro h first hfirst
        exact h (c :: first) (List.cons_prefix_cons.mpr ⟨rfl, hfirst⟩)
      · intro h first hfirst
        rcases List.prefix_cons_iff.mp hfirst with rfl | ⟨more, rfl, hmore⟩
        · exact Nat.zero_le _
        · exact h more hmore
    rw [hcons]
    cases c with
    | root | here => simpa [climbs, isNormal] using ih depth
    | normal n =>
      have hroom : climbs (.normal n :: rest) ≤ depth ↔ climbs rest ≤ depth + 1 := by
        show climbs rest - 1 ≤ depth ↔ _
        omega
      rw [hroom, ih (depth + 1)]
      refine forall_congr' fun first => imp_congr_right fun _ => ?_
      rw [List.count_cons_of_ne (by simp), List.countP_cons_of_pos (by rfl)]
      omega
    | parent =>
      cases depth with
      | zero =>
        refine iff_of_false (Nat.not_succ_le_zero _) fun h => ?_
        simpa [isNormal] using h [] List.nil_prefix
      | succ depth =>
        show climbs rest + 1 ≤ depth + 1 ↔ _
        rw [Nat.succ_le_succ_iff, ih depth]
        refine forall_congr' fun first => imp_congr_right fun _ => ?_
        rw [List.count_cons_self, List.countP_cons_of_neg (by simp [isNormal])]
        omega

end Component

namespace Path

/-- The path never climbs above where it starts: no leading part of it has more `..` than
names. -/
def NeverClimbs (p : Path) : Prop :=
  ∀ first, first <+: p.components → first.count .parent ≤ first.countP Component.isNormal

/-- The names of the path in its lexical normal form. -/
def lexicalNames (p : Path) : List Name := Component.keptNames p.components

/-- The lexical names of plain names are these names. -/
theorem lexicalNames_ofNames {names : List Name} (hnames : ∀ n ∈ names, IsName n) :
    (ofNames names).lexicalNames = names := by
  unfold lexicalNames
  rw [components_ofNames hnames, Component.keptNames_normal]

/-- A path that never climbs has nothing left to climb. -/
theorem neverClimbs_iff {p : Path} : p.NeverClimbs ↔ Component.climbs p.components = 0 := by
  have hzero := Component.climbs_le_iff p.components 0
  simp only [Nat.le_zero, Nat.zero_add] at hzero
  exact hzero.symm

/-- Plain names never climb. -/
theorem neverClimbs_ofNames {names : List Name} (hnames : ∀ n ∈ names, IsName n) :
    (ofNames names).NeverClimbs := by
  rw [neverClimbs_iff, components_ofNames hnames, Component.climbs_normal]

instance (p : Path) : Decidable p.NeverClimbs := decidable_of_iff _ neverClimbs_iff.symm

end Path

namespace FileTree

variable {t : FileTree} {root entry : Path} {names : List Name}

/-! ### The walk of the system -/

section
variable {follow : Bool} {k : Nat} {here : Location} {segments : List Bytes} {spot : Spot}

/-- In a tree without links a walk ends where its segments say, at what is left of the names of
the directory that it starts from and of its own. The root is its own parent. -/
theorem Walks.loc_eq (hfree : t.LinkFree []) (h : t.Walks follow k here segments spot) :
    spot.loc = Component.namesAfter here
    ((segments.filter Path.isStep).map Path.componentOf) := by
  have hname : ∀ (here : Location) {segment : Bytes} (rest : List Bytes), IsLookedUp segment →
      Component.namesAfter here (((segment :: rest).filter Path.isStep).map Path.componentOf) =
        Component.namesAfter (here ++ [segment])
          ((rest.filter Path.isStep).map Path.componentOf) := by
    intro here segment rest hsegment
    have hcomponent : Path.componentOf segment = .normal segment := if_neg hsegment.ne_dotDot
    rw [List.filter_cons_of_pos hsegment.isStep, List.map_cons, hcomponent,
      Component.namesAfter_normal]
  -- One rule of the walk is one component, and links are never met.
  induction h with
  | here => exact (Component.namesAfter_end _).symm
  | stay hs _ ih =>
    rw [List.filter_cons_of_neg hs.not_isStep]
    exact ih
  | up _ _ ih =>
    show _ = Component.namesAfter _ (.parent :: _)
    rw [Component.namesAfter_climb]
    exact ih
  | down _ hsegment _ _ ih =>
    rw [hname _ _ hsegment]
    exact ih
  | endVacant _ hsegment | endFile _ hsegment | endLink _ hsegment =>
    rw [hname _ _ hsegment]
    exact (Component.namesAfter_end _).symm
  | link _ _ hlink => exact absurd hlink (hfree _ _)

/-- In a tree without links a path that is read from the root leads to its lexical names. -/
theorem loc_of_walk_root (hfree : t.LinkFree []) {p : Path}
    (hw : t.walk follow ⟨slash :: p.bytes⟩ = .ok spot) : spot.loc = p.lexicalNames := by
  -- The slash in front adds an empty segment, and one at the end asks for a directory. Neither is
  -- a step.
  have hsegments : Path.segments ⟨slash :: p.bytes⟩ = [] :: p.segments := by
    show (slash :: p.bytes).splitOn slash = [] :: p.bytes.splitOn slash
    rw [List.splitOn_cons_eq_if_modifyHead, if_pos (beq_self_eq_true slash)]
  have hsteps :
      (walkSegments ⟨slash :: p.bytes⟩).filter Path.isStep = p.segments.filter Path.isStep := by
    rw [filter_walkSegments, hsegments]
    rfl
  have hloc := (walk_eq_ok_iff.mp hw).2.loc_eq hfree
  rw [hsteps, ← Path.filter_components] at hloc
  have hstart : startOf ⟨slash :: p.bytes⟩ t.workdir = [] := by simp [startOf, Path.isAbsolute]
  rw [hloc, hstart, Component.namesAfter_nil, Component.keptNames_filter]
  rfl

end

/-! ### Joined below a root -/

/-- Where no link is seen, the `..` of a path take back its own names and then the names that were
there before it. -/
theorem resolve_of_noLink
    (hlink : ∀ (names : List Name) (name : Name), (∀ n ∈ names, IsName n) → IsName name →
      t.linkTarget? (candidate root names name) = none)
    (hnames : ∀ n ∈ names, IsName n) {cs : List Component} (hcs : ∀ n, .normal n ∈ cs → IsName n)
    (hops : Nat) :
    t.resolve root entry hops names (cs.flatMap (PendingPart.ofComponent none)) =
      if Component.climbs cs ≤ names.length then .ok (Component.namesAfter names cs)
      else .error (.pathEscape entry root) := by
  -- On the components. The names that are kept so far are the stack that a `..` pops.
  induction cs generalizing names with
  | nil => simp [resolve, Component.climbs, Component.namesAfter, Component.keptNames]
  | cons c rest ih =>
    have hrest : ∀ n, .normal n ∈ rest → IsName n := fun n hn => hcs n (List.mem_cons_of_mem _ hn)
    cases c with
    | root | here => exact ih hnames hrest
    | parent =>
      show t.resolve root entry hops names
        (.up none :: rest.flatMap (PendingPart.ofComponent none)) = _
      rw [resolve.eq_def]
      rcases List.eq_nil_or_concat names with rfl | ⟨front, last, rfl⟩
      · simp [Component.climbs]
      · rw [List.concat_eq_append] at hnames ⊢
        have hfront : ∀ n ∈ front, IsName n := fun n hn => hnames n (List.mem_append_left _ hn)
        have hempty : (front ++ [last]).isEmpty = false := by simp
        have hroom : Component.climbs (.parent :: rest) ≤ (front ++ [last]).length ↔
            Component.climbs rest ≤ front.length := by
          simp [Component.climbs]
        simp only [hempty, Bool.false_eq_true, if_false, List.dropLast_concat, ih hfront hrest,
          Component.namesAfter_parent, hroom]
    | normal n =>
      have hn := hcs n List.mem_cons_self
      have hmore : ∀ m ∈ names ++ [n], IsName m :=
        List.forall_mem_append.mpr ⟨hnames, List.forall_mem_singleton.mpr hn⟩
      have hroom : Component.climbs (.normal n :: rest) ≤ names.length ↔
          Component.climbs rest ≤ (names ++ [n]).length := by
        simp [Component.climbs]
      show t.resolve root entry hops names
        (.down n :: rest.flatMap (PendingPart.ofComponent none)) = _
      rw [resolve, hlink names n hnames hn]
      simp only [ih hmore hrest, Component.namesAfter_normal, hroom]

/-- Below a root without links, a path is accepted exactly if it holds no NUL byte, is relative
and never climbs above its start, and the answer is the root with the names of its lexical normal
form. A NUL byte is refused as such, and all else as an escape. The root need not be there. -/
theorem joinWithin_of_linkFree (hfree : ∀ D, t.directoryAt? root = some D → t.LinkFree D) :
    (∀ q, t.joinWithin root entry = .ok q ↔
      entry.hasNul = false ∧ entry.isAbsolute = false ∧ entry.NeverClimbs ∧
        q = root.join (.ofNames entry.lexicalNames)) ∧
    (∀ fault, t.joinWithin root entry = .error fault ↔
      (fault = .nul ∧ entry.hasNul = true) ∨
      (fault = .pathEscape entry root ∧ entry.hasNul = false ∧
        (entry.isAbsolute = true ∨ ¬ entry.NeverClimbs))) := by
  have hlink : ∀ (names : List Name) (name : Name), (∀ n ∈ names, IsName n) → IsName name →
      t.linkTarget? (candidate root names name) = none := by
    intro names name hnames hname
    rw [Checked.candidate_eq hnames hname]
    have hall : ∀ n ∈ names ++ [name], IsName n :=
      List.forall_mem_append.mpr ⟨hnames, List.forall_mem_singleton.mpr hname⟩
    exact linkTarget?_of_linkFree hfree hall (by simp)
  -- From the root itself, no name is there that a `..` could take back.
  have hresolve : t.resolve root entry hopLimit [] (PendingPart.ofPath none entry) =
      if entry.NeverClimbs then .ok entry.lexicalNames else .error (.pathEscape entry root) := by
    have hcs : ∀ n, .normal n ∈ entry.components → IsName n :=
      fun n hn => Path.isName_of_mem_components hn
    have hnames : Component.namesAfter [] entry.components = entry.lexicalNames := by
      simp [Component.namesAfter, Path.lexicalNames]
    unfold PendingPart.ofPath
    rw [resolve_of_noLink hlink (List.forall_mem_nil _) hcs hopLimit, hnames]
    simp only [List.length_nil, Nat.le_zero, Path.neverClimbs_iff]
  unfold joinWithin resolveWithin
  rw [hresolve]
  cases hnul : entry.hasNul with
  | true => simp [Except.map, @eq_comm _ EscapeFault.nul]
  | false =>
    cases habs : entry.isAbsolute with
    | true => simp [Except.map, @eq_comm _ (EscapeFault.pathEscape entry root)]
    | false =>
      by_cases hclimbs : entry.NeverClimbs
      · simp [hclimbs, Except.map, @eq_comm _ (root.join (.ofNames entry.lexicalNames))]
      · simp [hclimbs, Except.map, @eq_comm _ (EscapeFault.pathEscape entry root)]

/-- A tree with nothing in it but a directory `a`. -/
def bareTree : FileTree where
  nodes := [([[0x61]], .directory 0o755)]
  workdir := []

/-- Below `a`, the path `./x/../y/` leads to `a/y`, and `x/../../y` escapes. -/
theorem joinWithin_bareTree :
    (∀ D, bareTree.directoryAt? (.ofString "a") = some D → bareTree.LinkFree D) ∧
    bareTree.joinWithin (.ofString "a") (.ofString "./x/../y/") = .ok (.ofString "a/y") ∧
    bareTree.joinWithin (.ofString "a") (.ofString "x/../../y") =
      .error (.pathEscape (.ofString "x/../../y") (.ofString "a")) := by
  have hfree : ∀ D, bareTree.directoryAt? (.ofString "a") = some D → bareTree.LinkFree D := by
    intro D _ below target hlink
    have hne : D ++ below ≠ [] := by
      intro hnil
      rw [hnil] at hlink
      cases hlink
    have hmem := mem_nodes_of_lookup hne hlink
    simp [bareTree] at hmem
  refine ⟨hfree, ((joinWithin_of_linkFree hfree).1 _).mpr ?_,
    ((joinWithin_of_linkFree hfree).2 _).mpr (Or.inr ⟨rfl, by decide, Or.inr (by decide)⟩)⟩
  exact ⟨by decide, by decide, by decide, by decide⟩

end FileTree
end ImageBuild
