import ImageBuild.Proofs.Path.Names
import ImageBuild.Proofs.Tree.Growth

/-!
# `ImageBuild.Proofs.Tree.Walk`: the path walk as a relation

`FileTree.walkFrom` is a function with many ways to fail. The proofs about it speak of the walks
that succeed, and these are a relation with one rule for each kind of segment:

* `Walks` is the walk to a spot (`walkFrom_eq_ok_iff`).
* `Arrives` is the walk of a leading part of the segments to a place, with the links that are left
  after it. A walk over two lists of segments arrives after the first and goes on with the second
  (`walks_append_iff`).
* `Denotes` says which directory a path stands for when names are joined onto it, and
  `directoryAt?` computes it.
* `Clear` says that names lead down from a place over no link. Then a walk of the names ends
  exactly where they say, and without any link (`Walks.of_clear`).

A walk has one end (`Walks.unique`). `Arrives.grow` and `Denotes.grow` say that a tree that grows
keeps what its paths lead to.
-/

set_option autoImplicit false

namespace ImageBuild

/-- The location at which a walk ends, taken up or not. -/
def Spot.loc : Spot → Location
  | .node loc _ => loc
  | .vacant dir name => dir ++ [name]

namespace FileTree

variable {t t' : FileTree} {follow : Bool} {k k' : Nat} {here D : Location} {spot : Spot}

/-! ### Walks that succeed -/

/-- Only directories can be searched. -/
theorem directory_of_canSearch {loc : Location} (h : t.canSearch loc = true) :
    ∃ m, t.lookup loc = some (.directory m) := by
  unfold FileTree.canSearch at h
  rcases hl : t.lookup loc with _ | (m | _ | _)
  · simp [hl] at h
  · exact ⟨m, rfl⟩
  all_goals simp [hl, Node.isDirectory] at h

/-- `hasDirectory` says whether there is a directory. -/
theorem hasDirectory_iff {loc : Location} :
    t.hasDirectory loc = true ↔ ∃ m, t.lookup loc = some (.directory m) := by
  unfold FileTree.hasDirectory
  rcases t.lookup loc with _ | (m | _ | _) <;> simp [Node.isDirectory]

/-- A segment that a walk stays at: `.` asks for a directory to look names up in, and a slash at
the end for a directory. -/
inductive Pauses (t : FileTree) (here : Location) : Bytes → Prop
  | dot : t.canSearch here = true → Pauses t here dot
  | trailing : t.hasDirectory here = true → Pauses t here trailing

/-- A walk pauses in directories alone. -/
theorem Pauses.directory {segment : Bytes} (h : t.Pauses here segment) :
    ∃ m, t.lookup here = some (.directory m) := by
  cases h with
  | dot hs => exact directory_of_canSearch hs
  | trailing hd => exact hasDirectory_iff.mp hd

/-- Where a walk pauses it does so in a grown tree. -/
theorem Pauses.grow {segment : Bytes} (h : t.Pauses here segment) (hg : t.GrowsInto t') :
    t'.Pauses here segment := by
  cases h with
  | dot hs => exact .dot (hg.canSearch hs)
  | trailing hd =>
    obtain ⟨m, hm⟩ := hasDirectory_iff.mp hd
    exact .trailing (hasDirectory_iff.mpr ⟨m, hg.directory hm⟩)

/-- A segment that is looked up by its name. -/
structure IsLookedUp (segment : Bytes) : Prop where
  ne_trailing : segment ≠ trailing
  ne_dot : segment ≠ dot
  ne_dotDot : segment ≠ dotDot
  length_le : segment.length ≤ nameLimit

/-- A walk of the segments from the directory `here`, with `k` links at hand, that ends at a spot.
There is one rule for each kind of segment that the walk goes on from, and one for each kind of
end.
-/
inductive Walks (t : FileTree) (follow : Bool) : Nat → Location → List Bytes → Spot → Prop
  | here {k : Nat} {here : Location} :
    Walks t follow k here [] (.node here ((t.lookup here).getD (.directory defaultMode)))
  | stay {k : Nat} {here : Location} {segment : Bytes} {rest : List Bytes} {spot : Spot} :
    t.Pauses here segment → Walks t follow k here rest spot →
    Walks t follow k here (segment :: rest) spot
  | up {k : Nat} {here : Location} {rest : List Bytes} {spot : Spot} :
    t.canSearch here = true → Walks t follow k here.dropLast rest spot →
    Walks t follow k here (dotDot :: rest) spot
  | down {k : Nat} {here : Location} {segment : Bytes} {rest : List Bytes} {spot : Spot}
    {m : Mode} : t.canSearch here = true → IsLookedUp segment →
    t.lookup (here ++ [segment]) = some (.directory m) →
    Walks t follow k (here ++ [segment]) rest spot →
    Walks t follow k here (segment :: rest) spot
  | link {k : Nat} {here : Location} {segment : Bytes} {rest : List Bytes} {spot : Spot}
    {target : Path} : t.canSearch here = true → IsLookedUp segment →
    t.lookup (here ++ [segment]) = some (.link target) → (rest ≠ [] ∨ follow = true) →
    Walks t follow k (startOf target here) (walkSegments target ++ rest) spot →
    Walks t follow (k + 1) here (segment :: rest) spot
  | endVacant {k : Nat} {here : Location} {segment : Bytes} :
    t.canSearch here = true → IsLookedUp segment → t.lookup (here ++ [segment]) = none →
    Walks t follow k here [segment] (.vacant here segment)
  | endFile {k : Nat} {here : Location} {segment : Bytes} {m : Mode} {content : Bytes} :
    t.canSearch here = true → IsLookedUp segment →
    t.lookup (here ++ [segment]) = some (.file m content) →
    Walks t follow k here [segment] (.node (here ++ [segment]) (.file m content))
  | endLink {k : Nat} {here : Location} {segment : Bytes} {target : Path} :
    t.canSearch here = true → IsLookedUp segment →
    t.lookup (here ++ [segment]) = some (.link target) → follow = false →
    Walks t follow k here [segment] (.node (here ++ [segment]) (.link target))

/-- A walk without segments ends at what is there. -/
theorem Walks.here_of_lookup {n : Node} (hn : t.lookup here = some n) :
    t.Walks follow k here [] (.node here n) := by
  have hhere : t.Walks follow k here [] _ := .here
  rwa [hn] at hhere

/-- A walk that ends goes by the rules. -/
theorem walks_of_walkFrom {segments : List Bytes}
    (h : t.walkFrom follow k here segments = .ok spot) : Walks t follow k here segments spot := by
  -- One case for each exit of the function. Those with a fault contradict `h`.
  induction k, here, segments using walkFrom.induct t follow with
  | case1 k here => rw [walkFrom] at h; cases h; exact .here
  | case2 k here rest hd ih =>
    rw [walkFrom] at h
    simp only [hd, if_true] at h
    exact .stay (.trailing hd) (ih h)
  | case3 k here rest hd => rw [walkFrom] at h; simp [hd] at h
  | case4 k here segment rest h₀ hs => rw [walkFrom] at h; simp [h₀, hs] at h
  | case5 k here rest hs h₀ ih =>
    rw [walkFrom] at h
    simp only [h₀, hs, if_false, if_true] at h
    exact .stay (.dot (by simpa using hs)) (ih h)
  | case6 k here rest hs h₀ h₁ ih =>
    rw [walkFrom] at h
    simp only [h₀, hs, h₁, if_false, if_true] at h
    exact .up (by simpa using hs) (ih h)
  | case7 k here segment rest h₀ hs h₁ h₂ hlen =>
    rw [walkFrom] at h; simp [h₀, hs, h₁, h₂, hlen] at h
  | case8 k here segment rest h₀ hs h₁ h₂ hlen hl hrest =>
    rw [walkFrom] at h
    obtain rfl : rest = [] := by simpa using hrest
    simp only [h₀, hs, h₁, h₂, hlen, hl, if_false] at h
    cases h
    exact .endVacant (by simpa using hs) ⟨h₀, h₁, h₂, by omega⟩ hl
  | case9 k here segment rest h₀ hs h₁ h₂ hlen hl hrest =>
    rw [walkFrom] at h; simp [h₀, hs, h₁, h₂, hlen, hl, hrest] at h
  | case10 k here segment rest h₀ hs h₁ h₂ hlen m hl ih =>
    rw [walkFrom] at h
    simp only [h₀, hs, h₁, h₂, hlen, hl, if_false] at h
    exact .down (by simpa using hs) ⟨h₀, h₁, h₂, by omega⟩ hl (ih h)
  | case11 k here segment rest h₀ hs h₁ h₂ hlen m content hl hrest =>
    rw [walkFrom] at h
    obtain rfl : rest = [] := by simpa using hrest
    simp only [h₀, hs, h₁, h₂, hlen, hl, if_false] at h
    cases h
    exact .endFile (by simpa using hs) ⟨h₀, h₁, h₂, by omega⟩ hl
  | case12 k here segment rest h₀ hs h₁ h₂ hlen m content hl hrest =>
    rw [walkFrom] at h; simp [h₀, hs, h₁, h₂, hlen, hl, hrest] at h
  | case13 k here segment rest h₀ hs h₁ h₂ hlen target hl hend =>
    rw [walkFrom] at h
    simp only [h₀, hs, h₁, h₂, hlen, hl, hend, if_false, if_true] at h
    cases h
    simp only [Bool.and_eq_true, List.isEmpty_iff, Bool.not_eq_true'] at hend
    obtain ⟨rfl, hfollow⟩ := hend
    exact .endLink (by simpa using hs) ⟨h₀, h₁, h₂, by omega⟩ hl hfollow
  | case14 here segment rest h₀ hs h₁ h₂ hlen target hl hend =>
    rw [walkFrom] at h; simp [h₀, hs, h₁, h₂, hlen, hl, hend] at h
  | case15 here segment rest h₀ hs h₁ h₂ hlen target hl hend k ih =>
    rw [walkFrom] at h
    simp only [h₀, hs, h₁, h₂, hlen, hl, hend, if_false] at h
    refine .link (by simpa using hs) ⟨h₀, h₁, h₂, by omega⟩ hl ?_ (ih h)
    rcases rest with _ | ⟨_, _⟩
    · exact Or.inr (by simpa using hend)
    · exact Or.inl (by simp)

/-- A segment that is looked up is none that a walk stays at. -/
theorem IsLookedUp.not_pauses {segment : Bytes} (h : IsLookedUp segment) :
    ¬ t.Pauses here segment := by
  rintro (_ | _)
  · exact h.ne_dot rfl
  · exact h.ne_trailing rfl

/-- A `..` does not pause, it moves. -/
theorem not_pauses_dotDot : ¬ t.Pauses here dotDot := by
  intro h
  generalize hseg : dotDot = segment at h
  cases h <;> exact absurd hseg (by decide)

/-- What the rules allow is what the walk does. -/
theorem Walks.walkFrom {segments : List Bytes} (h : Walks t follow k here segments spot) :
    t.walkFrom follow k here segments = .ok spot := by
  -- One rule is one branch of the walk. The names that are looked up are none of the special
  -- ones.
  induction h with
  | here => rw [FileTree.walkFrom]
  | stay hs _ ih =>
    rw [FileTree.walkFrom]
    cases hs with
    | dot hs =>
      have hne : dot ≠ trailing := by decide
      simpa [hs, hne] using ih
    | trailing hd => simpa [hd] using ih
  | up hs _ ih =>
    rw [FileTree.walkFrom]
    have hne : dotDot ≠ dot := by decide
    have hne' : dotDot ≠ trailing := by decide
    simpa [hs, hne, hne'] using ih
  | down hs hseg hl _ ih =>
    rw [FileTree.walkFrom]
    simpa [hs, hseg.ne_trailing, hseg.ne_dot, hseg.ne_dotDot, Nat.not_lt.mpr hseg.length_le,
      hl] using ih
  | @link k here segment rest spot target hs hseg hl hmore _ ih =>
    rw [FileTree.walkFrom]
    have hend : (rest.isEmpty && !follow) = false := by
      rcases hmore with hmore | hmore <;> simp [hmore]
    simpa [hs, hseg.ne_trailing, hseg.ne_dot, hseg.ne_dotDot, Nat.not_lt.mpr hseg.length_le, hl,
      hend] using ih
  | endVacant hs hseg hl | endFile hs hseg hl =>
    rw [FileTree.walkFrom]
    simp [hs, hseg.ne_trailing, hseg.ne_dot, hseg.ne_dotDot, Nat.not_lt.mpr hseg.length_le, hl]
  | endLink hs hseg hl hfollow =>
    rw [FileTree.walkFrom]
    simp [hs, hseg.ne_trailing, hseg.ne_dot, hseg.ne_dotDot, Nat.not_lt.mpr hseg.length_le, hl,
      hfollow]

/-- The rules say exactly where a walk ends. -/
theorem walkFrom_eq_ok_iff {segments : List Bytes} :
    t.walkFrom follow k here segments = .ok spot ↔ Walks t follow k here segments spot :=
  ⟨walks_of_walkFrom, Walks.walkFrom⟩

/-! ### Leading parts of a walk -/

/-- A walk of the segments from `here` with `k` links at hand that arrives at a place with `k'`
links left. Every link is followed, for the walk is to go on from there. -/
inductive Arrives (t : FileTree) : Nat → Location → List Bytes → Nat → Location → Prop
  | here {k : Nat} {here : Location} : Arrives t k here [] k here
  | stay {k k' : Nat} {here D : Location} {segment : Bytes} {rest : List Bytes} :
    t.Pauses here segment → Arrives t k here rest k' D → Arrives t k here (segment :: rest) k' D
  | up {k k' : Nat} {here D : Location} {rest : List Bytes} :
    t.canSearch here = true → Arrives t k here.dropLast rest k' D →
    Arrives t k here (dotDot :: rest) k' D
  | down {k k' : Nat} {here D : Location} {segment : Bytes} {rest : List Bytes} {m : Mode} :
    t.canSearch here = true → IsLookedUp segment →
    t.lookup (here ++ [segment]) = some (.directory m) →
    Arrives t k (here ++ [segment]) rest k' D → Arrives t k here (segment :: rest) k' D
  | link {k k' : Nat} {here D : Location} {segment : Bytes} {rest : List Bytes} {target : Path} :
    t.canSearch here = true → IsLookedUp segment →
    t.lookup (here ++ [segment]) = some (.link target) →
    Arrives t k (startOf target here) (walkSegments target ++ rest) k' D →
    Arrives t (k + 1) here (segment :: rest) k' D

/-- From where a walk has arrived it goes on as from the start. -/
theorem Arrives.walks {a b : List Bytes} (h : t.Arrives k here a k' D) (hne : b ≠ [])
    (hb : t.Walks follow k' D b spot) : t.Walks follow k here (a ++ b) spot := by
  induction h with
  | here => exact hb
  | stay hs _ ih => exact .stay hs (ih hb)
  | up hs _ ih => exact .up hs (ih hb)
  | down hs hseg hl _ ih => exact .down hs hseg hl (ih hb)
  | link hs hseg hl _ ih =>
    -- Segments follow, so the walk takes a link here even if it does not take one at its end.
    refine .link hs hseg hl (Or.inl (by simp [hne])) ?_
    have hw := ih hb
    rwa [List.append_assoc] at hw

/-- Two ways to directories can be joined. -/
theorem Arrives.append {a b : List Bytes} {k₁ k₂ : Nat} {E : Location}
    (h : t.Arrives k here a k₁ D) (hb : t.Arrives k₁ D b k₂ E) :
    t.Arrives k here (a ++ b) k₂ E := by
  induction h with
  | here => exact hb
  | stay hs _ ih => exact .stay hs (ih hb)
  | up hs _ ih => exact .up hs (ih hb)
  | down hs hseg hl _ ih => exact .down hs hseg hl (ih hb)
  | link hs hseg hl _ ih =>
    have harr := ih hb
    rw [List.append_assoc] at harr
    exact .link hs hseg hl harr

/-- A walk over two lists of segments arrives somewhere after the first. -/
theorem Walks.arrives {a b : List Bytes} (hne : b ≠ [])
    (h : t.Walks follow k here (a ++ b) spot) :
    ∃ k' D, t.Arrives k here a k' D ∧ t.Walks follow k' D b spot := by
  -- Each rule uses up one segment: the first of `a`, or the first of `b` if `a` is used up.
  generalize hab : a ++ b = segments at h
  induction h generalizing a with
  | here => simp [hne] at hab
  | @stay k here segment rest spot hs hw ih =>
    rcases List.append_eq_cons_iff.mp hab with ⟨rfl, rfl⟩ | ⟨a', rfl, rfl⟩
    · exact ⟨k, here, .here, .stay hs hw⟩
    · obtain ⟨k', D, harr, hb⟩ := ih rfl
      exact ⟨k', D, .stay hs harr, hb⟩
  | @up k here rest spot hs hw ih =>
    rcases List.append_eq_cons_iff.mp hab with ⟨rfl, rfl⟩ | ⟨a', rfl, rfl⟩
    · exact ⟨k, here, .here, .up hs hw⟩
    · obtain ⟨k', D, harr, hb⟩ := ih rfl
      exact ⟨k', D, .up hs harr, hb⟩
  | @down k here segment rest spot m hs hseg hl hw ih =>
    rcases List.append_eq_cons_iff.mp hab with ⟨rfl, rfl⟩ | ⟨a', rfl, rfl⟩
    · exact ⟨k, here, .here, .down hs hseg hl hw⟩
    · obtain ⟨k', D, harr, hb⟩ := ih rfl
      exact ⟨k', D, .down hs hseg hl harr, hb⟩
  | @link k here segment rest spot target hs hseg hl hmore hw ih =>
    rcases List.append_eq_cons_iff.mp hab with ⟨rfl, rfl⟩ | ⟨a', rfl, rfl⟩
    · exact ⟨k + 1, here, .here, .link hs hseg hl hmore hw⟩
    · obtain ⟨k', D, harr, hb⟩ := ih (List.append_assoc _ _ _)
      exact ⟨k', D, .link hs hseg hl harr, hb⟩
  | @endVacant k here segment hs hseg hl =>
    obtain ⟨rfl, rfl⟩ := (List.append_eq_singleton_iff.mp hab).resolve_right (fun h => hne h.2)
    exact ⟨k, here, .here, .endVacant hs hseg hl⟩
  | @endFile k here segment m content hs hseg hl =>
    obtain ⟨rfl, rfl⟩ := (List.append_eq_singleton_iff.mp hab).resolve_right (fun h => hne h.2)
    exact ⟨k, here, .here, .endFile hs hseg hl⟩
  | @endLink k here segment target hs hseg hl hfollow =>
    obtain ⟨rfl, rfl⟩ := (List.append_eq_singleton_iff.mp hab).resolve_right (fun h => hne h.2)
    exact ⟨k, here, .here, .endLink hs hseg hl hfollow⟩

/-- A walk along two parts first comes to a directory by the one, and goes on by the other. -/
theorem walks_append_iff {a b : List Bytes} (hne : b ≠ []) :
    t.Walks follow k here (a ++ b) spot ↔
      ∃ k' D, t.Arrives k here a k' D ∧ t.Walks follow k' D b spot :=
  ⟨Walks.arrives hne, fun ⟨_, _, ha, hb⟩ => ha.walks hne hb⟩

/-- A walk that follows every link and ends at a directory is an arrival there. -/
theorem Walks.arrives_of_directory {segments : List Bytes}
    (h : t.Walks true k here segments spot) {m : Mode}
    (hm : t.lookup spot.loc = some (.directory m)) :
    ∃ k', t.Arrives k here segments k' spot.loc := by
  induction h with
  | @here k here => exact ⟨k, .here⟩
  | stay hs _ ih => obtain ⟨k', harr⟩ := ih hm; exact ⟨k', .stay hs harr⟩
  | up hs _ ih => obtain ⟨k', harr⟩ := ih hm; exact ⟨k', .up hs harr⟩
  | down hs hseg hl _ ih => obtain ⟨k', harr⟩ := ih hm; exact ⟨k', .down hs hseg hl harr⟩
  | link hs hseg hl _ _ ih => obtain ⟨k', harr⟩ := ih hm; exact ⟨k', .link hs hseg hl harr⟩
  | endVacant _ _ hl | endFile _ _ hl => simp [Spot.loc, hl] at hm
  | endLink _ _ _ hfollow => cases hfollow

/-- An arrival is a walk that follows every link. -/
theorem Arrives.walks_end {segments : List Bytes} (h : t.Arrives k here segments k' D) :
    t.Walks true k here segments (.node D ((t.lookup D).getD (.directory defaultMode))) := by
  induction h with
  | here => exact .here
  | stay hs _ ih => exact .stay hs ih
  | up hs _ ih => exact .up hs ih
  | down hs hseg hl _ ih => exact .down hs hseg hl ih
  | link hs hseg hl _ ih => exact .link hs hseg hl (Or.inr rfl) ih

/-- A walk arrives at one place at most, with one number of links left. -/
theorem Arrives.unique {segments : List Bytes} {k₁ k₂ : Nat} {D₁ D₂ : Location}
    (h : t.Arrives k here segments k₁ D₁) (h' : t.Arrives k here segments k₂ D₂) :
    k₁ = k₂ ∧ D₁ = D₂ := by
  -- The segment tells which rule applies, and the tree tells a directory from a link.
  induction h with
  | here => cases h'; exact ⟨rfl, rfl⟩
  | stay hs _ ih =>
    cases h' with
    | stay _ h' => exact ih h'
    | up => exact absurd hs not_pauses_dotDot
    | down _ hseg | link _ hseg => exact absurd hs hseg.not_pauses
  | up _ _ ih =>
    cases h' with
    | stay hs => exact absurd hs not_pauses_dotDot
    | up _ h' => exact ih h'
    | down _ hseg | link _ hseg => exact absurd rfl hseg.ne_dotDot
  | down _ hseg hl _ ih =>
    cases h' with
    | stay hs => exact absurd hs hseg.not_pauses
    | up => exact absurd rfl hseg.ne_dotDot
    | down _ _ _ h' => exact ih h'
    | link _ _ hl' => rw [hl] at hl'; cases hl'
  | link _ hseg hl _ ih =>
    cases h' with
    | stay hs => exact absurd hs hseg.not_pauses
    | up => exact absurd rfl hseg.ne_dotDot
    | down _ _ hl' => rw [hl] at hl'; cases hl'
    | link _ _ hl' h' => rw [hl] at hl'; cases hl'; exact ih h'

/-- Where a walk arrives it arrives in every tree that the tree grows into. -/
theorem Arrives.grow {segments : List Bytes} (h : t.Arrives k here segments k' D)
    (hg : t.GrowsInto t') : t'.Arrives k here segments k' D := by
  induction h with
  | here => exact .here
  | stay hs _ ih => exact .stay (hs.grow hg) ih
  | up hs _ ih => exact .up (hg.canSearch hs) ih
  | down hs hseg hl _ ih => exact .down (hg.canSearch hs) hseg (hg.directory hl) ih
  | link hs hseg hl _ ih => exact .link (hg.canSearch hs) hseg (hg.link.mpr hl) ih

/-- A walk to a node that is there ends at the same place after the tree has grown. -/
theorem Walks.grow {segments : List Bytes} {loc : Location} {n : Node}
    (h : t.Walks follow k here segments (.node loc n)) (hn : t.lookup loc = some n)
    (hg : t.GrowsInto t') :
    ∃ n', t'.lookup loc = some n' ∧ t'.Walks follow k here segments (.node loc n') := by
  -- The end is a node, so of the rules for an end the one for a vacant spot falls away.
  generalize hspot : Spot.node loc n = spot at h
  induction h with
  | here =>
    cases hspot
    obtain ⟨n', hn'⟩ := hg.exists_lookup hn
    exact ⟨n', hn', .here_of_lookup hn'⟩
  | endVacant => cases hspot
  | stay hs _ ih =>
    obtain ⟨n', hn', hw⟩ := ih hspot
    exact ⟨n', hn', .stay (hs.grow hg) hw⟩
  | up hs _ ih =>
    obtain ⟨n', hn', hw⟩ := ih hspot
    exact ⟨n', hn', .up (hg.canSearch hs) hw⟩
  | down hs hseg hl _ ih =>
    obtain ⟨n', hn', hw⟩ := ih hspot
    exact ⟨n', hn', .down (hg.canSearch hs) hseg (hg.directory hl) hw⟩
  | link hs hseg hl hmore _ ih =>
    obtain ⟨n', hn', hw⟩ := ih hspot
    exact ⟨n', hn', .link (hg.canSearch hs) hseg (hg.link.mpr hl) hmore hw⟩
  | endFile hs hseg hl =>
    cases hspot
    obtain ⟨m, content, hl'⟩ := hg.file hl
    exact ⟨_, hl', .endFile (hg.canSearch hs) hseg hl'⟩
  | endLink hs hseg hl hfollow =>
    cases hspot
    have hl' := hg.link.mpr hl
    exact ⟨_, hl', .endLink (hg.canSearch hs) hseg hl' hfollow⟩

/-- A vacant name that a directory takes is where the walk then arrives. -/
theorem Walks.arrives_of_made {segments : List Bytes} {dir : Location} {name : Name} {m : Mode}
    (h : t.Walks follow k here segments (.vacant dir name)) (hg : t.GrowsInto t')
    (hm : t'.lookup (dir ++ [name]) = some (.directory m)) :
    ∃ k', t'.Arrives k here segments k' (dir ++ [name]) := by
  generalize hspot : Spot.vacant dir name = spot at h
  induction h with
  | here | endFile | endLink => cases hspot
  | stay hs _ ih => obtain ⟨k', harr⟩ := ih hspot; exact ⟨k', .stay (hs.grow hg) harr⟩
  | up hs _ ih => obtain ⟨k', harr⟩ := ih hspot; exact ⟨k', .up (hg.canSearch hs) harr⟩
  | down hs hseg hl _ ih =>
    obtain ⟨k', harr⟩ := ih hspot
    exact ⟨k', .down (hg.canSearch hs) hseg (hg.directory hl) harr⟩
  | link hs hseg hl _ _ ih =>
    obtain ⟨k', harr⟩ := ih hspot
    exact ⟨k', .link (hg.canSearch hs) hseg (hg.link.mpr hl) harr⟩
  | @endVacant k here segment hs hseg hl =>
    cases hspot
    exact ⟨k, .down (hg.canSearch hs) hseg hm .here⟩

/-- A file that takes a vacant spot is what the walk then ends at. -/
theorem Walks.file_of_made {segments : List Bytes} {dir : Location} {name : Name} {m : Mode}
    {content : Bytes} (h : t.Walks follow k here segments (.vacant dir name))
    (hg : t.GrowsInto t') (hm : t'.lookup (dir ++ [name]) = some (.file m content)) :
    t'.Walks follow k here segments (.node (dir ++ [name]) (.file m content)) := by
  generalize hspot : Spot.vacant dir name = spot at h
  induction h with
  | here | endFile | endLink => cases hspot
  | stay hs _ ih => exact .stay (hs.grow hg) (ih hspot)
  | up hs _ ih => exact .up (hg.canSearch hs) (ih hspot)
  | down hs hseg hl _ ih => exact .down (hg.canSearch hs) hseg (hg.directory hl) (ih hspot)
  | link hs hseg hl hmore _ ih =>
    exact .link (hg.canSearch hs) hseg (hg.link.mpr hl) hmore (ih hspot)
  | endVacant hs hseg hl =>
    cases hspot
    exact .endFile (hg.canSearch hs) hseg hm

/-- A directory that takes a vacant spot is what the walk then ends at. -/
theorem Walks.directory_of_made {segments : List Bytes} {dir : Location} {name : Name} {m : Mode}
    (h : t.Walks follow k here segments (.vacant dir name)) (hg : t.GrowsInto t')
    (hm : t'.lookup (dir ++ [name]) = some (.directory m)) :
    t'.Walks follow k here segments (.node (dir ++ [name]) (.directory m)) := by
  generalize hspot : Spot.vacant dir name = spot at h
  induction h with
  | here | endFile | endLink => cases hspot
  | stay hs _ ih => exact .stay (hs.grow hg) (ih hspot)
  | up hs _ ih => exact .up (hg.canSearch hs) (ih hspot)
  | down hs hseg hl _ ih => exact .down (hg.canSearch hs) hseg (hg.directory hl) (ih hspot)
  | link hs hseg hl hmore _ ih =>
    exact .link (hg.canSearch hs) hseg (hg.link.mpr hl) hmore (ih hspot)
  | endVacant hs hseg hl =>
    cases hspot
    exact .down (hg.canSearch hs) hseg hm (.here_of_lookup hm)

/-- A spot that is vacant is what a walk ends at as long as nothing takes it. -/
theorem Walks.grow_of_vacant {segments : List Bytes} {dir : Location} {name : Name}
    (h : t.Walks follow k here segments (.vacant dir name)) (hg : t.GrowsInto t')
    (hvacant : t'.lookup (dir ++ [name]) = none) :
    t'.Walks follow k here segments (.vacant dir name) := by
  generalize hspot : Spot.vacant dir name = spot at h
  induction h with
  | here | endFile | endLink => cases hspot
  | stay hs _ ih => exact .stay (hs.grow hg) (ih hspot)
  | up hs _ ih => exact .up (hg.canSearch hs) (ih hspot)
  | down hs hseg hl _ ih => exact .down (hg.canSearch hs) hseg (hg.directory hl) (ih hspot)
  | link hs hseg hl hmore _ ih =>
    exact .link (hg.canSearch hs) hseg (hg.link.mpr hl) hmore (ih hspot)
  | endVacant hs hseg =>
    cases hspot
    exact .endVacant (hg.canSearch hs) hseg hvacant

/-- A walk to a vacant spot has no last link to follow. -/
theorem Walks.follow_of_vacant {segments : List Bytes} {dir : Location} {name : Name}
    (h : t.Walks follow k here segments (.vacant dir name)) :
    t.Walks true k here segments (.vacant dir name) := by
  generalize hspot : Spot.vacant dir name = spot at h
  induction h with
  | here | endFile | endLink => cases hspot
  | stay hs _ ih => exact .stay hs (ih hspot)
  | up hs _ ih => exact .up hs (ih hspot)
  | down hs hseg hl _ ih => exact .down hs hseg hl (ih hspot)
  | link hs hseg hl _ _ ih => exact .link hs hseg hl (Or.inr rfl) (ih hspot)
  | endVacant hs hseg hl => exact .endVacant hs hseg hl

/-- Nothing has the name of a vacant spot, and the directory for it is there. -/
theorem Walks.vacant {segments : List Bytes} {dir : Location} {name : Name}
    (h : t.Walks follow k here segments (.vacant dir name)) :
    t.lookup (dir ++ [name]) = none ∧ t.canSearch dir = true := by
  generalize hspot : Spot.vacant dir name = spot at h
  induction h with
  | here | endFile | endLink => cases hspot
  | stay _ _ ih | up _ _ ih | down _ _ _ _ ih | link _ _ _ _ _ ih => exact ih hspot
  | endVacant hs _ hl => cases hspot; exact ⟨hl, hs⟩

/-- What stands at the end of a walk, other than a directory, is what the tree has there. -/
theorem Walks.lookup_loc {segments : List Bytes} {loc : Location} {n : Node}
    (h : t.Walks follow k here segments (.node loc n)) (hn : n.isDirectory = false) :
    t.lookup loc = some n := by
  generalize hspot : Spot.node loc n = spot at h
  induction h with
  | here =>
    cases hspot
    cases hl : t.lookup loc with
    | none => simp [hl, Node.isDirectory] at hn
    | some n => rfl
  | endVacant => cases hspot
  | stay _ _ ih | up _ _ ih | down _ _ _ _ ih | link _ _ _ _ _ ih => exact ih hspot
  | endFile _ _ hl | endLink _ _ hl => cases hspot; exact hl

/-- In a well-formed tree, what stands at the end of a walk is there, if the walk starts at a
directory or goes anywhere. -/
theorem Walks.lookup_node (hwf : t.WellFormed) {segments : List Bytes} {loc : Location} {n : Node}
    (h : t.Walks follow k here segments (.node loc n))
    (hstart : segments ≠ [] ∨ ∃ m, t.lookup here = some (.directory m)) :
    t.lookup loc = some n := by
  generalize hspot : Spot.node loc n = spot at h
  induction h with
  | here =>
    cases hspot
    obtain ⟨m, hm⟩ := hstart.resolve_left (by simp)
    simp [hm]
  | endVacant => cases hspot
  | stay hs _ ih => exact ih (Or.inr hs.directory) hspot
  | up hs _ ih =>
    obtain ⟨m, hm⟩ := directory_of_canSearch hs
    exact ih (Or.inr (hwf.directory_dropLast hm)) hspot
  | down _ _ hl _ ih => exact ih (Or.inr ⟨_, hl⟩) hspot
  | @link k here segment rest spot target hs _ _ _ _ ih =>
    refine ih (Or.inr ?_) hspot
    unfold startOf
    split
    · exact ⟨_, rfl⟩
    · exact directory_of_canSearch hs
  | endFile _ _ hl | endLink _ _ hl => cases hspot; exact hl

/-- No segment of a walk is longer than a name may be. -/
theorem Walks.length_le {segments : List Bytes} (h : t.Walks follow k here segments spot) :
    ∀ s ∈ segments, s.length ≤ nameLimit := by
  induction h with
  | here => simp
  | stay hs _ ih => exact List.forall_mem_cons.mpr ⟨by cases hs <;> decide, ih⟩
  | up _ _ ih => exact List.forall_mem_cons.mpr ⟨by decide, ih⟩
  | down _ hseg _ _ ih => exact List.forall_mem_cons.mpr ⟨hseg.length_le, ih⟩
  | link _ hseg _ _ _ ih =>
    exact List.forall_mem_cons.mpr ⟨hseg.length_le, fun s hs => ih s (List.mem_append_right _ hs)⟩
  | endVacant _ hseg | endFile _ hseg | endLink _ hseg => simpa using hseg.length_le

/-- A walk that follows the last link too ends at no link. -/
theorem Walks.ne_link (hwf : t.WellFormed) {segments : List Bytes} {loc : Location} {n : Node}
    (h : t.Walks true k here segments (.node loc n))
    (hstart : segments ≠ [] ∨ ∃ m, t.lookup here = some (.directory m)) (target : Path) :
    n ≠ .link target := by
  generalize hspot : Spot.node loc n = spot at h
  -- The walk is always in a directory, so a walk that ends at once ends in one.
  induction h with
  | here =>
    cases hspot
    obtain ⟨m, hm⟩ := hstart.resolve_left (by simp)
    simp [hm]
  | endVacant => cases hspot
  | stay hs _ ih => exact ih (Or.inr hs.directory) hspot
  | up hs _ ih =>
    obtain ⟨m, hm⟩ := directory_of_canSearch hs
    exact ih (Or.inr (hwf.directory_dropLast hm)) hspot
  | down _ _ hl _ ih => exact ih (Or.inr ⟨_, hl⟩) hspot
  | @link k here segment rest spot target hs _ _ _ _ ih =>
    refine ih (Or.inr ?_) hspot
    unfold startOf
    split
    · exact ⟨_, rfl⟩
    · exact directory_of_canSearch hs
  | endFile => cases hspot; simp
  | endLink _ _ _ hfollow => cases hfollow

/-- A step is looked up in a directory that may be searched. -/
theorem Walks.canSearch {segment : Bytes} {rest : List Bytes} (hstep : Path.isStep segment = true)
    (h : t.Walks follow k here (segment :: rest) spot) : t.canSearch here = true := by
  cases h with
  | stay hs => cases hs <;> exact absurd hstep (by decide)
  | up hs | down hs | link hs | endVacant hs | endFile hs | endLink hs => exact hs

/-- A walk that goes on with names does so from a directory. -/
theorem Walks.directory_of_names {names : List Name} (hnames : ∀ n ∈ names, IsName n)
    (hne : names ≠ []) (h : t.Walks follow k here names spot) :
    ∃ m, t.lookup here = some (.directory m) := by
  obtain ⟨n, rest, rfl⟩ := List.exists_cons_of_ne_nil hne
  exact directory_of_canSearch (h.canSearch (hnames n List.mem_cons_self).isStep)

/-- A segment that pauses names nothing. -/
theorem Pauses.not_isStep {segment : Bytes} (h : t.Pauses here segment) :
    ¬ Path.isStep segment = true := by
  cases h <;> decide

/-- A segment that is looked up is a step. -/
theorem IsLookedUp.isStep {segment : Bytes} (h : IsLookedUp segment) :
    Path.isStep segment = true := by
  have hne : segment ≠ [] := h.ne_trailing
  simp [Path.isStep, hne, h.ne_dot]

/-- A name that is not too long is looked up. -/
theorem isLookedUp_of_isName {name : Name} (h : IsName name) (hlen : name.length ≤ nameLimit) :
    IsLookedUp name :=
  ⟨h.ne_nil, h.ne_dot, h.ne_dotDot, hlen⟩

/-- Where names can be looked up, a walk stays at a segment that is no step. -/
theorem pauses_of_canSearch {segment : Bytes} (hs : t.canSearch here = true)
    (hstep : ¬ Path.isStep segment = true) : t.Pauses here segment := by
  by_cases hempty : segment = trailing
  · subst hempty
    exact .trailing (hasDirectory_iff.mpr (directory_of_canSearch hs))
  · have hne : segment ≠ [] := hempty
    obtain rfl : segment = dot := by simpa [Path.isStep, hne] using hstep
    exact .dot hs

/-- The steps of a walk are those of its path. -/
theorem filter_walkSegments (p : Path) :
    (walkSegments p).filter Path.isStep = p.segments.filter Path.isStep := by
  have htrailing : ∀ b : Bool, (if b then [trailing] else []).filter Path.isStep = [] := by decide
  rw [walkSegments, List.filter_append, htrailing, List.append_nil, ← Path.filter_steps]
  rfl

/-- If every link is followed, the segments that are no steps make no difference to where a walk
ends. -/
theorem Walks.filter_steps {segments : List Bytes} (h : t.Walks true k here segments spot) :
    t.Walks true k here (segments.filter Path.isStep) spot := by
  induction segments generalizing k here with
  | nil => exact h
  | cons segment rest ih =>
    by_cases hstep : Path.isStep segment = true
    · rw [List.filter_cons_of_pos hstep]
      by_cases hrest : rest = []
      · subst hrest; exact h
      · obtain ⟨k', D, harr, hb⟩ := (walks_append_iff (a := [segment]) hrest).mp h
        have hb := ih hb
        by_cases hkept : rest.filter Path.isStep = []
        · rw [hkept] at hb ⊢
          cases hb
          exact harr.walks_end
        · exact harr.walks hkept hb
    · rw [List.filter_cons_of_neg hstep]
      cases h with
      | stay _ hrest => exact ih hrest
      | up => exact absurd rfl hstep
      | down _ hseg | link _ hseg | endVacant _ hseg | endFile _ hseg | endLink _ hseg =>
        exact absurd hseg.isStep hstep

/-- Segments that are no steps ask for nothing that the steps behind them do not ask for. -/
theorem Walks.of_filter_steps {front : List Bytes} {last : Bytes}
    (hlast : Path.isStep last = true)
    (h : t.Walks true k here ((front ++ [last]).filter Path.isStep) spot) :
    t.Walks true k here (front ++ [last]) spot := by
  induction front generalizing k here with
  | nil => simpa [hlast] using h
  | cons segment rest ih =>
    -- The last segment is kept, so something is left to walk.
    have hkept : (rest ++ [last]).filter Path.isStep ≠ [] := by simp [hlast]
    by_cases hstep : Path.isStep segment = true
    · rw [List.cons_append, List.filter_cons_of_pos hstep] at h
      obtain ⟨k', D, harr, hrest⟩ := (walks_append_iff (a := [segment]) hkept).mp h
      exact harr.walks (by simp) (ih hrest)
    · rw [List.cons_append, List.filter_cons_of_neg hstep] at h
      obtain ⟨next, more, hnext⟩ := List.exists_cons_of_ne_nil hkept
      have hs : t.canSearch here = true := by
        have hmem : next ∈ (rest ++ [last]).filter Path.isStep := hnext ▸ List.mem_cons_self
        rw [hnext] at h
        exact h.canSearch (List.mem_filter.mp hmem).2
      exact .stay (pauses_of_canSearch hs hstep) (ih h)

/-- A walk ends at one spot at most. -/
theorem Walks.unique {segments : List Bytes} {spot' : Spot}
    (h : t.Walks follow k here segments spot) (h' : t.Walks follow k here segments spot') :
    spot = spot' :=
  Except.ok.inj (h.walkFrom.symm.trans h'.walkFrom)

/-! ### What a path denotes -/

/-- The directory in which names are looked up that are joined onto a path. For the empty path
this is the working directory. -/
def directoryAt? (t : FileTree) (p : Path) : Option Location :=
  match t.walkFrom true linkBudget (startOf p t.workdir) p.steps with
  | .error _ => none
  | .ok spot =>
    match t.lookup spot.loc with
    | some (.directory _) => some spot.loc
    | _ => none

/-- The path leads to a directory, and this is where it is. -/
def Denotes (t : FileTree) (p : Path) (D : Location) : Prop :=
  (∃ k, t.Arrives linkBudget (startOf p t.workdir) p.steps k D) ∧
    ∃ m, t.lookup D = some (.directory m)

/-- The directory of a path is what the path denotes. -/
theorem directoryAt?_eq_some_iff {p : Path} : t.directoryAt? p = some D ↔ t.Denotes p D := by
  unfold directoryAt?
  constructor
  · intro h
    cases hwalk : t.walkFrom true linkBudget (startOf p t.workdir) p.steps with
    | error f => rw [hwalk] at h; cases h
    | ok spot =>
      rw [hwalk] at h
      cases hnode : t.lookup spot.loc with
      | none => simp [hnode] at h
      | some n =>
        cases n with
        | file | link => simp [hnode] at h
        | directory m =>
          obtain rfl : spot.loc = D := by simpa [hnode] using h
          exact ⟨(walks_of_walkFrom hwalk).arrives_of_directory hnode, m, hnode⟩
  · rintro ⟨⟨k, harr⟩, m, hm⟩
    rw [harr.walks_end.walkFrom]
    simp [Spot.loc, hm]

/-- What a path denotes it denotes in every tree that the tree grows into. -/
theorem Denotes.grow {p : Path} (h : t.Denotes p D) (hg : t.GrowsInto t') : t'.Denotes p D := by
  obtain ⟨⟨k, harr⟩, m, hm⟩ := h
  refine ⟨⟨k, ?_⟩, m, hg.directory hm⟩
  rw [hg.workdir]
  exact harr.grow hg

/-! ### The walk of a path -/

/-- A path is accepted as text when it has no nul, is not empty and not too long. -/
theorem checkText_eq_ok_iff {p : Path} :
    checkText p = .ok () ↔
      p.hasNul = false ∧ p.isEmpty = false ∧ p.bytes.length ≤ pathLimit := by
  unfold checkText
  cases p.hasNul <;> cases p.isEmpty <;> simp

/-- A text that may be walked may be walked with bytes left out, if some are left. -/
theorem checkText_of_sublist {p q : Path} (hq : checkText q = .ok ()) (hp : p.isEmpty = false)
    (h : p.bytes.Sublist q.bytes) : checkText p = .ok () := by
  obtain ⟨hnul, -, hlen⟩ := checkText_eq_ok_iff.mp hq
  refine checkText_eq_ok_iff.mpr ⟨?_, hp, Nat.le_trans h.length_le hlen⟩
  simp only [Path.hasNul, List.contains_eq_mem, decide_eq_false_iff_not] at hnul ⊢
  exact fun hmem => hnul (h.subset hmem)

/-- A leading part of a text that may be walked may be walked. -/
theorem checkText_of_longer {p q : Path} (hq : checkText q = .ok ()) (hp : p.isEmpty = false)
    (h : p.bytes <+: q.bytes) : checkText p = .ok () :=
  checkText_of_sublist hq hp h.sublist

/-- The walk of a path is that of its segments, if its text is accepted. -/
theorem walk_eq_ok_iff {p : Path} :
    t.walk follow p = .ok spot ↔
      checkText p = .ok () ∧
        t.Walks follow linkBudget (startOf p t.workdir) (walkSegments p) spot := by
  rw [← walkFrom_eq_ok_iff]
  unfold FileTree.walk
  cases checkText p with
  | error e => simp [bind, Except.bind]
  | ok u => simp [bind, Except.bind]

/-- A path is walked from a directory, or along some segment. -/
theorem start_of_checkText {p : Path} (htext : checkText p = .ok ()) :
    walkSegments p ≠ [] ∨ ∃ m, t.lookup (startOf p t.workdir) = some (.directory m) := by
  cases habs : p.isAbsolute with
  | true => exact Or.inr ⟨_, by simp [startOf, habs]; rfl⟩
  | false =>
    obtain ⟨first, rest, hsegments, hfirst⟩ :=
      Path.exists_segments_of_relative (checkText_eq_ok_iff.mp htext).2.1 habs
    exact Or.inl (by simp [walkSegments, hsegments, hfirst])

/-- In a well-formed tree, what a path leads to is there. -/
theorem WellFormed.lookup_of_walk (hwf : t.WellFormed) {p : Path} {loc : Location} {n : Node}
    (h : t.walk follow p = .ok (.node loc n)) : t.lookup loc = some n := by
  obtain ⟨htext, hwalks⟩ := walk_eq_ok_iff.mp h
  exact hwalks.lookup_node hwf (start_of_checkText htext)

/-- In a well-formed tree, a path whose links are all followed leads to a directory or to a
file. -/
theorem WellFormed.directory_or_file_of_walk (hwf : t.WellFormed) {p : Path} {loc : Location}
    {n : Node} (h : t.walk true p = .ok (.node loc n)) :
    (∃ m, n = .directory m) ∨ ∃ m content, n = .file m content := by
  obtain ⟨htext, hwalks⟩ := walk_eq_ok_iff.mp h
  cases n with
  | directory m => exact Or.inl ⟨m, rfl⟩
  | file m content => exact Or.inr ⟨m, content, rfl⟩
  | link target => exact absurd rfl (hwalks.ne_link hwf (start_of_checkText htext) target)

/-- A path that leads to something leads there after the tree has grown. -/
theorem GrowsInto.walk (hg : t.GrowsInto t') {p : Path} {loc : Location} {n : Node}
    (h : t.walk follow p = .ok (.node loc n)) (hn : t.lookup loc = some n) :
    ∃ n', t'.lookup loc = some n' ∧ t'.walk follow p = .ok (.node loc n') := by
  obtain ⟨htext, hwalks⟩ := walk_eq_ok_iff.mp h
  obtain ⟨n', hn', hthere⟩ := hwalks.grow hn hg
  rw [← hg.workdir] at hthere
  exact ⟨n', hn', walk_eq_ok_iff.mpr ⟨htext, hthere⟩⟩

/-- A path that leads to a vacant spot names nothing as long as nothing takes the spot. -/
theorem GrowsInto.find_of_vacant (hg : t.GrowsInto t') {p : Path} {dir : Location} {name : Name}
    (h : t.walk follow p = .ok (.vacant dir name)) (hvacant : t'.lookup (dir ++ [name]) = none) :
    t'.find follow p = .error .notFound := by
  obtain ⟨htext, hwalks⟩ := walk_eq_ok_iff.mp h
  have hstays := hwalks.grow_of_vacant hg hvacant
  rw [← hg.workdir] at hstays
  unfold find
  rw [walk_eq_ok_iff.mpr ⟨htext, hstays⟩]
  rfl

/-- A path with names joined onto it is walked along its own segments and then along the names. -/
theorem walk_join_eq_ok_iff {p : Path} {names : List Name} (hnames : ∀ n ∈ names, IsName n)
    (hne : names ≠ []) :
    t.walk follow (p.join (.ofNames names)) = .ok spot ↔
      checkText (p.join (.ofNames names)) = .ok () ∧
        t.Walks follow linkBudget (startOf p t.workdir) (p.steps ++ names) spot := by
  have hsegments : walkSegments (p.join (.ofNames names)) = p.steps ++ names := by
    have hlast := Path.getLast?_join_ne_slash hnames hne p
    rw [← Path.steps_join hnames hne p]
    simp [walkSegments, Path.steps, hlast]
  have hstart : startOf (p.join (.ofNames names)) t.workdir = startOf p t.workdir := by
    simp only [startOf, Path.isAbsolute_join hnames p]
  rw [walk_eq_ok_iff, hsegments, hstart]

/-- A path with no name joined onto it ends in a slash, which asks for a directory. -/
theorem walk_join_nil_eq_ok_iff {p : Path} :
    t.walk follow (p.join (.ofNames [])) = .ok spot ↔
      checkText (p.join (.ofNames [])) = .ok () ∧
        t.Walks follow linkBudget (startOf p t.workdir) (p.steps ++ [trailing]) spot := by
  rw [walk_eq_ok_iff]
  refine and_congr_right fun htext => ?_
  have hlast := Path.getLast?_join_nil (checkText_eq_ok_iff.mp htext).2.1
  have hsegments : walkSegments (p.join (.ofNames [])) = p.steps ++ [trailing] := by
    rw [← Path.steps_join_nil p]
    simp [walkSegments, Path.steps, hlast]
  have hstart : startOf (p.join (.ofNames [])) t.workdir = startOf p t.workdir := by
    simp only [startOf, Path.isAbsolute_join (List.forall_mem_nil _) p]
  rw [hsegments, hstart]

/-! ### Names that lead over no link -/

/-- No link stands on the way down from a directory along some names, as far as a walk can get. -/
def Clear (t : FileTree) : Location → List Name → Prop
  | _, [] => True
  | here, n :: rest =>
    t.canSearch here = true → n.length ≤ nameLimit →
      (∀ target, t.lookup (here ++ [n]) ≠ some (.link target)) ∧ t.Clear (here ++ [n]) rest

/-- No link stands at or below a location. -/
def LinkFree (t : FileTree) (loc : Location) : Prop :=
  ∀ below target, t.lookup (loc ++ below) ≠ some (.link target)

/-- Where nothing was a link, nothing becomes one. -/
theorem LinkFree.grow {loc : Location} (h : t.LinkFree loc) (hg : t.GrowsInto t') :
    t'.LinkFree loc :=
  fun below target hl => h below target (hg.link.mp hl)

/-- Where no name can be looked up every way is clear. -/
theorem clear_of_not_canSearch {loc : Location} (h : t.canSearch loc ≠ true)
    (names : List Name) : t.Clear loc names := by
  cases names with
  | nil => trivial
  | cons n rest => exact fun hs => absurd hs h

/-- Below a link-free place every way is clear. -/
theorem LinkFree.clear {loc : Location} (h : t.LinkFree loc) (names : List Name) :
    t.Clear loc names := by
  induction names generalizing loc with
  | nil => trivial
  | cons n rest ih =>
    intro _ _
    refine ⟨h [n], ih fun below target => ?_⟩
    rw [List.append_assoc]
    exact h ([n] ++ below) target

/-- Below what is no directory there is nothing, and so no link. -/
theorem WellFormed.linkFree_below (hwf : t.WellFormed) {loc : Location}
    (h : ∀ m, t.lookup loc ≠ some (.directory m))
    (hl : ∀ target, t.lookup loc ≠ some (.link target)) : t.LinkFree loc := by
  intro below target htarget
  by_cases hne : below = []
  · subst hne
    rw [List.append_nil] at htarget
    exact hl target htarget
  · obtain ⟨m, hm⟩ := hwf.directory_of_lookup hne htarget
    exact h m hm

/-- A way that is clear stays clear while the tree grows. -/
theorem Clear.grow {names : List Name} (h : t.Clear D names) (hwf : t.WellFormed)
    (hg : t.GrowsInto t') (hD : ∃ m, t.lookup D = some (.directory m)) : t'.Clear D names := by
  induction names generalizing D with
  | nil => trivial
  | cons n rest ih =>
    intro hs hlen
    -- The directory is the old one with its old mode, so the walk could get here before.
    obtain ⟨m, hm⟩ := hD
    have hsearch : t.canSearch D = true := by
      simpa [FileTree.canSearch, hm, hg.directory hm] using hs
    obtain ⟨hnolink, hrest⟩ := h hsearch hlen
    refine ⟨fun target hl => hnolink target (hg.link.mp hl), ?_⟩
    by_cases hdir : ∃ m, t.lookup (D ++ [n]) = some (.directory m)
    · exact ih hrest hdir
    · exact ((hwf.linkFree_below (fun m hm => hdir ⟨m, hm⟩) hnolink).grow hg).clear rest

/-- Along a clear way a walk ends where the names say. It needs no link on the way and ends at
none. -/
theorem Walks.of_clear {names : List Name} (hnames : ∀ n ∈ names, IsName n)
    (hclear : t.Clear D names) (h : t.Walks follow k D names spot) :
    spot.loc = D ++ names ∧ t.Walks false 0 D names spot ∧
      (names ≠ [] → ∀ loc target, spot ≠ .node loc (.link target)) := by
  induction names generalizing D with
  | nil => cases h; exact ⟨by simp [Spot.loc], .here, fun hne => absurd rfl hne⟩
  | cons n rest ih =>
    have hn := hnames n List.mem_cons_self
    have hrest : ∀ m ∈ rest, IsName m := fun m hm => hnames m (List.mem_cons_of_mem _ hm)
    cases h with
    | stay hs => exact absurd hn.isStep hs.not_isStep
    | up => exact absurd rfl hn.ne_dotDot
    | @down _ _ _ _ _ m hs hseg hl hw =>
      obtain ⟨hloc, hwalks, hnolink⟩ := ih hrest (hclear hs hseg.length_le).2 hw
      refine ⟨by simpa using hloc, .down hs hseg hl hwalks, fun _ => ?_⟩
      -- The rest says that it ends at no link only if there is a rest.
      by_cases hne : rest = []
      · subst hne
        cases hw
        simp [hl]
      · exact hnolink hne
    | link hs hseg hl => exact absurd hl ((hclear hs hseg.length_le).1 _)
    | endVacant hs hseg hl => exact ⟨rfl, .endVacant hs hseg hl, by simp⟩
    | endFile hs hseg hl => exact ⟨rfl, .endFile hs hseg hl, by simp⟩
    | endLink hs hseg hl => exact absurd hl ((hclear hs hseg.length_le).1 _)

end FileTree
end ImageBuild
