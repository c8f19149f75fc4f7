import ImageBuild.Proofs.Tree.Anchored
import ImageBuild.Proofs.Tree.Change
import Mathlib.Data.List.Induction

/-!
# `ImageBuild.Proofs.Tree.Making`: directories that can be made

Below a directory in which the process may make entries, the directories for a path of names are
made, however many of them are missing. `Receives` gathers what that takes of the destination,
`IsOpenWay` what it takes of the places along the names, and `MadeAlong` says what has changed in
the end: `Receives.createAncestors_eq`.

New directories get the usual mode, and the group bit of the directory around them (`madeMode`).
Entries can be made in them again, which is why the names can be as many as they like.
-/

set_option autoImplicit false

namespace ImageBuild.FileTree

variable {t t' : FileTree} {destination : Path} {D : Location} {m : Mode}
  {names front : List Name}
  {n : Name}

/-! ### Walks along directories -/

/-- From where a walk has arrived it goes on as from the start, also to a fault. -/
theorem Arrives.walkFrom_eq {k k' : Nat} {here : Location} {a b : List Bytes} {follow : Bool}
    (h : t.Arrives k here a k' D) (hne : b ≠ []) :
    t.walkFrom follow k here (a ++ b) = t.walkFrom follow k' D b := by
  -- The rules are those of an arriving walk, and the walk does the same step with `b` behind it.
  induction h with
  | here => rfl
  | stay hs _ ih =>
    rw [← ih, List.cons_append, FileTree.walkFrom]
    cases hs with
    | dot hs =>
      have hdot : dot ≠ trailing := by decide
      simp [hs, hdot]
    | trailing hd => simp [hd]
  | up hs _ ih =>
    have hdots : dotDot ≠ dot := by decide
    have htrailing : dotDot ≠ trailing := by decide
    rw [← ih, List.cons_append, FileTree.walkFrom]
    simp [hs, hdots, htrailing]
  | down hs hseg hl _ ih =>
    rw [← ih, List.cons_append, FileTree.walkFrom]
    simp [hs, hseg.ne_trailing, hseg.ne_dot, hseg.ne_dotDot, Nat.not_lt.mpr hseg.length_le, hl]
  | link hs hseg hl _ ih =>
    rw [← ih, List.append_assoc, List.cons_append, FileTree.walkFrom]
    simp [hs, hseg.ne_trailing, hseg.ne_dot, hseg.ne_dotDot, Nat.not_lt.mpr hseg.length_le,
      hl, hne]

/-- A path with names joined onto it is walked along its own segments and then along the names. -/
theorem walk_join_eq (hnames : ∀ n ∈ names, IsName n) (hne : names ≠ [])
    (htext : checkText (destination.join (.ofNames names)) = .ok ()) (follow : Bool) :
    t.walk follow (destination.join (.ofNames names)) =
      t.walkFrom follow linkBudget (startOf destination t.workdir)
      (destination.steps ++ names) := by
  have hlast := Path.getLast?_join_ne_slash hnames hne destination
  have hsegments : walkSegments (destination.join (.ofNames names)) =
      destination.steps ++ names := by
    rw [← Path.steps_join hnames hne destination]
    simp [walkSegments, Path.steps, hlast]
  unfold FileTree.walk
  rw [htext, hsegments]
  simp only [bind, Except.bind, startOf, Path.isAbsolute_join hnames destination]

/-- A walk along dots stays where it is. -/
theorem Walks.of_dots {k : Nat} {here : Location} {dots : List Bytes} {follow : Bool}
    {spot : Spot} (hdots : ∀ s ∈ dots, s = dot) (h : t.Walks follow k here dots spot) :
      spot.loc = here := by
  induction dots with
  | nil => cases h; rfl
  | cons s rest ih =>
    obtain rfl := hdots s List.mem_cons_self
    cases h with
    | stay _ hrest => exact ih (fun s hs => hdots s (List.mem_cons_of_mem _ hs)) hrest
    | down _ hseg | link _ hseg | endVacant _ hseg | endFile _ hseg | endLink _ hseg =>
      exact absurd rfl hseg.ne_dot

/-- Dots at the end are not needed to arrive somewhere. -/
theorem Arrives.of_append_dots {k k' : Nat} {here : Location} {a dots : List Bytes}
    (hdots : ∀ s ∈ dots, s = dot) (h : t.Arrives k here (a ++ dots) k' D) :
    ∃ k₁, t.Arrives k here a k₁ D := by
  by_cases hne : dots = []
  · subst hne
    rw [List.append_nil] at h
    exact ⟨k', h⟩
  · obtain ⟨k₁, D₁, harr, hrest⟩ := (walks_append_iff hne).mp h.walks_end
    obtain rfl : D = D₁ := hrest.of_dots hdots
    exact ⟨k₁, harr⟩

/-- Above a path with one name is the directory that the name is in, or nothing is left of the
path. -/
theorem isDirectory_parent (hD : t.directoryAt? destination = some D) (hn : IsName n)
    (htext : checkText (destination.join (.ofNames [n])) = .ok ()) :
    ∃ up, (destination.join (.ofNames [n])).parent? = some up ∧
      (up = ⟨[]⟩ ∨ t.isDirectory up = true) := by
  cases hempty : destination.isEmpty with
  | true =>
    obtain ⟨bytes⟩ := destination
    obtain rfl : bytes = [] := by simpa [Path.isEmpty] using hempty
    have hsegments : (Path.join ⟨[]⟩ (.ofNames [n])).segments = [n] :=
      Path.segments_join (by simpa using hn) (by simp) ⟨[]⟩
    refine ⟨⟨[]⟩, ?_, Or.inl rfl⟩
    unfold Path.parent?
    rw [hsegments]
    simp [Path.trimSegments, hn.ne_nil]
  | false =>
    obtain ⟨up, hup, hupempty, habs, hbytes, dots, hdots, hsteps⟩ :=
      Path.parent?_join_single hn hempty
    obtain ⟨⟨k, harr⟩, hdir⟩ := directoryAt?_eq_some_iff.mp hD
    rw [hsteps, startOf, ← habs, ← startOf] at harr
    have hup' := directoryAt?_eq_some_iff.mpr ⟨harr.of_append_dots hdots, hdir⟩
    exact ⟨up, hup, Or.inr
      (isDirectory_of_directoryAt? (checkText_of_longer htext hupempty hbytes) hup')⟩

/-! ### Directories below a destination -/

/-- The mode of a directory that is made in one with this mode. -/
def madeMode (m : Mode) : Mode := (0o777 &&& ~~~umask) ||| (m &&& groupBit)

/-- The group bit is handed on and on. -/
theorem madeMode_madeMode (m : Mode) : madeMode (madeMode m) = madeMode m := by
  have hnone : ((0o777 : Mode) &&& ~~~umask) &&& groupBit = 0 := by decide
  have hself : m &&& groupBit &&& groupBit = m &&& groupBit := by
    rw [BitVec.and_assoc, BitVec.and_self]
  have hbit : madeMode m &&& groupBit = m &&& groupBit := by
    unfold madeMode
    rw [BitVec.and_or_distrib_right, hnone, hself]
    exact BitVec.zero_or
  rw [madeMode, hbit]
  rfl

/-- The owner has every right on a directory that is made. -/
theorem owned_madeMode (m : Mode) :
    (Node.directory (madeMode m)).executable = true ∧
    (Node.directory (madeMode m)).writable = true := by
  have hrun : ((0o777 : Mode) &&& ~~~umask).getLsbD 6 = true := by decide
  have hwrite : ((0o777 : Mode) &&& ~~~umask).getLsbD 7 = true := by decide
  unfold Node.executable Node.writable Node.mode madeMode
  rw [BitVec.getLsbD_or, BitVec.getLsbD_or, hrun, hwrite]
  exact ⟨rfl, rfl⟩

/-- The destination denotes a directory in which entries can be made. -/
structure Receives (t : FileTree) (destination : Path) (D : Location) (m : Mode) : Prop where
  denotes : t.directoryAt? destination = some D
  directory : t.lookup D = some (.directory m)
  alterable : t.canAlter D = true

/-- The place is the directory itself, or a directory that was made in it. -/
def IsMade (t : FileTree) (D : Location) (m : Mode) (names : List Name) : Prop :=
  names = [] ∨ t.lookup (D ++ names) = some (.directory (madeMode m))

/-- Each place on the way down along the names is vacant, or a directory was made there. -/
def IsOpenWay (t : FileTree) (D : Location) (m : Mode) (names : List Name) : Prop :=
  ∀ first more : List Name, names = first ++ more → first ≠ [] →
    t.lookup (D ++ first) = none ∨ t.IsMade D m first

/-- The first part of an open way is one. -/
theorem IsOpenWay.of_append {more : List Name} (h : t.IsOpenWay D m (front ++ more)) :
    t.IsOpenWay D m front :=
  fun first rest heq hne => h first (rest ++ more) (by simp [heq]) hne

/-- Names that can be looked up below a destination: the text that they make with it can be
walked, and each of them is a name of a length that a directory can hold. -/
structure AreWalkable (destination : Path) (names : List Name) : Prop where
  isName : ∀ n ∈ names, IsName n
  length_le : ∀ n ∈ names, n.length ≤ nameLimit
  text : names ≠ [] → checkText (destination.join (.ofNames names)) = .ok ()

/-- The first of walkable names are walkable. -/
theorem AreWalkable.of_append {more : List Name} (h : AreWalkable destination (front ++ more)) :
    AreWalkable destination front where
  isName n hn := h.isName n (List.mem_append_left _ hn)
  length_le n hn := h.length_le n (List.mem_append_left _ hn)
  text hne := by
    have hfront : ∀ n ∈ front, IsName n := fun n hn => h.isName n (List.mem_append_left _ hn)
    exact checkText_of_longer (h.text (by simp [hne])) (Path.isEmpty_join hfront hne destination)
      (Path.bytes_join_prefix hfront (fun n hn => h.isName n (List.mem_append_right _ hn))
        destination)

namespace Receives

/-- Where a directory was made, more can be made. -/
theorem canAlter (h : t.Receives destination D m) (hmade : t.IsMade D m names) :
    t.canAlter (D ++ names) = true := by
  rcases hmade with rfl | hmade
  · rw [List.append_nil]
    exact h.alterable
  · obtain ⟨hrun, hwrite⟩ := owned_madeMode m
    unfold FileTree.canAlter
    rw [hmade]
    simp [Node.isDirectory, hrun, hwrite]

/-- Directories that were made can be searched. -/
theorem canSearch (h : t.Receives destination D m) (hmade : t.IsMade D m names) :
    t.canSearch (D ++ names) = true := by
  have halter := h.canAlter hmade
  unfold FileTree.canAlter at halter
  unfold FileTree.canSearch
  split at halter
  · next hl =>
    simp only [Bool.and_eq_true] at halter ⊢
    exact halter.1
  · cases halter

/-- New directories are made with one mode. -/
theorem newDirectoryMode_eq (h : t.Receives destination D m) (hmade : t.IsMade D m names) :
    t.newDirectoryMode (D ++ names) 0o777 = madeMode m := by
  rcases hmade with rfl | hmade
  · rw [List.append_nil]
    unfold newDirectoryMode
    rw [h.directory]
    rfl
  · rw [← madeMode_madeMode m]
    unfold newDirectoryMode
    rw [hmade]
    rfl

/-- What is made at the place above is there if anything is at the place. -/
theorem isMade_of_concat (hwf : t.WellFormed) (hway : t.IsOpenWay D m (front ++ [n]))
    (hn : t.lookup (D ++ (front ++ [n])) ≠ none) : t.IsMade D m front := by
  by_cases hne : front = []
  · exact Or.inl hne
  · refine (hway front [n] rfl hne).resolve_left fun hnone => ?_
    obtain ⟨node, hnode⟩ := Option.ne_none_iff_exists'.mp hn
    rw [← List.append_assoc] at hnode
    obtain ⟨mode, hparent⟩ := hwf.parent hnode
    rw [hnone] at hparent
    cases hparent

/-- A walk arrives at every directory that was made. -/
theorem arrives (h : t.Receives destination D m) (hwf : t.WellFormed)
    (hnames : AreWalkable destination names) (hway : t.IsOpenWay D m names)
    (hmade : t.IsMade D m names) :
    ∃ k, t.Arrives linkBudget (startOf destination t.workdir) (destination.steps ++ names) k
      (D ++ names) := by
  -- On the last name. The place above it was made too, since the tree is well-formed.
  induction names using List.reverseRecOn with
  | nil =>
    obtain ⟨⟨k, harr⟩, -⟩ := directoryAt?_eq_some_iff.mp h.denotes
    exact ⟨k, by simpa using harr⟩
  | append_singleton front n ih =>
    have hdir := hmade.resolve_left (by simp)
    have habove := isMade_of_concat hwf hway (by rw [hdir]; simp)
    obtain ⟨k, harr⟩ := ih hnames.of_append hway.of_append habove
    have hn := hnames.isName n (by simp)
    have hseg : IsLookedUp n := isLookedUp_of_isName hn (hnames.length_le n (by simp))
    have hlast := Arrives.down (k := k) (h.canSearch habove) hseg
      (by rw [List.append_assoc]; exact hdir) .here
    have hall := harr.append hlast
    rw [List.append_assoc, List.append_assoc] at hall
    exact ⟨k, hall⟩

/-- What a walk finds behind a directory that was made. -/
theorem walk_eq (h : t.Receives destination D m) (hwf : t.WellFormed) {rest : List Name}
    (hnames : AreWalkable destination (front ++ n :: rest)) (hway : t.IsOpenWay D m front)
    (hmade : t.IsMade D m front) (hvacant : t.lookup (D ++ (front ++ [n])) = none)
    (follow : Bool) :
    t.walk follow (destination.join (.ofNames (front ++ n :: rest))) =
      if rest = [] then .ok (.vacant (D ++ front) n) else .error .notFound := by
  obtain ⟨k, harr⟩ := h.arrives hwf hnames.of_append hway hmade
  have hn := hnames.isName n (by simp)
  have hlen := hnames.length_le n (by simp)
  have htrailing : n ≠ trailing := (isLookedUp_of_isName hn hlen).ne_trailing
  rw [walk_join_eq hnames.isName (by simp) (hnames.text (by simp)), ← List.append_assoc,
    harr.walkFrom_eq (by simp), FileTree.walkFrom, List.append_assoc, hvacant]
  simp [h.canSearch hmade, hn.ne_dot, hn.ne_dotDot, htrailing, Nat.not_lt.mpr hlen]

/-- A directory that was made is found. -/
theorem walk_of_made (h : t.Receives destination D m) (hwf : t.WellFormed)
    (hnames : AreWalkable destination names) (hway : t.IsOpenWay D m names) (hne : names ≠ [])
    (hmade : t.IsMade D m names) (follow : Bool) :
    t.walk follow (destination.join (.ofNames names)) =
      .ok (.node (D ++ names) (.directory (madeMode m))) := by
  obtain ⟨front, n, rfl⟩ : ∃ front n, names = front ++ [n] :=
    ⟨_, _, (List.dropLast_concat_getLast hne).symm⟩
  have hdir := hmade.resolve_left (by simp)
  have habove := isMade_of_concat hwf hway (by rw [hdir]; simp)
  obtain ⟨k, harr⟩ := h.arrives hwf hnames.of_append hway.of_append habove
  have hn := hnames.isName n (by simp)
  have hlen := hnames.length_le n (by simp)
  have htrailing : n ≠ trailing := (isLookedUp_of_isName hn hlen).ne_trailing
  rw [walk_join_eq hnames.isName hne (hnames.text hne), ← List.append_assoc,
    harr.walkFrom_eq (by simp), FileTree.walkFrom, List.append_assoc, hdir]
  simp [h.canSearch habove, hn.ne_dot, hn.ne_dotDot, htrailing, Nat.not_lt.mpr hlen,
    FileTree.walkFrom, hdir]

end Receives

/-! ### Making them -/

/-- Directories were made along the names, at each place where nothing was, and nothing else
changed. -/
structure MadeAlong (D : Location) (m : Mode) (names : List Name) (t t' : FileTree) : Prop where
  wellFormed : t'.WellFormed
  grows : t.GrowsInto t'
  made : ∀ first more : List Name, names = first ++ more → first ≠ [] →
    t.lookup (D ++ first) = none → t'.lookup (D ++ first) = some (.directory (madeMode m))
  kept : ∀ loc : Location, t.lookup loc ≠ none ∨
    (∀ first more : List Name, names = first ++ more → first ≠ [] → loc ≠ D ++ first) →
    t'.lookup loc = t.lookup loc

namespace MadeAlong

/-- If a directory was made at the end of the names already, nothing remains to be made. -/
theorem refl (hwf : t.WellFormed) (hway : t.IsOpenWay D m names) (hmade : t.IsMade D m names) :
    MadeAlong D m names t t where
  wellFormed := hwf
  grows := .refl t
  made first more heq hne hnone := by
    -- What is above a directory is there.
    subst heq
    have hlast := hmade.resolve_left (by simp [hne])
    by_cases hmore : more = []
    · subst hmore
      rw [List.append_nil, hnone] at hlast
      cases hlast
    · rw [← List.append_assoc] at hlast
      obtain ⟨mode, hdir⟩ := hwf.directory_of_lookup hmore hlast
      rw [hnone] at hdir
      cases hdir
  kept _ _ := rfl

/-- What was made can be reached now. -/
theorem isMade (h : MadeAlong D m names t t') (hway : t.IsOpenWay D m names) :
    t'.IsMade D m names := by
  by_cases hne : names = []
  · exact Or.inl hne
  · rcases hway names [] (by simp) hne with hnone | hmade
    · exact Or.inr (h.made names [] (by simp) hne hnone)
    · exact Or.inr (h.grows.directory (hmade.resolve_left hne))

/-- A way along which directories were made is still open. -/
theorem isOpenWay (h : MadeAlong D m names t t') (hway : t.IsOpenWay D m names) :
    t'.IsOpenWay D m names := by
  intro first more heq hne
  rcases hway first more heq hne with hnone | hmade
  · exact Or.inr (Or.inr (h.made first more heq hne hnone))
  · exact Or.inr (Or.inr (h.grows.directory (hmade.resolve_left hne)))

/-- Nothing is made beyond the last of the names. -/
theorem lookup_concat (h : MadeAlong D m front t t') (n : Name) :
    t'.lookup (D ++ (front ++ [n])) = t.lookup (D ++ (front ++ [n])) := by
  refine h.kept _ (Or.inr fun first more heq _ hloc => ?_)
  have hlen := congrArg List.length hloc
  simp only [heq, List.length_append, List.length_singleton] at hlen
  omega

/-- Making one more directory, where nothing is yet. -/
theorem concat (h : MadeAlong D m front t t') (hvacant : t.lookup (D ++ (front ++ [n])) = none)
    (hfits : t'.Fits (D ++ (front ++ [n])) (.directory (madeMode m))) :
    MadeAlong D m (front ++ [n]) t (t'.set (D ++ (front ++ [n])) (.directory (madeMode m))) where
  wellFormed := hfits.wellFormed h.wellFormed
  grows := h.grows.trans hfits.growsInto
  made first more heq hne hnone := by
    by_cases hlast : first = front ++ [n]
    · rw [hlast]
      exact hfits.lookup_set_self
    · rw [hfits.lookup_set_ne (by simpa using hlast)]
      -- A leading part that is not all of the names is one of those before.
      rcases List.eq_nil_or_concat more with rfl | ⟨rest, last, rfl⟩
      · exact absurd (by simpa using heq.symm) hlast
      · rw [List.concat_eq_append, ← List.append_assoc] at heq
        exact h.made first rest (List.append_inj' heq rfl).1 hne hnone
  kept loc hloc := by
    have hne : loc ≠ D ++ (front ++ [n]) := by
      rintro rfl
      rcases hloc with hloc | hloc
      · exact hloc hvacant
      · exact hloc (front ++ [n]) [] (by simp) (by simp) rfl
    rw [hfits.lookup_set_ne hne]
    exact h.kept loc (hloc.imp_right fun hloc first more heq =>
      hloc first (more ++ [n]) (by simp [heq]))

end MadeAlong

namespace Receives

/-- A destination keeps receiving as the tree grows. -/
theorem grow (h : t.Receives destination D m) (hg : t.GrowsInto t') :
    t'.Receives destination D m where
  denotes := hg.directoryAt? h.denotes
  directory := hg.directory h.directory
  alterable := by
    have halter := h.alterable
    unfold FileTree.canAlter at halter ⊢
    rw [h.directory] at halter
    rw [hg.directory h.directory]
    exact halter

variable (h : t.Receives destination D m) (hwf : t.WellFormed)
include h hwf

/-- Making a directory where nothing is, in one that was made. -/
theorem makeOrKeep_vacant (hnames : AreWalkable destination (front ++ [n]))
    (hway : t.IsOpenWay D m front) (hmade : t.IsMade D m front)
    (hvacant : t.lookup (D ++ (front ++ [n])) = none) :
    t.Fits (D ++ (front ++ [n])) (.directory (madeMode m)) ∧
      t.makeOrKeep (destination.join (.ofNames (front ++ [n]))) =
        (.ok (), t.set (D ++ (front ++ [n])) (.directory (madeMode m))) := by
  have hlast := Path.getLast?_join_ne_slash hnames.isName (by simp) destination
  have hwalk := h.walk_eq hwf hnames hway hmade hvacant false
  rw [if_pos rfl] at hwalk
  refine ⟨by rw [← List.append_assoc]; exact .of_vacant hwalk rfl, ?_⟩
  unfold makeOrKeep makeDirectory
  rw [hnames.text (by simp), withoutTrailingSlash_eq_self hlast, hwalk]
  dsimp only
  rw [if_pos (h.canAlter hmade), h.newDirectoryMode_eq hmade, List.append_assoc]

/-- A directory that was made is kept. -/
theorem makeOrKeep_made (hnames : AreWalkable destination names) (hway : t.IsOpenWay D m names)
    (hne : names ≠ []) (hmade : t.IsMade D m names) :
    t.makeOrKeep (destination.join (.ofNames names)) = (.ok (), t) := by
  have hlast := Path.getLast?_join_ne_slash hnames.isName hne destination
  have hwalk := fun follow => h.walk_of_made hwf hnames hway hne hmade follow
  have hdir : t.isDirectory (destination.join (.ofNames names)) = true := by
    unfold isDirectory find
    rw [hwalk true]
    rfl
  unfold makeOrKeep makeDirectory
  rw [hnames.text hne, withoutTrailingSlash_eq_self hlast, hwalk false]
  dsimp only
  rw [if_pos hdir]

/-- A walk does not get to what is below something missing. -/
theorem walk_missing (hnames : AreWalkable destination (front ++ [n]))
    (hway : t.IsOpenWay D m front) (hmissing : ¬ t.IsMade D m front) (follow : Bool) :
    t.walk follow (destination.join (.ofNames (front ++ [n]))) = .error .notFound := by
  -- The walk stops behind the last directory that is there.
  have hstop : ∃ first next rest, front = first ++ next :: rest ∧ t.IsMade D m first ∧
      t.lookup (D ++ (first ++ [next])) = none := by
    clear hnames
    induction front using List.reverseRecOn with
    | nil => exact absurd (Or.inl rfl) hmissing
    | append_singleton init x ih =>
      by_cases hinit : t.IsMade D m init
      · have hnone := (hway (init ++ [x]) [] (by simp) (by simp)).resolve_right hmissing
        exact ⟨init, x, [], rfl, hinit, hnone⟩
      · obtain ⟨first, next, rest, rfl, hfirst, hnone⟩ := ih hway.of_append hinit
        exact ⟨first, next, rest ++ [x], by simp, hfirst, hnone⟩
  obtain ⟨first, next, rest, rfl, hfirst, hnone⟩ := hstop
  rw [List.append_assoc, List.cons_append] at hnames ⊢
  have hwalk := h.walk_eq hwf hnames hway.of_append hfirst hnone follow
  rwa [if_neg (by simp)] at hwalk

/-- Where nothing is, nothing is found. -/
theorem pathExists_of_vacant (hnames : AreWalkable destination (front ++ [n]))
    (hway : t.IsOpenWay D m front) (hvacant : t.lookup (D ++ (front ++ [n])) = none) :
    t.pathExists (destination.join (.ofNames (front ++ [n]))) = false := by
  unfold pathExists find
  by_cases hmade : t.IsMade D m front
  · rw [h.walk_eq hwf hnames hway hmade hvacant, if_pos rfl]
    rfl
  · rw [h.walk_missing hwf hnames hway hmade]
    rfl

/-- Below what is missing nothing is made at once. -/
theorem makeOrKeep_missing (hnames : AreWalkable destination (front ++ [n]))
    (hway : t.IsOpenWay D m front) (hmissing : ¬ t.IsMade D m front) :
    t.makeOrKeep (destination.join (.ofNames (front ++ [n]))) = (.error .notFound, t) := by
  have hlast := Path.getLast?_join_ne_slash hnames.isName (by simp) destination
  have hwalk := h.walk_missing hwf hnames hway hmissing
  have hnodir : t.isDirectory (destination.join (.ofNames (front ++ [n]))) = false := by
    unfold isDirectory find
    rw [hwalk true]
    rfl
  unfold makeOrKeep makeDirectory
  rw [hnames.text (by simp), withoutTrailingSlash_eq_self hlast, hwalk false]
  dsimp only
  rw [hnodir]
  rfl

/-- All directories along the names are made, if each place on the way is vacant or was made
before. -/
theorem createAncestors_eq (hnames : AreWalkable destination names) (hway : t.IsOpenWay D m names)
    (hne : names ≠ []) {depth : Nat} (hdepth : names.length ≤ depth) :
    ∃ t', createAncestors depth t (destination.join (.ofNames names)) = (.ok (), t') ∧
      MadeAlong D m names t t' := by
  -- On the last name: what is above it is made first, if it is missing.
  induction names using List.reverseRecOn generalizing depth with
  | nil => exact absurd rfl hne
  | append_singleton front n ih =>
    have hempty := Path.isEmpty_join hnames.isName hne destination
    by_cases hthere : t.lookup (D ++ (front ++ [n])) = none
    · by_cases habove : t.IsMade D m front
      · -- Only the last directory is missing.
        obtain ⟨hfits, hmake⟩ := h.makeOrKeep_vacant hwf hnames hway.of_append habove hthere
        refine ⟨_, ?_, (MadeAlong.refl hwf hway.of_append habove).concat hthere hfits⟩
        cases depth <;> simp [createAncestors, hempty, hmake]
      · have hfront : front ≠ [] := fun heq => habove (Or.inl heq)
        obtain ⟨depth, rfl⟩ : ∃ d, depth = d + 1 := ⟨depth - 1, by
          rw [List.length_append, List.length_singleton] at hdepth; omega⟩
        have hfirst := h.makeOrKeep_missing hwf hnames hway.of_append habove
        have hparent := Path.parent?_join hfront hnames.of_append.isName
          (hnames.isName n (by simp)) destination
        have hdepth₁ : front.length ≤ depth := by
          rw [List.length_append, List.length_singleton] at hdepth
          omega
        obtain ⟨t₁, hmake₁, hmade₁⟩ := ih hnames.of_append hway.of_append hfront hdepth₁
        -- The last name is as vacant as before, and the directory for it is there now.
        have hthere₁ : t₁.lookup (D ++ (front ++ [n])) = none :=
          (hmade₁.lookup_concat n).trans hthere
        obtain ⟨hfits, hmake⟩ := (h.grow hmade₁.grows).makeOrKeep_vacant hmade₁.wellFormed hnames
          (hmade₁.isOpenWay hway.of_append) (hmade₁.isMade hway.of_append) hthere₁
        refine ⟨_, ?_, hmade₁.concat hthere hfits⟩
        simp [createAncestors, hempty, hfirst, hparent, hmake₁, hmake]
    · have hmade := (hway (front ++ [n]) [] (by simp) hne).resolve_left hthere
      have hkeep := h.makeOrKeep_made hwf hnames hway hne hmade
      refine ⟨t, ?_, .refl hwf hway hmade⟩
      cases depth <;> simp [createAncestors, hempty, hkeep]

/-- Along an open way all directories are made. -/
theorem createAll_eq (hnames : AreWalkable destination names) (hway : t.IsOpenWay D m names)
    (hne : names ≠ []) :
    ∃ t', t.createAll (destination.join (.ofNames names)) = (.ok (), t') ∧
      MadeAlong D m names t t' := by
  refine h.createAncestors_eq hwf hnames hway hne ?_
  rw [Path.components_join hnames.isName hne, List.length_append, List.length_map]
  omega

/-- The directories above a name are made. Above a single name there is the destination itself. -/
theorem createParent_eq (hnames : AreWalkable destination (front ++ [n]))
    (hway : t.IsOpenWay D m front) :
    ∃ up t', (destination.join (.ofNames (front ++ [n]))).parent? = some up ∧
      t.createAll up = (.ok (), t') ∧ MadeAlong D m front t t' := by
  have hn := hnames.isName n (by simp)
  by_cases hfront : front = []
  · subst hfront
    obtain ⟨up, hup, hthere⟩ := isDirectory_parent h.denotes hn (hnames.text (by simp))
    refine ⟨up, t, hup, ?_, .refl hwf hway (Or.inl rfl)⟩
    rcases hthere with rfl | hdir
    · exact t.createAll_of_isEmpty rfl
    · exact createAll_of_isDirectory hdir
  · obtain ⟨t', hcreate, hmade⟩ := h.createAll_eq hwf hnames.of_append hway hfront
    exact ⟨_, t', Path.parent?_join hfront hnames.of_append.isName hn destination, hcreate, hmade⟩

end Receives

end ImageBuild.FileTree
