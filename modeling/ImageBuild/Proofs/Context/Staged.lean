import ImageBuild.Context.Staged
import ImageBuild.Proofs.Tree.Change

/-!
# `ImageBuild.Proofs.Context.Staged`: storage that is made and dropped

Storage is made where nothing was (`makeStorage_cases`), so dropping it at once leaves the tree as
it was (`discard_storage`).

The read of standard input holds only the path of the storage and may outlive it. It then does
what it would have done before anything was staged, and a recipe that is stored by its path is
made anew: `recipe_survives_drop`. Nothing removes that file, for the staging that owned the path
is gone.
-/

set_option autoImplicit false

namespace ImageBuild.Context

open FileTree

variable {t t₁ : FileTree} {temporary p : Path}

/-! ### Making storage -/

/-- The last name of a path for storage. -/
theorem isName_storageName (part : StoredPart) (k : Nat) :
    IsName (Utf8.encode part.stem ++ suffix 6 k) := by
  have hstem : slash ∉ Utf8.encode part.stem ∧ 2 < (Utf8.encode part.stem).length := by
    cases part <;> decide +kernel
  have hletters : ∀ i, suffixLetters.getD i 0x30 ≠ slash := by
    intro i
    rw [List.getD_eq_getElem?_getD]
    cases hi : suffixLetters[i]? with
    | none => decide
    | some b =>
      have hall : ∀ b ∈ suffixLetters, b ≠ slash := by decide +kernel
      exact hall b (List.mem_of_getElem? hi)
  have hsuffix : ∀ digits k, slash ∉ suffix digits k := by
    intro digits
    induction digits with
    | zero => simp [suffix]
    | succ digits ih =>
      intro k
      rw [suffix, List.mem_append, List.mem_singleton, not_or]
      exact ⟨ih _, (hletters _).symm⟩
  have hlen : 2 < (Utf8.encode part.stem ++ suffix 6 k).length := by
    rw [List.length_append]; omega
  -- It is longer than `.` and `..`, which no name may be.
  refine ⟨?_, by simp [hstem.1, hsuffix], ?_, ?_⟩ <;>
    · intro heq
      rw [heq] at hlen
      simp [dot, dotDot] at hlen

/-- A path for storage does not end in a slash. -/
theorem getLast?_freshPath (part : StoredPart) (t : FileTree) (temporary : Path) :
    (part.freshPath t temporary).bytes.getLast? ≠ some slash := by
  obtain ⟨k, hk⟩ : ∃ k, part.freshPath t temporary = part.candidate t temporary k := by
    unfold StoredPart.freshPath
    dsimp only
    cases hfind : ((List.range (t.nodes.length + 1)).map (part.candidate t temporary)).find?
        fun p => !(t.find false p).isOk with
    | none => exact ⟨0, rfl⟩
    | some p =>
      obtain ⟨k, -, hk⟩ := List.mem_map.mp (List.mem_of_find?_eq_some hfind)
      exact ⟨k, hk.symm⟩
  have hnames : ∀ n ∈ [Utf8.encode part.stem ++ suffix 6 k], IsName n := by
    simpa using isName_storageName part k
  have hlast := Path.getLast?_join_ne_slash hnames (by simp)
    (Path.join ⟨slash :: (Path.ofNames t.workdir).bytes⟩ temporary)
  have hone (n : Name) : Path.ofNames [n] = ⟨n⟩ := by
    rw [Path.ofNames, List.intercalate_singleton]
  rw [hone] at hlast
  rw [hk]
  exact hlast

/-- A node as it is when storage for a part was made. -/
def IsNewStorage : StoredPart → Node → Prop
  | .contextDirectory, n => ∃ m, n = .directory m
  | .recipeFile, n => n = .file 0o600 []

/-- Storage is made at a vacant spot, or nothing is done. -/
theorem makeStorage_cases (t : FileTree) (temporary : Path) (part : StoredPart) :
    (∃ f, makeStorage t temporary part = (.error f, t)) ∨
    ∃ p dir name n, t.walk false p = .ok (.vacant dir name) ∧ t.canAlter dir = true ∧
      IsNewStorage part n ∧ t.Fits (dir ++ [name]) n ∧
      makeStorage t temporary part = (.ok p, t.set (dir ++ [name]) n) := by
  have hlast := getLast?_freshPath part t temporary
  -- A directory and a file are made by different calls, with the same outcomes.
  cases part with
  | contextDirectory =>
    unfold makeStorage makeDirectory
    dsimp only
    rw [withoutTrailingSlash_eq_self hlast]
    cases htext : checkText (StoredPart.contextDirectory.freshPath t temporary) with
    | error f => exact Or.inl ⟨_, rfl⟩
    | ok =>
      dsimp only
      rcases hwalk : t.walk false (StoredPart.contextDirectory.freshPath t temporary) with
        f | ⟨loc, n⟩ | ⟨dir, name⟩
      · exact Or.inl ⟨_, rfl⟩
      · exact Or.inl ⟨_, rfl⟩
      · by_cases halter : t.canAlter dir = true
        · simp only [if_pos halter]
          exact Or.inr ⟨_, dir, name, _, hwalk, halter, ⟨_, rfl⟩, .of_vacant hwalk rfl, rfl⟩
        · simp only [if_neg halter]
          exact Or.inl ⟨_, rfl⟩
  | recipeFile =>
    unfold makeStorage makeFile
    dsimp only
    rcases hwalk : t.walk false (StoredPart.recipeFile.freshPath t temporary) with
      f | ⟨loc, n⟩ | ⟨dir, name⟩
    · exact Or.inl ⟨_, rfl⟩
    · exact Or.inl ⟨_, rfl⟩
    · by_cases halter : t.canAlter dir = true
      · simp only [if_pos halter]
        exact Or.inr ⟨_, dir, name, _, hwalk, halter, rfl, .of_vacant hwalk rfl, rfl⟩
      · simp only [if_neg halter]
        exact Or.inl ⟨_, rfl⟩

/-- Storage that was made is a node at a spot that was vacant. -/
theorem makeStorage_eq_ok {part : StoredPart} (h : makeStorage t temporary part = (.ok p, t₁)) :
    ∃ dir name n, t.walk false p = .ok (.vacant dir name) ∧ t.canAlter dir = true ∧
      IsNewStorage part n ∧ t.Fits (dir ++ [name]) n ∧ t₁ = t.set (dir ++ [name]) n := by
  rcases makeStorage_cases t temporary part with
    ⟨f, heq⟩ | ⟨p', dir, name, n, hwalk, halter, hnew, hfits, heq⟩
  · rw [h] at heq
    cases heq
  · rw [h] at heq
    cases heq
    exact ⟨dir, name, n, hwalk, halter, hnew, hfits, rfl⟩

/-! ### Dropping it -/

/-- Dropping storage at once leaves the tree as it was. -/
theorem discard_storage {part : StoredPart} (hwf : t.WellFormed)
    (h : makeStorage t temporary part = (.ok p, t₁)) : discard t₁ p = t := by
  obtain ⟨dir, name, n, hwalk, halter, -, hfits, rfl⟩ := makeStorage_eq_ok h
  have hremove := (remove_of_made hwalk halter hfits.growsInto hfits.lookup_set_self).2
  unfold discard
  rw [hremove, erase_set_inside t (List.prefix_refl _)]
  exact hwf.erase_eq_self (walk_eq_ok_iff.mp hwalk).2.vacant.1

/-- A read of standard input that stores a recipe after its staging was dropped puts the file
back, with all that the stream holds. -/
theorem recipe_survives_drop (hwf : t.WellFormed)
    (h : makeStorage t temporary .recipeFile = (.ok p, t₁)) {s : Stream}
    (hs : s.broken = false) :
    ((StdinRead.recipe p).run (discard t₁ p) s).1 = .ok none ∧
      ((StdinRead.recipe p).run (discard t₁ p) s).2.contents p = .ok s.bytes := by
  -- The drop has brought back the tree from before the staging, where the spot is vacant and can
  -- be filled: nothing tells the read that the storage was once there.
  rw [discard_storage hwf h]
  obtain ⟨dir, name, -, hwalk, halter, -⟩ := makeStorage_eq_ok h
  obtain ⟨htext, hwalks⟩ := walk_eq_ok_iff.mp hwalk
  have hfollow := walk_eq_ok_iff.mpr ⟨htext, hwalks.follow_of_vacant⟩
  have hopen := openEmpty_of_vacant hfollow halter 0o666
  have hfits : t.Fits (dir ++ [name]) (.file (0o666 &&& ~~~umask) []) := .of_vacant hwalk rfl
  have hagain : (t.set (dir ++ [name]) _).Fits (dir ++ [name])
      (.file (0o666 &&& ~~~umask) s.bytes) := hfits.again
  have hrun : (StdinRead.recipe p).run t s = (.ok none,
      (t.set (dir ++ [name]) (.file (0o666 &&& ~~~umask) [])).set (dir ++ [name])
        (.file (0o666 &&& ~~~umask) s.bytes)) := by
    rw [← fill_eq hfits.lookup_set_self]
    unfold StdinRead.run fillRecipe
    dsimp only
    rw [hs, hopen]
    rfl
  rw [hrun]
  refine ⟨rfl, ?_⟩
  have hgrows := hfits.growsInto.trans hagain.growsInto
  have hfile := hwalks.follow_of_vacant.file_of_made hgrows hagain.lookup_set_self
  rw [← hgrows.workdir] at hfile
  unfold FileTree.contents find
  rw [walk_eq_ok_iff.mpr ⟨htext, hfile⟩]
  rfl

end ImageBuild.Context
