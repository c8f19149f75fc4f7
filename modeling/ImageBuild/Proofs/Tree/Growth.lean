import ImageBuild.Tree.Change

/-!
# `ImageBuild.Proofs.Tree.Growth`: well-formed trees, and trees that only grow

`FileTree.WellFormed` is what every tree of a file system has: what is not at the root is in a
directory, and no link's target holds a NUL byte. It can be decided, since a tree is a finite list
of nodes.

`FileTree.GrowsInto` relates a tree to one in which more was made and files were filled:
directories and links stay as they are, files stay files, and no link appears. Everything that
this library does to a tree, short of removing storage, is such a growth
(`growsInto_set_directory`, `growsInto_set_file`), and a growth leads every path that led to a
directory to the same directory (`Arrives.grow` in `ImageBuild.Proofs.Tree.Walk`).

A tree can hold its nodes in any order. `FileTree.Same` says of two trees that they have the same
nodes.
-/

set_option autoImplicit false

namespace ImageBuild.FileTree

variable {t t' : FileTree}

/-! ### Well-formed trees -/

/-- What every tree of a file system has. -/
structure WellFormed (t : FileTree) : Prop where
  /-- What has a name is in a directory. -/
  parent : ∀ {loc : Location} {name : Name} {n : Node}, t.lookup (loc ++ [name]) = some n →
    ∃ m, t.lookup loc = some (.directory m)
  /-- No link's target holds a NUL byte. -/
  target : ∀ {loc : Location} {target : Path}, t.lookup loc = some (.link target) →
    target.hasNul = false

/-- What `WellFormed` asks at one location. -/
def wellFormedAt (t : FileTree) (loc : Location) : Bool :=
  (match t.lookup loc.dropLast with
    | some n => n.isDirectory
    | none => false) &&
  (match t.lookup loc with
    | some (.link target) => !target.hasNul
    | _ => true)

/-- What is below the root stands in the list of nodes. -/
theorem mem_nodes_of_lookup {loc : Location} {n : Node} (hne : loc ≠ [])
    (h : t.lookup loc = some n) : (loc, n) ∈ t.nodes := by
  cases loc with
  | nil => exact absurd rfl hne
  | cons name rest =>
    obtain ⟨⟨at', n'⟩, hfind, hn⟩ := Option.map_eq_some_iff.mp h
    have hat : at' = name :: rest := by simpa using List.find?_some hfind
    subst hat hn
    exact List.mem_of_find?_eq_some hfind

/-- Where an entry stands something is found. -/
theorem exists_lookup_of_mem_nodes {entry : Location × Node} (h : entry ∈ t.nodes) :
    ∃ n, t.lookup entry.1 = some n := by
  obtain ⟨loc, n⟩ := entry
  cases loc with
  | nil => exact ⟨_, rfl⟩
  | cons name rest =>
    have hsome : (t.nodes.find? fun e => e.1 == name :: rest).isSome := by
      rw [List.find?_isSome]
      exact ⟨_, h, by simp⟩
    obtain ⟨found, hfound⟩ := Option.isSome_iff_exists.mp hsome
    exact ⟨found.2, by simp [lookup, hfound]⟩

/-- What is there is in a directory; the root is its own. -/
theorem WellFormed.directory_dropLast (h : t.WellFormed) {loc : Location} {n : Node}
    (hn : t.lookup loc = some n) : ∃ m, t.lookup loc.dropLast = some (.directory m) := by
  rcases List.eq_nil_or_concat loc with rfl | ⟨front, name, rfl⟩
  · exact ⟨_, rfl⟩
  · rw [List.concat_eq_append] at hn ⊢
    rw [List.dropLast_concat]
    exact h.parent hn

/-- A tree is well formed when it is at each of its entries. -/
theorem wellFormed_iff : t.WellFormed ↔ ∀ entry ∈ t.nodes, t.wellFormedAt entry.1 = true := by
  constructor
  · intro h entry hentry
    obtain ⟨n, hn⟩ := exists_lookup_of_mem_nodes hentry
    generalize entry.1 = loc at hn
    obtain ⟨m, hm⟩ := h.directory_dropLast hn
    unfold wellFormedAt
    rw [hm, hn]
    cases n with
    | directory | file => simp [Node.isDirectory]
    | link target => simp [Node.isDirectory, h.target hn]
  · intro h
    -- The check goes over the entries, and what is looked up is one of them.
    have key : ∀ {loc : Location} {n : Node}, loc ≠ [] → t.lookup loc = some n →
        t.wellFormedAt loc = true := fun hne hn => h _ (mem_nodes_of_lookup hne hn)
    refine ⟨?_, ?_⟩
    · intro loc name n hn
      have hat := key (by simp) hn
      unfold wellFormedAt at hat
      rw [List.dropLast_concat] at hat
      rcases hlookup : t.lookup loc with _ | (m | _ | _)
      · simp [hlookup] at hat
      · exact ⟨m, rfl⟩
      all_goals simp [hlookup, Node.isDirectory] at hat
    · intro loc target hn
      have hne : loc ≠ [] := by rintro rfl; simp at hn
      have hat := key hne hn
      simp only [wellFormedAt, hn, Bool.and_eq_true, Bool.not_eq_true'] at hat
      exact hat.2

instance (t : FileTree) : Decidable t.WellFormed := decidable_of_iff _ wellFormed_iff.symm

/-- Above every node of a well-formed tree there are directories. -/
theorem WellFormed.directory_of_lookup (h : t.WellFormed) {loc : Location} {below : List Name}
    {n : Node} (hne : below ≠ []) (hn : t.lookup (loc ++ below) = some n) :
    ∃ m, t.lookup loc = some (.directory m) := by
  induction below generalizing loc with
  | nil => exact absurd rfl hne
  | cons name rest ih =>
    cases rest with
    | nil => exact h.parent hn
    | cons second more =>
      rw [List.append_cons] at hn
      obtain ⟨m, hm⟩ := ih (by simp) hn
      exact h.parent hm

/-- A well-formed tree stays well-formed when something other than a link is put into a directory,
unless that replaces a directory. -/
theorem WellFormed.set (h : t.WellFormed) {dir : Location} {name : Name} {n : Node}
    (hdir : ∃ m, t.lookup dir = some (.directory m))
    (hold : ∀ m, t.lookup (dir ++ [name]) ≠ some (.directory m))
    (hnew : ∀ target, n ≠ .link target) : (t.set (dir ++ [name]) n).WellFormed := by
  have hset := lookup_set t (dir ++ [name]) n (by simp)
  -- Whatever was a parent still is one, for what is replaced was no directory.
  have keep : ∀ {loc m}, t.lookup loc = some (.directory m) →
      (t.set (dir ++ [name]) n).lookup loc = some (.directory m) := by
    intro loc m hm
    rw [hset, if_neg (by rintro rfl; exact hold m hm)]
    exact hm
  refine ⟨?_, ?_⟩
  · intro loc name' n' hn'
    rw [hset] at hn'
    split at hn'
    · next heq =>
      obtain ⟨rfl, -⟩ := List.append_inj' heq rfl
      obtain ⟨m, hm⟩ := hdir
      exact ⟨m, keep hm⟩
    · obtain ⟨m, hm⟩ := h.parent hn'
      exact ⟨m, keep hm⟩
  · intro loc target htarget
    rw [hset] at htarget
    split at htarget
    · exact absurd (Option.some.inj htarget) (hnew target)
    · exact h.target htarget

/-- Where nothing is, there is nothing to remove. -/
theorem WellFormed.erase_eq_self (h : t.WellFormed) {loc : Location}
    (hvacant : t.lookup loc = none) :
    t.erase loc = t := by
  -- Nothing is listed at or below a vacant location.
  have hkept : (t.nodes.filter fun entry => !loc.isPrefixOf entry.1) = t.nodes := by
    refine List.filter_eq_self.mpr fun entry hentry => ?_
    rw [Bool.not_eq_true', ← Bool.not_eq_true, List.isPrefixOf_iff_prefix]
    rintro ⟨below, hbelow⟩
    obtain ⟨n, hn⟩ := exists_lookup_of_mem_nodes hentry
    rw [← hbelow] at hn
    by_cases hne : below = []
    · rw [hne, List.append_nil, hvacant] at hn; cases hn
    · obtain ⟨m, hm⟩ := h.directory_of_lookup hne hn
      rw [hvacant] at hm; cases hm
  unfold erase
  rw [hkept]

/-- After a place below the root is removed, nothing is left at it or below it, and the rest is as
before. -/
theorem lookup_erase_of_ne_nil (t : FileTree) {D : Location} (hD : D ≠ []) (loc : Location) :
    (t.erase D).lookup loc = if D <+: loc then none else t.lookup loc := by
  by_cases hloc : loc = []
  · subst hloc
    rw [if_neg (by rwa [List.prefix_nil])]
    rfl
  · exact lookup_erase t D loc hloc

/-- What is left of a well-formed tree after a place was removed is well-formed: what was in the
place is gone with it. -/
theorem WellFormed.erase (h : t.WellFormed) {D : Location} (hD : D ≠ []) :
    (t.erase D).WellFormed := by
  have herase := lookup_erase_of_ne_nil t hD
  refine ⟨?_, ?_⟩
  · intro loc name n hn
    rw [herase] at hn
    split at hn
    · cases hn
    · next hout =>
      obtain ⟨m, hm⟩ := h.parent hn
      refine ⟨m, ?_⟩
      -- The parent of what is left is not below the place either.
      rw [herase, if_neg fun hin => hout (hin.trans (List.prefix_append _ _))]
      exact hm
  · intro loc target htarget
    rw [herase] at htarget
    split at htarget
    · cases htarget
    · exact h.target htarget

/-! ### Growth -/

/-- The tree can have become another by making directories and files and by filling files: its
directories and links are still there, its files are still files, and there is no new link. -/
structure GrowsInto (t t' : FileTree) : Prop where
  workdir : t'.workdir = t.workdir
  directory : ∀ {loc : Location} {m : Mode}, t.lookup loc = some (.directory m) →
    t'.lookup loc = some (.directory m)
  file : ∀ {loc : Location} {m : Mode} {content : Bytes}, t.lookup loc = some (.file m content) →
    ∃ m' content', t'.lookup loc = some (.file m' content')
  link : ∀ {loc : Location} {target : Path},
    t'.lookup loc = some (.link target) ↔ t.lookup loc = some (.link target)

/-- A tree grows into itself. -/
theorem GrowsInto.refl (t : FileTree) : t.GrowsInto t :=
  ⟨rfl, id, fun h => ⟨_, _, h⟩, Iff.rfl⟩

/-- Growth adds up. -/
theorem GrowsInto.trans {t₁ t₂ t₃ : FileTree} (h : t₁.GrowsInto t₂) (h' : t₂.GrowsInto t₃) :
    t₁.GrowsInto t₃ where
  workdir := h'.workdir.trans h.workdir
  directory hd := h'.directory (h.directory hd)
  file hf := by
    obtain ⟨m, content, hf⟩ := h.file hf
    exact h'.file hf
  link := h'.link.trans h.link

/-- What is there stays there. -/
theorem GrowsInto.exists_lookup (h : t.GrowsInto t') {loc : Location} {n : Node}
    (hn : t.lookup loc = some n) : ∃ n', t'.lookup loc = some n' := by
  cases n with
  | directory m => exact ⟨_, h.directory hn⟩
  | file m content =>
    obtain ⟨m', content', hn'⟩ := h.file hn
    exact ⟨_, hn'⟩
  | link target => exact ⟨_, h.link.mpr hn⟩

/-- Where names can be looked up, they can be later. -/
theorem GrowsInto.canSearch (h : t.GrowsInto t') {loc : Location} (hs : t.canSearch loc = true) :
    t'.canSearch loc = true := by
  unfold FileTree.canSearch at hs ⊢
  rcases hl : t.lookup loc with _ | (m | _ | _)
  · simp [hl] at hs
  · rw [h.directory hl]; simpa [hl] using hs
  all_goals simp [hl, Node.isDirectory] at hs

/-- Where names can be made, they can be later. -/
theorem GrowsInto.canAlter (h : t.GrowsInto t') {loc : Location} (ha : t.canAlter loc = true) :
    t'.canAlter loc = true := by
  unfold FileTree.canAlter at ha ⊢
  rcases hl : t.lookup loc with _ | (m | _ | _)
  · simp [hl] at ha
  · rw [h.directory hl]; simpa [hl] using ha
  all_goals simp [hl, Node.isDirectory] at ha

/-- Making a directory where nothing was is a growth. -/
theorem growsInto_set_directory {loc : Location} (m : Mode) (h : t.lookup loc = none) :
    t.GrowsInto (t.set loc (.directory m)) := by
  have hne : loc ≠ [] := by rintro rfl; simp at h
  have hset := lookup_set t loc (.directory m) hne
  refine ⟨rfl, ?_, ?_, ?_⟩
  · intro other m' hm'
    rw [hset, if_neg (by rintro rfl; simp [h] at hm')]
    exact hm'
  · intro other m' content hm'
    rw [hset, if_neg (by rintro rfl; simp [h] at hm')]
    exact ⟨m', content, hm'⟩
  · intro other target
    rw [hset]
    split
    · next heq => subst heq; simp [h]
    · exact Iff.rfl

/-- Making or filling a file is a growth. -/
theorem growsInto_set_file {loc : Location} (m : Mode) (content : Bytes)
    (h : t.lookup loc = none ∨ ∃ m' content', t.lookup loc = some (.file m' content')) :
    t.GrowsInto (t.set loc (.file m content)) := by
  have hne : loc ≠ [] := by rintro rfl; simp at h
  have hset := lookup_set t loc (.file m content) hne
  refine ⟨rfl, ?_, ?_, ?_⟩
  · intro other m' hm'
    rw [hset, if_neg (by rintro rfl; simp [hm'] at h)]
    exact hm'
  · intro other m' content' hm'
    rw [hset]
    split
    · exact ⟨m, content, rfl⟩
    · exact ⟨m', content', hm'⟩
  · intro other target
    rw [hset]
    split
    · next heq =>
      subst heq
      rcases h with h | ⟨m', content', h⟩ <;> simp [h]
    · exact Iff.rfl

/-- Two trees have the same working directory and the same at every location. They may list it in
different orders. -/
structure Same (t t' : FileTree) : Prop where
  workdir : t'.workdir = t.workdir
  lookup : ∀ loc : Location, t'.lookup loc = t.lookup loc

end ImageBuild.FileTree
