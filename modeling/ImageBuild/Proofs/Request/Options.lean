import ImageBuild.Proofs.Reference.Grammar
import ImageBuild.Request.Options

/-!
# `ImageBuild.Proofs.Request.Options`: what accepted options hold

`BuildOptions.build` makes a request if all checks succeed, and `build_eq_ok_iff` says which
checks these are and what the request is then.

Build arguments and labels are entries `key=value`. `Says` cuts an entry at its first `=`, and
`LastSays` is what a list of entries says of a key: of two entries with one key the later one
counts. The pairs that the entries are cut into say the same (`lookup_reverse_eq_some_iff`).
-/

set_option autoImplicit false

namespace ImageBuild.BuildOptions

open Reference.Grammar

variable {t : FileTree} {hostPlatform : String} {o : BuildOptions} {r : BuildRequest}
  {kind : EntryKind} {entry key value : String} {entries : List String}
  {pairs : List (String × String)}

/-- A check and what follows it succeed only if both do. -/
theorem bind_eq_ok_iff {α β : Type} {x : Except BuildFault α}
    {f : α → Except BuildFault β} {b : β} : x >>= f = .ok b ↔ ∃ a, x = .ok a ∧ f a = .ok b := by
  cases x with
  | error e => simp [bind, Except.bind]
  | ok a => simp [bind, Except.bind]

/-- A check and what follows it fail as the first of them does that fails. -/
theorem bind_eq_error_iff {α β : Type} {x : Except BuildFault α} {f : α → Except BuildFault β}
    {fault : BuildFault} :
    x >>= f = .error fault ↔ x = .error fault ∨ ∃ a, x = .ok a ∧ f a = .error fault := by
  cases x with
  | error e => simp [bind, Except.bind]
  | ok a => simp [bind, Except.bind]

/-- Options are accepted exactly if they have a tag, all their tags can be read, the recipe is
found and all their entries can be cut. -/
theorem build_eq_ok_iff :
    o.build t hostPlatform = .ok r ↔
      o.tags ≠ [] ∧ ∃ tags recipePath buildArgs labels,
        parseTags o.tags = .ok tags ∧ o.recipeIn t = .ok recipePath ∧
        splitEntries .buildArg o.buildArgs = .ok buildArgs ∧
        splitEntries .label o.labels = .ok labels ∧
        r = {
          recipePath := recipePath
          contextDir := o.contextDir
          tags := tags
          target := o.target
          platforms := platformsOr hostPlatform o.platforms
          buildArgs := .ofList buildArgs
          labels := .ofList labels
          cacheDisabled := o.noCache } := by
  unfold build
  by_cases htags : o.tags = []
  · rw [if_pos (List.isEmpty_iff.mpr htags)]
    exact iff_of_false (fun h => by cases h) fun h => h.1 htags
  · rw [if_neg fun h => htags (List.isEmpty_iff.mp h)]
    simp only [ne_eq, htags, not_false_eq_true, true_and, bind_eq_ok_iff, exists_and_left, pure,
      Except.pure, Except.ok.injEq]
    simp only [eq_comm]

/-! ### Entries -/

/-- The entry has this key in front of its first `=` and this value behind it. -/
structure Says (entry key value : String) : Prop where
  eq : entry = key ++ "=" ++ value
  notMem : '=' ∉ key.toList

/-- An entry is its key, `=` and its value. -/
theorem Says.toList_eq (h : Says entry key value) :
    entry.toList = key.toList ++ '=' :: value.toList := by
  rw [h.eq]
  simp

/-- Its key is what stands before the first `=`. -/
theorem Says.takeWhile_eq (h : Says entry key value) :
    entry.toList.takeWhile (· != '=') = key.toList := by
  rw [h.toList_eq]
  exact takeWhile_cut (bne_of_notMem h.notMem) (by simp)

/-- From there on it is `=` and the value. -/
theorem Says.dropWhile_eq (h : Says entry key value) :
    entry.toList.dropWhile (· != '=') = '=' :: value.toList := by
  rw [h.toList_eq]
  exact dropWhile_cut (bne_of_notMem h.notMem) (by simp)

/-- An entry has one key and one value. -/
theorem Says.unique {key' value' : String} (h : Says entry key value)
    (h' : Says entry key' value') : key = key' ∧ value = value' := by
  have hkey := h.takeWhile_eq.symm.trans h'.takeWhile_eq
  have hvalue := h.dropWhile_eq.symm.trans h'.dropWhile_eq
  rw [List.cons_inj_right] at hvalue
  exact ⟨String.toList_injective hkey, String.toList_injective hvalue⟩

/-- An entry is cut at its first `=`, unless there is nothing in front of it. -/
theorem splitEntry_eq_some_iff :
    splitEntry entry = some (key, value) ↔ Says entry key value ∧ key ≠ "" := by
  constructor
  · intro h
    -- The cut is at the first `=`, if there is one.
    obtain ⟨first, rest, hentry, hfirst, hrest⟩ := exists_cut (· != '=') entry.toList
    unfold splitEntry at h
    rw [hentry, takeWhile_cut hfirst hrest, dropWhile_cut hfirst hrest] at h
    cases rest with
    | nil => cases h
    | cons c behind =>
      obtain rfl : c = '=' := by simpa using hrest c rfl
      have hne : first ≠ [] := by
        rintro rfl
        cases h
      simp only [List.isEmpty_iff, hne, if_false, Option.some.injEq, Prod.mk.injEq] at h
      obtain ⟨rfl, rfl⟩ := h
      refine ⟨⟨String.toList_injective (by simpa using hentry), ?_⟩, by simpa using hne⟩
      rw [String.toList_ofList]
      exact fun hmem => absurd (hfirst _ hmem) (by decide)
  · intro ⟨h, hne⟩
    unfold splitEntry
    rw [h.takeWhile_eq, h.dropWhile_eq]
    simp [hne]

/-- The pairs of accepted entries are the entries, cut one by one. -/
theorem map_splitEntry_of_splitEntries (h : splitEntries kind entries = .ok pairs) :
    entries.map splitEntry = pairs.map some := by
  induction entries generalizing pairs with
  | nil => cases h; rfl
  | cons entry rest ih =>
    rw [splitEntries] at h
    cases hpair : splitEntry entry with
    | none => rw [hpair] at h; cases h
    | some pair =>
      cases hmore : splitEntries kind rest with
      | error f => rw [hpair, hmore] at h; cases h
      | ok more =>
        rw [hpair, hmore] at h
        cases h
        rw [List.map_cons, List.map_cons, hpair, ih hmore]

/-! ### What a list of entries says of a key -/

/-- This is the value of the last entry with the key. -/
def LastSays (entries : List String) (key value : String) : Prop :=
  ∃ earlier entry later, entries = earlier ++ entry :: later ∧ Says entry key value ∧
    ∀ entry' ∈ later, ∀ value', ¬ Says entry' key value'

/-- A list of entries says something of the keys that its entries have. -/
theorem exists_lastSays_iff :
    (∃ value, LastSays entries key value) ↔ ∃ entry ∈ entries, ∃ value, Says entry key value := by
  constructor
  · rintro ⟨value, earlier, entry, later, rfl, hreads, -⟩
    exact ⟨entry, by simp, value, hreads⟩
  · intro h
    induction entries with
    | nil => simp at h
    | cons first rest ih =>
      by_cases hrest : ∃ entry ∈ rest, ∃ value, Says entry key value
      · obtain ⟨value, earlier, entry, later, rfl, hreads, hlater⟩ := ih hrest
        exact ⟨value, first :: earlier, entry, later, rfl, hreads, hlater⟩
      · -- Nothing behind it has the key, so it is the first entry that counts.
        obtain ⟨entry, hmem, value, hreads⟩ := h
        rcases List.mem_cons.mp hmem with rfl | hmem
        · refine ⟨value, [], entry, rest, rfl, hreads, ?_⟩
          exact fun entry' hmem' value' hreads' => hrest ⟨entry', hmem', value', hreads'⟩
        · exact absurd ⟨entry, hmem, value, hreads⟩ hrest

/-- The last pair with a key has what the list of entries says of it. -/
theorem lookup_reverse_eq_some_iff (h : splitEntries kind entries = .ok pairs) :
    pairs.reverse.lookup key = some value ↔ LastSays entries key value := by
  -- Entries and pairs are cut at the same place, and what is behind it in one list is behind it
  -- in the other.
  have hmap := map_splitEntry_of_splitEntries h
  rw [List.lookup_eq_some_iff]
  constructor
  · rintro ⟨behind, before, hpairs, hbehind⟩
    have hpairs' : pairs = before.reverse ++ (key, value) :: behind.reverse := by
      rw [← List.reverse_reverse pairs, hpairs]
      simp
    rw [hpairs', List.map_append, List.map_cons, List.map_eq_append_iff] at hmap
    obtain ⟨earlier, last, rfl, -, hlast⟩ := hmap
    obtain ⟨entry, later, rfl, hentry, hlater⟩ := List.map_eq_cons_iff.mp hlast
    obtain ⟨hreads, hne⟩ := splitEntry_eq_some_iff.mp hentry
    refine ⟨earlier, entry, later, rfl, hreads, fun entry' hmem value' hreads' => ?_⟩
    have hcut : splitEntry entry' ∈ later.map splitEntry := List.mem_map_of_mem hmem
    rw [hlater, splitEntry_eq_some_iff.mpr ⟨hreads', hne⟩] at hcut
    have hother := hbehind (key, value') (by simpa using hcut)
    simp at hother
  · rintro ⟨earlier, entry, later, rfl, hreads, hlater⟩
    rw [List.map_append, List.map_cons] at hmap
    obtain ⟨before, last, rfl, -, hlast⟩ := List.map_eq_append_iff.mp hmap.symm
    obtain ⟨⟨key', value'⟩, behind, rfl, hpair, hbehind⟩ := List.map_eq_cons_iff.mp hlast
    obtain ⟨rfl, rfl⟩ := hreads.unique (splitEntry_eq_some_iff.mp hpair.symm).1
    refine ⟨behind.reverse, before.reverse, by simp, fun pair hmem => bne_iff_ne.mpr ?_⟩
    rintro rfl
    have hcut : some pair ∈ behind.map some := List.mem_map_of_mem (List.mem_reverse.mp hmem)
    rw [hbehind] at hcut
    obtain ⟨entry', hmem', hentry'⟩ := List.mem_map.mp hcut
    exact hlater entry' hmem' pair.2 (splitEntry_eq_some_iff.mp hentry').1

end ImageBuild.BuildOptions
