import ImageBuild.Proofs.Request.Options
import ImageBuild.Request.Solve
import Mathlib.Data.List.Nodup
import Mathlib.Data.String.Basic

/-!
# `ImageBuild.Proofs.Request.Attributes`: what the frontend is told

The frontend of the engine is told in one map what a build asks for. The keys of build arguments
and labels are the user's, and they stand in the map behind a word of their own.
`frontendAttributes_oneToOne` says what the map of accepted options holds, key by key, and that
nothing else goes into it.

* `IsSorted` is what a map has that was built by insertions. Such a map holds each key once, and
  two of them are equal if they have the same under every key (`IsSorted.ext`).
* `KeysBegin` says with which letters the keys of a map begin. The six kinds of keys begin with
  six letters, so each kind is new to the map when it is added, and what it adds replaces nothing
  (`get?_frontendAttributes_eq_some_iff`).
-/

set_option autoImplicit false

namespace ImageBuild

namespace Attributes

variable {a b : Attributes} {key value : String}

/-! ### Maps in the order of their keys -/

/-- The keys stand in their order, each of them once. -/
def IsSorted (a : Attributes) : Prop := a.entries.Pairwise fun e e' => e.1 < e'.1

/-- No attributes are in order. -/
theorem isSorted_empty : empty.IsSorted := List.Pairwise.nil

/-- Inserting an entry brings no other one. -/
theorem mem_insertEntry {entries : List (String × String)} {e : String × String}
    (h : e ∈ insertEntry key value entries) : e = (key, value) ∨ e ∈ entries := by
  induction entries with
  | nil => exact Or.inl (List.mem_singleton.mp h)
  | cons first rest ih =>
    rw [insertEntry] at h
    split at h
    · rcases List.mem_cons.mp h with he | he
      · exact Or.inl he
      · exact Or.inr (List.mem_cons_of_mem _ he)
    · split at h
      · exact List.mem_cons.mp h
      · -- The entry is put behind the first one.
        rcases List.mem_cons.mp h with rfl | he
        · exact Or.inr List.mem_cons_self
        · exact (ih he).imp_right (List.mem_cons_of_mem _)

/-- An entry is put where its key belongs. -/
theorem IsSorted.insert (h : a.IsSorted) (key value : String) :
    (a.insert key value).IsSorted := by
  obtain ⟨entries⟩ := a
  show (insertEntry key value entries).Pairwise _
  induction entries with
  | nil => exact List.pairwise_singleton _ _
  | cons first rest ih =>
    obtain ⟨hfirst, hrest⟩ := List.pairwise_cons.mp h
    rw [insertEntry]
    by_cases heq : key = first.1
    · rw [if_pos heq, heq]
      exact List.pairwise_cons.mpr ⟨hfirst, hrest⟩
    · rw [if_neg heq]
      by_cases hlt : key < first.1
      · rw [if_pos hlt]
        refine List.pairwise_cons.mpr ⟨fun e he => ?_, h⟩
        rcases List.mem_cons.mp he with rfl | he
        · exact hlt
        · exact lt_trans hlt (hfirst e he)
      · rw [if_neg hlt]
        refine List.pairwise_cons.mpr ⟨fun e he => ?_, ih hrest⟩
        rcases mem_insertEntry he with rfl | he
        · exact lt_of_le_of_ne (not_lt.mp hlt) (Ne.symm heq)
        · exact hfirst e he

/-- Any number of insertions keeps the order. -/
theorem IsSorted.foldl_insert (h : a.IsSorted) (f : String → String)
    (entries : List (String × String)) :
    (entries.foldl (fun a e => a.insert (f e.1) e.2) a).IsSorted := by
  induction entries generalizing a with
  | nil => exact h
  | cons e rest ih => exact ih (h.insert _ _)

/-- Attributes made from a list are in order. -/
theorem isSorted_ofList (entries : List (String × String)) : (ofList entries).IsSorted :=
  isSorted_empty.foldl_insert id entries

/-- Attributes added under a label keep the order. -/
theorem IsSorted.addAll (h : a.IsSorted) (label : String) (m : Attributes) :
    (BuildRequest.addAll label a m).IsSorted :=
  h.foldl_insert (label ++ ·) m.entries

/-- In ordered attributes no key occurs twice. -/
theorem IsSorted.nodup_keys (h : a.IsSorted) : a.keys.Nodup :=
  List.pairwise_map.mpr (h.imp fun hlt => ne_of_lt hlt)

/-- If every key stands once, what is found under a key is the entry with it. -/
theorem lookup_eq_some_iff_mem {entries : List (String × String)}
    (h : (entries.map (·.1)).Nodup) : entries.lookup key = some value ↔
      (key, value) ∈ entries := by
  constructor
  · intro hlookup
    obtain ⟨before, behind, rfl, -⟩ := List.lookup_eq_some_iff.mp hlookup
    simp
  · intro hmem
    obtain ⟨before, behind, rfl⟩ := List.append_of_mem hmem
    refine List.lookup_eq_some_iff.mpr ⟨before, behind, rfl, fun e he => bne_iff_ne.mpr ?_⟩
    rw [List.map_append, List.map_cons] at h
    have hne := (List.nodup_append.mp h).2.2 e.1 (List.mem_map_of_mem he) key List.mem_cons_self
    exact hne.symm

/-- What a key is looked up as is the entry with that key. -/
theorem IsSorted.get?_eq_some_iff (h : a.IsSorted) :
    a.get? key = some value ↔ (key, value) ∈ a.entries :=
  lookup_eq_some_iff_mem h.nodup_keys

/-- The keys are those with a value. -/
theorem mem_keys_iff : key ∈ a.keys ↔ ∃ value, a.get? key = some value := by
  have hnone : a.get? key = none ↔ key ∉ a.keys := by
    unfold get? keys
    rw [List.lookup_eq_none_iff]
    simp only [bne_iff_ne, List.mem_map, not_exists, not_and]
    exact ⟨fun h e he heq => h e he heq.symm, fun h e he heq => h e he heq.symm⟩
  rw [← Option.ne_none_iff_exists', ne_eq, hnone, not_not]

/-- A map is told by what it has under its keys. -/
theorem IsSorted.ext (ha : a.IsSorted) (hb : b.IsSorted)
    (h : ∀ key value, a.get? key = some value ↔ b.get? key = some value) : a = b := by
  obtain ⟨entries⟩ := a
  obtain ⟨entries'⟩ := b
  have hperm : entries.Perm entries' := by
    refine (List.perm_ext_iff_of_nodup ?_ ?_).mpr fun e => ?_
    · exact ha.imp fun hlt heq => absurd (heq ▸ hlt) (lt_irrefl _)
    · exact hb.imp fun hlt heq => absurd (heq ▸ hlt) (lt_irrefl _)
    · exact ha.get?_eq_some_iff.symm.trans ((h e.1 e.2).trans hb.get?_eq_some_iff)
  have heq : entries = entries' := by
    refine hperm.eq_of_pairwise (fun e e' _ _ hlt hgt => ?_) ha hb
    exact absurd hlt (lt_asymm hgt)
  rw [heq]

/-! ### What is found in a map -/

/-- After a list of entries was put into a map, a key has the value of the last entry with it. -/
theorem get?_foldl_insert (f : String → String) (entries : List (String × String))
    (a : Attributes) :
    (entries.foldl (fun a e => a.insert (f e.1) e.2) a).get? key =
      ((entries.reverse.map fun e => (f e.1, e.2)).lookup key).or (a.get? key) := by
  induction entries generalizing a with
  | nil => rfl
  | cons e rest ih =>
    rw [List.foldl_cons, ih, get?_insert, List.reverse_cons, List.map_append, List.lookup_append,
      Option.or_assoc]
    congr 1
    by_cases hkey : key = f e.1
    · simp [hkey]
    · simp [hkey, List.lookup_cons, beq_eq_false_iff_ne.mpr hkey]

/-- Of the entries of a list the last one with a key counts. -/
theorem get?_ofList (entries : List (String × String)) :
    (ofList entries).get? key = entries.reverse.lookup key := by
  have hall := @get?_foldl_insert key id entries empty
  simp only [id_eq, Prod.mk.eta, List.map_id'] at hall
  rw [ofList, hall]
  exact Option.or_none

/-- An entry with a new key replaces nothing. -/
theorem get?_insert_eq_some_iff {k v : String} (hnew : a.get? k = none) :
    (a.insert k v).get? key = some value ↔
      (key = k ∧ value = v) ∨ a.get? key = some value := by
  rw [get?_insert]
  by_cases hkey : key = k
  · simp [hkey, hnew, eq_comm]
  · simp [hkey]

/-- The entries of a map that are put into another one behind a word replace nothing, if no key
there begins with this word. -/
theorem get?_addAll_eq_some_iff {label : String} {m : Attributes} (hm : m.IsSorted)
    (hnew : ∀ k, a.get? (label ++ k) = none) :
    (BuildRequest.addAll label a m).get? key = some value ↔
      (∃ k, key = label ++ k ∧ m.get? k = some value) ∨ a.get? key = some value := by
  have hnodup : ((m.entries.reverse.map fun e => (label ++ e.1, e.2)).map (·.1)).Nodup := by
    have hkeys : ((m.entries.map (·.1)).reverse.map (label ++ ·)).Nodup := by
      refine List.Nodup.map (fun k k' heq => ?_) (List.nodup_reverse.mpr hm.nodup_keys)
      exact (String.append_right_inj label).mp heq
    simpa [Function.comp_def] using hkeys
  have hadded : ∀ v, (m.entries.reverse.map fun e => (label ++ e.1, e.2)).lookup key = some v ↔
      ∃ k, key = label ++ k ∧ m.get? k = some v := by
    intro v
    rw [lookup_eq_some_iff_mem hnodup]
    simp only [hm.get?_eq_some_iff, List.mem_map, List.mem_reverse, Prod.mk.injEq]
    constructor
    · rintro ⟨⟨k, v'⟩, hmem, rfl, rfl⟩
      exact ⟨k, rfl, hmem⟩
    · rintro ⟨k, rfl, hmem⟩
      exact ⟨(k, v), hmem, rfl, rfl⟩
  unfold BuildRequest.addAll
  rw [get?_foldl_insert (label ++ ·), Option.or_eq_some_iff, hadded]
  refine or_congr_right ⟨fun h => h.2, fun h => ⟨?_, h⟩⟩
  -- What the map has already is under none of the new keys.
  refine Option.eq_none_iff_forall_ne_some.mpr fun v hv => ?_
  obtain ⟨k, rfl, -⟩ := (hadded v).mp hv
  rw [hnew k] at h
  cases h

/-! ### Maps that are told in parts -/

/-- The map tells this and nothing else, and the keys of what it tells begin with these
letters. -/
structure Tells (a : Attributes) (letters : List Char) (told : String → String → Prop) :
    Prop where
  sorted : a.IsSorted
  get?_iff : ∀ key value, a.get? key = some value ↔ told key value
  begins : ∀ key value, told key value → ∃ c ∈ letters, key.toList.head? = some c

namespace Tells

variable {letters : List Char} {told : String → String → Prop} {c : Char}

/-- No attributes say nothing. -/
theorem empty : Attributes.empty.Tells [] fun _ _ => False where
  sorted := isSorted_empty
  get?_iff key value := iff_of_false (fun h => by cases h) not_false
  begins _ _ h := h.elim

/-- A key that begins with another letter is new to the map. -/
theorem get?_eq_none (h : a.Tells letters told) (hkey : key.toList.head? = some c)
    (hc : c ∉ letters) : a.get? key = none := by
  refine Option.eq_none_iff_forall_ne_some.mpr fun value hvalue => ?_
  obtain ⟨c', hmem, hkey'⟩ := h.begins key value ((h.get?_iff key value).mp hvalue)
  rw [hkey] at hkey'
  cases hkey'
  exact hc hmem

/-- What is told under a new letter is told besides the rest. -/
theorem begins_or {more : String → String → Prop} (h : a.Tells letters told)
    (hmore : ∀ key value, more key value → key.toList.head? = some c) :
    ∀ key value, more key value ∨ told key value → ∃ c' ∈ c :: letters,
      key.toList.head? = some c' := by
  intro key value htold
  rcases htold with htold | htold
  · exact ⟨c, List.mem_cons_self, hmore key value htold⟩
  · obtain ⟨c', hmem, hkey⟩ := h.begins key value htold
    exact ⟨c', List.mem_cons_of_mem _ hmem, hkey⟩

/-- A value is put under a new key, if there is one. -/
theorem insertSome (h : a.Tells letters told) (key : String) (hkey : key.toList.head? = some c)
    (hc : c ∉ letters) (value? : Option String) :
    (value?.elim a (a.insert key)).Tells (c :: letters)
      fun k v => (k = key ∧ value? = some v) ∨ told k v where
  sorted := by
    cases value? with
    | none => exact h.sorted
    | some value => exact h.sorted.insert key value
  get?_iff k v := by
    cases value? with
    | none => simpa using h.get?_iff k v
    | some value =>
      show (a.insert key value).get? k = some v ↔ _
      rw [get?_insert_eq_some_iff (h.get?_eq_none hkey hc), h.get?_iff, Option.some.injEq,
        eq_comm (a := v)]
  begins := by
    refine h.begins_or fun k v htold => ?_
    rw [htold.1]
    exact hkey

/-- The entries of a map are put behind a word with a new letter. -/
theorem addAll {m : Attributes} (h : a.Tells letters told) (label : String)
    (hlabel : label.toList.head? = some c) (hc : c ∉ letters) (hm : m.IsSorted) :
    (BuildRequest.addAll label a m).Tells (c :: letters)
      fun key v => (∃ k, key = label ++ k ∧ m.get? k = some v) ∨ told key v := by
  have hbehind : ∀ k, (label ++ k).toList.head? = some c := by
    intro k
    rw [String.toList_append, List.head?_append, hlabel]
    rfl
  refine ⟨h.sorted.addAll label m, fun key v => ?_, h.begins_or fun key v htold => ?_⟩
  · rw [get?_addAll_eq_some_iff hm fun k => h.get?_eq_none (hbehind k) hc, h.get?_iff]
  · obtain ⟨k, rfl, -⟩ := htold
    exact hbehind k

end Tells
end Attributes

/-! ### The attributes of a request -/

namespace BuildRequest

open Attributes

variable {r : BuildRequest} {key value : String}

/-- What the frontend is told, entry by entry, if build arguments and labels are maps in order.
The six kinds of keys begin with six letters. -/
theorem tells_frontendAttributes (hargs : r.buildArgs.IsSorted) (hlabels : r.labels.IsSorted) :
    r.frontendAttributes.Tells ['n', 'l', 'b', 'p', 't', 'f'] fun key value =>
      (key = "no-cache" ∧ (if r.cacheDisabled then some "" else none) = some value) ∨
      (∃ k, key = "label:" ++ k ∧ r.labels.get? k = some value) ∨
      (∃ k, key = "build-arg:" ++ k ∧ r.buildArgs.get? k = some value) ∨
      (key = "platform" ∧ some (commaList r.platforms) = some value) ∨
      (key = "target" ∧ r.target = some value) ∨
      (key = "filename" ∧ some r.recipeName = some value) ∨ False := by
  have hnamed := Tells.empty.insertSome "filename" (c := 'f') rfl (by decide) (some r.recipeName)
  have htargeted := hnamed.insertSome "target" (c := 't') rfl (by decide) r.target
  have hplaced := htargeted.insertSome "platform" (c := 'p') rfl (by decide)
    (some (commaList r.platforms))
  have hargs := hplaced.addAll "build-arg:" (c := 'b') rfl (by decide) hargs
  have hlabels := hargs.addAll "label:" (c := 'l') rfl (by decide) hlabels
  have hall := hlabels.insertSome "no-cache" (c := 'n') rfl (by decide)
    (if r.cacheDisabled then some "" else none)
  -- The definition puts the target in by a match and the last attribute by an `if`.
  unfold frontendAttributes
  cases htarget : r.target <;> cases hcache : r.cacheDisabled <;> simpa
    [htarget, hcache] using hall

end BuildRequest

/-! ### What options ask for -/

namespace BuildOptions

open BuildRequest

variable {t : FileTree} {hostPlatform : String} {o : BuildOptions} {target : Option String}
  {r r' : BuildRequest} {key value : String} {buildArgs labels : List String}

/-- What the options ask the frontend for, with `target` as the stage to build. -/
inductive AsksFor (t : FileTree) (hostPlatform : String) (o : BuildOptions)
    (target : Option String) :
    String → String → Prop
  | filename {recipe : Path} : o.recipeIn t = .ok recipe →
    AsksFor t hostPlatform o target "filename"
      (Utf8.decodeLossy (recipe.fileName?.getD Context.defaultRecipe))
  | platform : AsksFor t hostPlatform o target "platform"
      (commaList (platformsOr hostPlatform o.platforms))
  | target {stage : String} : target = some stage → stage ≠ "" →
    AsksFor t hostPlatform o target "target" stage
  | noCache : o.noCache = true → AsksFor t hostPlatform o target "no-cache" ""
  | buildArg {k v : String} : LastSays o.buildArgs k v →
    AsksFor t hostPlatform o target ("build-arg:" ++ k) v
  | label {k v : String} : LastSays o.labels k v →
    AsksFor t hostPlatform o target ("label:" ++ k) v

/-- Build arguments and labels of accepted options are maps in order. -/
theorem isSorted_of_build (h : o.build t hostPlatform = .ok r) :
    r.buildArgs.IsSorted ∧ r.labels.IsSorted := by
  obtain ⟨-, _, _, buildArgs, labels, -, -, -, -, rfl⟩ := build_eq_ok_iff.mp h
  exact ⟨Attributes.isSorted_ofList buildArgs, Attributes.isSorted_ofList labels⟩

/-- The attributes of a request are in order. -/
theorem isSorted_frontendAttributes (h : o.build t hostPlatform = .ok r) :
    r.frontendAttributes.IsSorted :=
  (tells_frontendAttributes (isSorted_of_build h).1 (isSorted_of_build h).2).sorted

/-- The frontend is told exactly what accepted options ask for. -/
theorem get?_frontendAttributes_iff_asksFor
    (h : (o.withTarget target).build t hostPlatform = .ok r) :
    r.frontendAttributes.get? key = some value ↔ o.AsksFor t hostPlatform target key value := by
  have hsorted := isSorted_of_build h
  have hstage : (o.withTarget target).target = some value ↔ target = some value ∧ value ≠ "" := by
    simp [withTarget, Option.filter_eq_some_iff]
  obtain ⟨-, tags, recipePath, buildArgs, labels, -, hrecipe, hargs, hlabels, rfl⟩ :=
    build_eq_ok_iff.mp h
  -- The attributes tell of the request, and the request is made of the options.
  rw [(tells_frontendAttributes hsorted.1 hsorted.2).get?_iff]
  simp only [Attributes.get?_ofList, lookup_reverse_eq_some_iff hargs,
    lookup_reverse_eq_some_iff hlabels, hstage]
  constructor
  · rintro (⟨rfl, hvalue⟩ | ⟨k, rfl, hlast⟩ | ⟨k, rfl, hlast⟩ | ⟨rfl, hvalue⟩ | ⟨rfl,
      hvalue, hne⟩ |
      ⟨rfl, hvalue⟩ | hfalse)
    · split at hvalue
      · next hno =>
        cases hvalue
        exact .noCache hno
      · cases hvalue
    · exact .label hlast
    · exact .buildArg hlast
    · cases hvalue
      exact .platform
    · exact .target hvalue hne
    · cases hvalue
      exact .filename hrecipe
    · exact hfalse.elim
  · intro hasks
    cases hasks with
    | noCache hno => exact Or.inl ⟨rfl, if_pos hno⟩
    | @label k _ hlast => exact Or.inr (Or.inl ⟨k, rfl, hlast⟩)
    | @buildArg k _ hlast => exact Or.inr (Or.inr (Or.inl ⟨k, rfl, hlast⟩))
    | platform => exact Or.inr (Or.inr (Or.inr (Or.inl ⟨rfl, rfl⟩)))
    | target hvalue hne => exact Or.inr (Or.inr (Or.inr (Or.inr (Or.inl ⟨rfl, hvalue, hne⟩))))
    | filename hrecipe' =>
      obtain rfl := Except.ok.inj (hrecipe'.symm.trans hrecipe)
      exact Or.inr (Or.inr (Or.inr (Or.inr (Or.inr (Or.inl ⟨rfl, rfl⟩)))))

/-- Options ask for something under a fixed key, or under a key that one of their entries has. -/
theorem exists_asksFor_iff (h : (o.withTarget target).build t hostPlatform = .ok r) :
    (∃ value, o.AsksFor t hostPlatform target key value) ↔
      key = "filename" ∨ key = "platform" ∨
      (key = "target" ∧ ∃ stage, target = some stage ∧ stage ≠ "") ∨
      (key = "no-cache" ∧ o.noCache = true) ∨
      (∃ k, key = "build-arg:" ++ k ∧ ∃ entry ∈ o.buildArgs, ∃ v, Says entry k v) ∨
      (∃ k, key = "label:" ++ k ∧ ∃ entry ∈ o.labels, ∃ v, Says entry k v) := by
  constructor
  · rintro ⟨value, hasks⟩
    cases hasks with
    | filename => exact Or.inl rfl
    | platform => exact Or.inr (Or.inl rfl)
    | target hstage hne => exact Or.inr (Or.inr (Or.inl ⟨rfl, value, hstage, hne⟩))
    | noCache hno => exact Or.inr (Or.inr (Or.inr (Or.inl ⟨rfl, hno⟩)))
    | @buildArg k _ hlast =>
      have hentry := exists_lastSays_iff.mp ⟨value, hlast⟩
      exact Or.inr (Or.inr (Or.inr (Or.inr (Or.inl ⟨k, rfl, hentry⟩))))
    | @label k _ hlast =>
      have hentry := exists_lastSays_iff.mp ⟨value, hlast⟩
      exact Or.inr (Or.inr (Or.inr (Or.inr (Or.inr ⟨k, rfl, hentry⟩))))
  · rintro (rfl | rfl | ⟨rfl, stage, hstage, hne⟩ | ⟨rfl, hno⟩ | ⟨k, rfl, hentry⟩ |
      ⟨k, rfl, hentry⟩)
    · obtain ⟨-, -, recipe, -, -, -, hrecipe, -⟩ := build_eq_ok_iff.mp h
      exact ⟨_, .filename hrecipe⟩
    · exact ⟨_, .platform⟩
    · exact ⟨stage, .target hstage hne⟩
    · exact ⟨"", .noCache hno⟩
    · obtain ⟨v, hlast⟩ := exists_lastSays_iff.mpr hentry
      exact ⟨v, .buildArg hlast⟩
    · obtain ⟨v, hlast⟩ := exists_lastSays_iff.mpr hentry
      exact ⟨v, .label hlast⟩

/-- Entries that say no less ask for no less. -/
theorem AsksFor.mono (h : o.AsksFor t hostPlatform target key value)
    (hargs : ∀ k v, LastSays o.buildArgs k v → LastSays buildArgs k v)
    (hlabels : ∀ k v, LastSays o.labels k v → LastSays labels k v) :
    { o with buildArgs := buildArgs, labels := labels }.AsksFor t hostPlatform target key
      value := by
  cases h with
  | filename hrecipe => exact .filename hrecipe
  | platform => exact .platform
  | target hstage hne => exact .target hstage hne
  | noCache hno => exact .noCache hno
  | buildArg hlast => exact .buildArg (hargs _ _ hlast)
  | label hlast => exact .label (hlabels _ _ hlast)

/-- Options that `build` accepts and the attributes of the frontend match one to one. The options
hold any entries at all, and they get their target from `withTarget`, which is the only way to set
one.

* No key stands twice in the map, and its keys are those that the options have something under:
  the fixed ones, and one for each key of a build argument or a label.
* Under each key is what the options ask for there. For a build argument or a label this is the
  text behind the first `=` of the last entry with the key.
* Other entries that say the same of every key in the end make the same map. -/
theorem frontendAttributes_oneToOne (h : (o.withTarget target).build t hostPlatform = .ok r) :
    r.frontendAttributes.keys.Nodup ∧
    (∀ key, key ∈ r.frontendAttributes.keys ↔
      key = "filename" ∨ key = "platform" ∨
      (key = "target" ∧ ∃ stage, target = some stage ∧ stage ≠ "") ∨
      (key = "no-cache" ∧ o.noCache = true) ∨
      (∃ k, key = "build-arg:" ++ k ∧ ∃ entry ∈ o.buildArgs, ∃ v, Says entry k v) ∨
      (∃ k, key = "label:" ++ k ∧ ∃ entry ∈ o.labels, ∃ v, Says entry k v)) ∧
    (∀ key value, r.frontendAttributes.get? key = some value ↔
      o.AsksFor t hostPlatform target key value) ∧
    (∀ (buildArgs labels : List String) (r' : BuildRequest),
      ({ o with buildArgs := buildArgs, labels := labels }.withTarget target).build t
        hostPlatform =
        .ok r' →
      (∀ k v, LastSays o.buildArgs k v ↔ LastSays buildArgs k v) →
      (∀ k v, LastSays o.labels k v ↔ LastSays labels k v) →
      r'.frontendAttributes = r.frontendAttributes) := by
  have hsorted := isSorted_frontendAttributes h
  have hget : ∀ key value, r.frontendAttributes.get? key = some value ↔
      o.AsksFor t hostPlatform target key value :=
        fun _ _ => get?_frontendAttributes_iff_asksFor h
  refine ⟨hsorted.nodup_keys, fun key => ?_, hget, fun buildArgs labels r' h' hargs hlabels => ?_⟩
  · rw [Attributes.mem_keys_iff, ← exists_asksFor_iff h]
    exact exists_congr fun value => hget key value
  · refine (isSorted_frontendAttributes h').ext hsorted fun key value => ?_
    rw [get?_frontendAttributes_iff_asksFor h', hget]
    -- The options with their own entries in place of the others are the options.
    exact ⟨fun hasks => hasks.mono (fun k v => (hargs k v).mpr) fun k v => (hlabels k v).mpr,
      fun hasks => hasks.mono (fun k v => (hargs k v).mp) fun k v => (hlabels k v).mp⟩

/-- Options with two build arguments for one key, one for a key that looks like that of a label,
and a label for the first key. -/
def repeatedOptions : BuildOptions where
  contextDir := .ofString "a"
  recipe := some (.ofString "r")
  tags := ["app"]
  target := none
  platforms := []
  buildArgs := ["K=1", "label:K=2", "K=3=4"]
  labels := ["K=x"]
  noCache := true

/-- The last build argument counts with all that is behind its first `=`, and no key hides
another. -/
theorem frontendAttributes_repeatedOptions :
    ∃ r, (repeatedOptions.withTarget (some "")).build ⟨[], []⟩ "linux/amd64" = .ok r ∧
      r.frontendAttributes.get? "build-arg:K" = some "3=4" ∧
      r.frontendAttributes.get? "build-arg:label:K" = some "2" ∧
      r.frontendAttributes.get? "label:K" = some "x" := by
  have hok : ((repeatedOptions.withTarget (some "")).build ⟨[], []⟩ "linux/amd64").isOk =
      true := by
    decide +kernel
  cases hr : (repeatedOptions.withTarget (some "")).build ⟨[], []⟩ "linux/amd64" with
  | error f =>
    rw [hr] at hok
    cases hok
  | ok r =>
    obtain ⟨-, -, hget, -⟩ := frontendAttributes_oneToOne hr
    refine ⟨r, rfl, (hget _ _).mpr (@AsksFor.buildArg _ _ _ _ "K" "3=4" ?_),
      (hget _ _).mpr (@AsksFor.buildArg _ _ _ _ "label:K" "2" ?_),
      (hget _ _).mpr (@AsksFor.label _ _ _ _ "K" "x" ?_)⟩
    · exact ⟨["K=1", "label:K=2"], "K=3=4", [], rfl, ⟨by decide, by decide⟩, by simp⟩
    · refine ⟨["K=1"], "label:K=2", ["K=3=4"], rfl, ⟨by decide, by decide⟩, ?_⟩
      intro entry hmem value hreads
      obtain rfl : entry = "K=3=4" := List.mem_singleton.mp hmem
      exact absurd (hreads.unique ⟨rfl, by decide⟩ : _ = "K" ∧ _ = "3=4").1 (by decide)
    · exact ⟨[], "K=x", [], rfl, ⟨by decide, by decide⟩, by simp⟩

end BuildOptions
end ImageBuild
