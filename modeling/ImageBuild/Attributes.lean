/-!
# `ImageBuild.Attributes`: maps from texts to texts

A map as the engine is handed it: every key once, in the order of the keys. `Attributes.get?` is
the view: what the last insertion under a key says (`get?_insert`).
-/

set_option autoImplicit false

namespace ImageBuild

/-- A map from texts to texts, ordered by key. -/
structure Attributes where
  entries : List (String × String)
  deriving DecidableEq, Repr, Inhabited

namespace Attributes

/-- The map without entries. -/
def empty : Attributes := ⟨[]⟩

/-- Puts an entry in its place, instead of one with the same key. -/
def insertEntry (key value : String) : List (String × String) → List (String × String)
  | [] => [(key, value)]
  | (k, v) :: rest =>
    if key = k then (key, value) :: rest
    else if key < k then (key, value) :: (k, v) :: rest
    else (k, v) :: insertEntry key value rest

/-- The map with one more entry, which replaces one with the same key. -/
def insert (a : Attributes) (key value : String) : Attributes := ⟨insertEntry key value a.entries⟩

/-- The value under a key. -/
def get? (a : Attributes) (key : String) : Option String := a.entries.lookup key

/-- The keys, in order. -/
def keys (a : Attributes) : List String := a.entries.map (·.1)

/-- The map that a list of entries builds up; of two with one key the later one counts. -/
def ofList (entries : List (String × String)) : Attributes :=
  entries.foldl (fun a e => a.insert e.1 e.2) empty

/-- After an insertion the key has the new value and every other key what it had. -/
theorem get?_insert (a : Attributes) (key value other : String) :
    (a.insert key value).get? other = if other = key then some value else a.get? other := by
  obtain ⟨entries⟩ := a
  simp only [insert, get?]
  -- On the entries, as the insertion goes through them.
  induction entries with
  | nil =>
    by_cases h : other = key
    · simp [insertEntry, h]
    · simp [insertEntry, h, List.lookup_cons, beq_eq_false_iff_ne.2 h]
  | cons e rest ih =>
    obtain ⟨k, v⟩ := e
    simp only [insertEntry]
    split
    · next hk =>
      subst hk
      by_cases h : other = key
      · simp [h]
      · simp [h, List.lookup_cons, beq_eq_false_iff_ne.2 h]
    · next hk =>
      split
      · by_cases h : other = key
        · simp [h]
        · simp [h, List.lookup_cons, beq_eq_false_iff_ne.2 h]
      · simp only [List.lookup_cons]
        by_cases hok : other = k
        · subst hok
          simp [Ne.symm hk]
        · simp [beq_eq_false_iff_ne.2 hok, ih]

end Attributes
end ImageBuild
