import ImageBuild.Progress.Message
import Mathlib.Algebra.Ring.Int.Defs
import Mathlib.Data.List.Nodup

/-!
# `ImageBuild.Proofs.Progress.Message`: which JSON values are messages of an engine

`EngineMessage.ofJson?` reads a message field by field. The relation `IsMessage` says of a value
and a message that the one stands for the other, and goes by the names of the fields and not by
their places: what a record `Has` under a name, whether it `Needs` the field, has a value to fall
back on (`OrElse`) or may have null (`OrNull`). `EngineMessage.ofJson?_eq_some_iff` is that the
reader and the relation agree on every value, so a value is malformed exactly if it stands for no
message. `isMessage_toJson` is that what is written for a message stands for it.

There is one relation and one lemma for each type of value and of record. The lemmas for fields
(`required_eq_some_iff` and the two after it) are what the lemmas for records are put together
from; a record with other fields takes another list of names and nothing else.
-/

set_option autoImplicit false

namespace ImageBuild.Progress

/-! ### Records -/

/-- A record with these fields: an object that has none of them twice, or an array with no more
values than there are fields. -/
inductive IsRecord (names : List String) : Json → Prop
  | object {fields : List (Option String × Json)} : (∀ f ∈ fields, ∃ key, f.1 = some key) →
    (∀ name ∈ names, (fields.map (·.1)).count (some name) ≤ 1) → IsRecord names (.obj fields)
  | array {items : List Json} : items.length ≤ names.length → IsRecord names (.arr items)

/-- The value that a record has for a field, or `none` where the field is missing. -/
inductive Has (names : List String) (name : String) : Json → Option Json → Prop
  | given {fields : List (Option String × Json)} {v : Json} : (some name, v) ∈ fields →
    Has names name (.obj fields) (some v)
  | missing {fields : List (Option String × Json)} : (∀ v, (some name, v) ∉ fields) →
    Has names name (.obj fields) none
  | placed {items : List Json} {i : Nat} : names[i]? = some name →
    Has names name (.arr items) items[i]?

section
variable {α : Type} (names : List String) (name : String) (R : Json → α → Prop)

/-- The record has the field, and its value is this one. -/
def Needs (v : Json) (x : α) : Prop := ∃ w, Has names name v (some w) ∧ R w x

/-- The value of the field is this one, or the field is missing and this is what it is then. -/
def OrElse (default : α) (v : Json) (x : α) : Prop :=
  Needs names name R v x ∨ Has names name v none ∧ x = default

/-- The value of the field is this one, or it is null. An object may also be without the field. -/
inductive OrNull : Json → Option α → Prop
  | value {v : Json} {x : α} : Needs names name R v x → OrNull v (some x)
  | null {v : Json} : Has names name v (some .null) → OrNull v none
  | missing {fields : List (Option String × Json)} : Has names name (.obj fields) none →
    OrNull (.obj fields) none

end

/-! ### Values -/

/-- A text. -/
def IsText (v : Json) (s : String) : Prop := v = .text s

/-- True or false. -/
def IsFlag (v : Json) (b : Bool) : Prop := v = .bool b

/-- A whole number that a 64-bit word with sign holds. -/
def IsCount (v : Json) (n : Int) : Prop := v = .int n ∧ -2 ^ 63 ≤ n ∧ n < 2 ^ 63

/-- The number of a byte. -/
def IsByte (v : Json) (b : UInt8) : Prop := v = .int b.toNat

/-- The text of a point in time. -/
def IsTime (v : Json) (t : Instant) : Prop := ∃ s, IsText v s ∧ Instant.read? s = some t

/-- An array whose values are these, one by one. -/
def IsList {α : Type} (R : Json → α → Prop) (v : Json) (xs : List α) : Prop :=
  ∃ items, v = .arr items ∧ List.Forall₂ R items xs

/-- The name of a stream, also with null behind it. -/
def IsStream (v : Json) (s : LogStream) : Prop :=
  v = .text s.name ∨ v = .record [(s.name, .null)]

/-! ### Messages -/

def vertexNames : List String :=
  ["digest", "inputs", "name", "cached", "started", "completed", "error"]

/-- A vertex. Only its digest and its name have to be there. -/
structure IsVertex (v : Json) (x : Vertex) : Prop where
  record : IsRecord vertexNames v
  digest : Needs vertexNames "digest" IsText v x.digest
  inputs : OrElse vertexNames "inputs" (IsList IsText) [] v x.inputs
  name : Needs vertexNames "name" IsText v x.name
  cached : OrElse vertexNames "cached" IsFlag false v x.cached
  started : OrNull vertexNames "started" IsTime v x.started
  completed : OrNull vertexNames "completed" IsTime v x.completed
  error : OrElse vertexNames "error" IsText "" v x.error

def counterNames : List String :=
  ["id", "vertex", "name", "current", "total", "timestamp", "started", "completed"]

/-- A counter. -/
structure IsCounter (v : Json) (x : Counter) : Prop where
  record : IsRecord counterNames v
  id : Needs counterNames "id" IsText v x.id
  vertex : Needs counterNames "vertex" IsText v x.vertex
  name : Needs counterNames "name" IsText v x.name
  current : Needs counterNames "current" IsCount v x.current
  total : Needs counterNames "total" IsCount v x.total
  timestamp : Needs counterNames "timestamp" IsTime v x.timestamp
  started : OrNull counterNames "started" IsTime v x.started
  completed : OrNull counterNames "completed" IsTime v x.completed

def logNames : List String := ["vertex", "stream", "data", "timestamp"]

/-- Output of a step. -/
structure IsLog (v : Json) (x : Log LogStream) : Prop where
  record : IsRecord logNames v
  vertex : Needs logNames "vertex" IsText v x.vertex
  stream : Needs logNames "stream" IsStream v x.stream
  data : Needs logNames "data" (IsList IsByte) v x.data
  timestamp : Needs logNames "timestamp" IsTime v x.timestamp

def batchNames : List String := ["vertexes", "statuses", "logs"]

/-- A batch of updates. What is missing is empty. -/
structure IsBatch (v : Json) (x : StatusResponse) : Prop where
  record : IsRecord batchNames v
  vertexes : OrElse batchNames "vertexes" (IsList IsVertex) [] v x.vertexes
  counters : OrElse batchNames "statuses" (IsList IsCounter) [] v x.counters
  logs : OrElse batchNames "logs" (IsList IsLog) [] v x.logs

/-- A message: an object with one field, whose name says what it is. -/
inductive IsMessage : Json → EngineMessage → Prop
  | status {v : Json} {batch : StatusResponse} : IsBatch v batch →
    IsMessage (.record [("status", v)]) (.status batch)
  /-- There is nothing to say but that, so what is behind it may have any fields. -/
  | done {v : Json} : IsRecord [] v → IsMessage (.record [("done", v)]) .done
  | error {v : Json} {text : String} : IsText v text →
    IsMessage (.record [("error", v)]) (.error text)

/-! ### Reading values -/

/-- A text is read as itself. -/
theorem readText_eq_some_iff (v : Json) (s : String) : readText v = some s ↔ IsText v s := by
  unfold readText IsText Json.text
  cases v <;> simp

/-- A flag is read as itself. -/
theorem readFlag_eq_some_iff (v : Json) (b : Bool) : readFlag v = some b ↔ IsFlag v b := by
  unfold readFlag IsFlag
  cases v <;> simp

/-- The numbers of 64 bits with a sign. -/
theorem isSigned_iff (n : Int) : Text.isSigned n = true ↔ -2 ^ 63 ≤ n ∧ n < 2 ^ 63 := by
  unfold Text.isSigned
  rw [decide_eq_true_eq]
  exact Iff.rfl

/-- A count is read from a whole number of 64 bits with a sign, or from 0 with a minus. -/
theorem readCount_eq_some_iff (v : Json) (n : Int) : readCount v = some n ↔ IsCount v n := by
  unfold readCount IsCount
  cases v with
  | int m =>
    dsimp only
    constructor
    · intro h
      obtain ⟨hbounds, h⟩ := Option.ite_none_right_eq_some.mp h
      obtain rfl := Option.some.inj h
      exact ⟨rfl, (isSigned_iff m).mp hbounds⟩
    · rintro ⟨hm, hbounds⟩
      obtain rfl := Json.int.inj hm
      exact if_pos ((isSigned_iff m).mpr hbounds)
  | null | bool | real | str | arr | obj => simp

/-- A byte is read from a number below 256. -/
theorem readByte_eq_some_iff (v : Json) (b : UInt8) : readByte v = some b ↔ IsByte v b := by
  unfold readByte IsByte
  cases v with
  | int m =>
    dsimp only
    constructor
    · intro h
      obtain ⟨hbounds, h⟩ := Option.ite_none_right_eq_some.mp h
      obtain rfl := Option.some.inj h
      have hlt : m.toNat < 256 := by omega
      rw [UInt8.toNat_ofNat_of_lt' hlt, Int.toNat_of_nonneg hbounds.1]
    · intro hm
      obtain rfl := Json.int.inj hm
      have hlt := b.toNat_lt
      rw [if_pos (by omega), Int.toNat_natCast, UInt8.ofNat_toNat]
  | null | bool | real | str | arr | obj => simp

/-- A time is read from its text. -/
theorem readInstant_eq_some_iff (v : Json) (t : Instant) :
    readInstant v = some t ↔ IsTime v t := by
  unfold readInstant IsTime
  rw [Option.bind_eq_some_iff]
  exact exists_congr fun s => and_congr_left fun _ => readText_eq_some_iff v s

/-- A stream is known by its own name alone. -/
theorem ofName?_eq_some_iff (name : String) (s : LogStream) :
    LogStream.ofName? name = some s ↔ name = s.name := by
  constructor
  · intro h
    unfold LogStream.ofName? at h
    split at h
    · obtain rfl := Option.some.inj h
      rfl
    · obtain rfl := Option.some.inj h
      rfl
    · cases h
  · rintro rfl
    cases s <;> rfl

/-- A stream is read from its name, alone or as a variant without content. -/
theorem readStream_eq_some_iff (v : Json) (s : LogStream) :
    readStream v = some s ↔ IsStream v s := by
  constructor
  · intro h
    unfold readStream at h
    split at h
    · rw [(ofName?_eq_some_iff _ s).mp h]
      exact .inl rfl
    · rw [(ofName?_eq_some_iff _ s).mp h]
      exact .inr rfl
    · cases h
  · rintro (rfl | rfl)
    · exact (ofName?_eq_some_iff _ s).mpr rfl
    · exact (ofName?_eq_some_iff _ s).mpr rfl

/-- A list is mapped to the values of its elements, one by one. -/
theorem mapM_eq_some_iff {α β : Type} (f : α → Option β) (xs : List α) (ys : List β) :
    xs.mapM f = some ys ↔ List.Forall₂ (fun x y => f x = some y) xs ys := by
  induction xs generalizing ys with
  | nil =>
    rw [List.forall₂_nil_left_iff]
    exact ⟨fun h => (Option.some.inj h).symm, fun h => h ▸ rfl⟩
  | cons x rest ih =>
    simp only [List.mapM_cons, Option.bind_eq_bind, Option.pure_def, Option.bind_eq_some_iff,
      Option.some.injEq, ih, List.forall₂_cons_left_iff]
    constructor
    · rintro ⟨y, hy, ys', hys', rfl⟩
      exact ⟨y, ys', hy, hys', rfl⟩
    · rintro ⟨y, ys', hy, hys', rfl⟩
      exact ⟨y, hy, ys', hys', rfl⟩

/-- Of two lists that go together one by one, both have an element at each place. -/
theorem getElem?_of_forall₂ {α β : Type} {R : α → β → Prop} {xs : List α} {ys : List β}
    (h : List.Forall₂ R xs ys) {i : Nat} {x : α} (hx : xs[i]? = some x) :
    ∃ y, ys[i]? = some y ∧ R x y := by
  obtain ⟨hlt, rfl⟩ := List.getElem?_eq_some_iff.mp hx
  have hlt' : i < ys.length := h.length_eq ▸ hlt
  exact ⟨ys[i], List.getElem?_eq_getElem hlt', h.get hlt hlt'⟩

section
variable {α : Type} {read : Json → Option α} {R : Json → α → Prop}

/-- A list is read element by element, if one element is read as its relation says. -/
theorem readList_eq_some_iff (hread : ∀ v x, read v = some x ↔ R v x) (v : Json) (xs : List α) :
    readList read v = some xs ↔ IsList R v xs := by
  unfold readList IsList
  cases v with
  | arr items =>
    rw [mapM_eq_some_iff]
    simp only [hread, Json.arr.injEq]
    constructor
    · exact fun h => ⟨items, rfl, h⟩
    · rintro ⟨_, rfl, h⟩
      exact h
  | null | bool | int | real | str | obj => simp

end

/-! ### Reading records -/

section
variable {names : List String} {name : String} {v : Json} {f : Fields}

/-- A field of an object is there with a value, or nobody has written it. -/
theorem has_obj_iff {fields : List (Option String × Json)} {w : Option Json} :
    Has names name (.obj fields) w ↔
      (∃ v, w = some v ∧ (some name, v) ∈ fields) ∨ w = none ∧ ∀ v, (some name, v) ∉ fields := by
  constructor
  · intro h
    cases h with
    | given hmem => exact .inl ⟨_, rfl, hmem⟩
    | missing hnone => exact .inr ⟨rfl, hnone⟩
  · rintro (⟨v, rfl, hmem⟩ | ⟨rfl, hnone⟩)
    · exact .given hmem
    · exact .missing hnone

/-- An object has a field or is without it. -/
theorem exists_has_obj (names : List String) (name : String)
    (fields : List (Option String × Json)) : ∃ w, Has names name (.obj fields) w := by
  by_cases h : ∃ v, (some name, v) ∈ fields
  · obtain ⟨v, hv⟩ := h
    exact ⟨some v, .given hv⟩
  · exact ⟨none, .missing fun v hv => h ⟨v, hv⟩⟩

/-- A name is looked up in an object if the object does not have it twice, and what it has is
found. -/
theorem lookup_eq_some_iff (names : List String) (fields : List (Option String × Json))
    (w : Option Json) : Fields.lookup fields name = some w ↔
      (fields.map (·.1)).count (some name) ≤ 1 ∧ Has names name (.obj fields) w := by
  have hcount : (fields.map (·.1)).count (some name) =
      (fields.filter fun f => f.1 == some name).length := by
    rw [List.count, List.countP_map, List.countP_eq_length_filter]
    rfl
  have hmem : ∀ v, (some name, v) ∈ fields ↔
      (some name, v) ∈ fields.filter fun f => f.1 == some name := by
    simp
  unfold Fields.lookup
  rw [has_obj_iff, hcount]
  simp only [hmem]
  -- None, one or more fields have the name.
  cases hfilter : fields.filter fun f => f.1 == some name with
  | nil => simp [eq_comm]
  | cons g rest =>
    have hg : g.1 = some name := by
      have hmem := List.mem_filter.mp (hfilter ▸ List.mem_cons_self : g ∈ fields.filter _)
      simpa using hmem.2
    cases rest with
    | nil =>
      obtain ⟨key, v⟩ := g
      obtain rfl : key = some name := hg
      cases w <;> simp [eq_comm]
    | cons => simp

/-- An object is read as what is looked up in it, name by name. -/
theorem of?_obj_eq_some_iff {fields : List (Option String × Json)} :
    Fields.of? names (.obj fields) = some f ↔
      (∀ g ∈ fields, ∃ key, g.1 = some key) ∧
        ∃ values, List.Forall₂ (fun name w => Fields.lookup fields name = some w) names values ∧
          f = ⟨values, false⟩ := by
  show (if fields.all (·.1.isSome) then _ else none) = some f ↔ _
  rw [Option.ite_none_right_eq_some, List.all_eq_true, Option.map_eq_some_iff]
  simp only [Option.isSome_iff_exists, mapM_eq_some_iff, eq_comm (a := f)]

/-- An array is read as its values, in the order of the names. -/
theorem of?_arr_eq_some_iff {items : List Json} :
    Fields.of? names (.arr items) = some f ↔ items.length ≤ names.length ∧
      f = ⟨items.map some ++ List.replicate (names.length - items.length) none, true⟩ := by
  show (if items.length ≤ names.length then _ else none) = some f ↔ _
  rw [Option.ite_none_right_eq_some, Option.some.injEq, eq_comm (a := f)]

/-- If no name occurs twice in an object, all of them can be looked up. -/
theorem exists_lookups {fields : List (Option String × Json)}
    (honce : ∀ name ∈ names, (fields.map (·.1)).count (some name) ≤ 1) :
    ∃ values, List.Forall₂ (fun name w => Fields.lookup fields name = some w) names values := by
  induction names with
  | nil => exact ⟨[], .nil⟩
  | cons name rest ih =>
    obtain ⟨hname, hrest⟩ := List.forall_mem_cons.mp honce
    obtain ⟨values, hvalues⟩ := ih hrest
    obtain ⟨w, hw⟩ := exists_has_obj names name fields
    exact ⟨w :: values, .cons ((lookup_eq_some_iff names fields w).mpr ⟨hname, hw⟩) hvalues⟩

/-- Records are the values whose fields can be looked up. -/
theorem exists_of?_iff : (∃ f, Fields.of? names v = some f) ↔ IsRecord names v := by
  constructor
  · rintro ⟨f, h⟩
    cases v with
    | obj fields =>
      obtain ⟨hkeys, values, hvalues, -⟩ := of?_obj_eq_some_iff.mp h
      refine .object hkeys fun name hname => ?_
      obtain ⟨i, hi⟩ := List.mem_iff_getElem?.mp hname
      obtain ⟨w, -, hw⟩ := getElem?_of_forall₂ hvalues hi
      exact ((lookup_eq_some_iff names fields w).mp hw).1
    | arr items => exact .array (of?_arr_eq_some_iff.mp h).1
    | null | bool | int | real | str => cases h
  · intro h
    cases h with
    | object hkeys honce =>
      obtain ⟨values, hvalues⟩ := exists_lookups honce
      exact ⟨_, of?_obj_eq_some_iff.mpr ⟨hkeys, values, hvalues, rfl⟩⟩
    | array hle => exact ⟨_, of?_arr_eq_some_iff.mpr ⟨hle, rfl⟩⟩

/-- The values of an array are found at their places, and nothing behind them. -/
theorem value_arr (items : List Json) (missing i : Nat) :
    Fields.value ⟨items.map some ++ List.replicate missing none, true⟩ i = items[i]? := by
  show ((items.map some ++ List.replicate missing none)[i]?).join = items[i]?
  rw [List.getElem?_append, List.length_map, List.getElem?_map, List.getElem?_replicate]
  by_cases hitem : i < items.length
  · rw [if_pos hitem, List.getElem?_eq_getElem hitem]
    rfl
  · rw [if_neg hitem, List.getElem?_eq_none (Nat.le_of_not_lt hitem)]
    split_ifs <;> rfl

/-- What is looked up under a name is what the record has there. -/
theorem value_eq_iff (h : Fields.of? names v = some f) (hnames : names.Nodup) {i : Nat}
    (hi : names[i]? = some name) (w : Option Json) : f.value i = w ↔ Has names name v w := by
  cases v with
  | obj fields =>
    obtain ⟨-, values, hvalues, rfl⟩ := of?_obj_eq_some_iff.mp h
    obtain ⟨found, hfound, hlookup⟩ := getElem?_of_forall₂ hvalues hi
    obtain ⟨honce, hhas⟩ := (lookup_eq_some_iff names fields found).mp hlookup
    have hvalue : Fields.value ⟨values, false⟩ i = found := congrArg Option.join hfound
    rw [hvalue]
    constructor
    · rintro rfl
      exact hhas
    · intro hw
      have hsame := (lookup_eq_some_iff names fields w).mpr ⟨honce, hw⟩
      exact Option.some.inj (hlookup.symm.trans hsame)
  | arr items =>
    obtain ⟨-, rfl⟩ := of?_arr_eq_some_iff.mp h
    rw [value_arr]
    constructor
    · rintro rfl
      exact .placed hi
    · intro hhas
      cases hhas with
      | @placed _ j hj =>
        -- The names are different from one another, so the name tells the place.
        obtain ⟨hlt, hname⟩ := List.getElem?_eq_some_iff.mp hi
        obtain ⟨hlt', hname'⟩ := List.getElem?_eq_some_iff.mp hj
        rw [hnames.getElem_inj_iff.mp (hname.trans hname'.symm)]
  | null | bool | int | real | str => cases h

/-- Fields were found by their positions exactly in an array. -/
theorem positional_iff (h : Fields.of? names v = some f) :
    f.positional = true ↔ ∃ items, v = .arr items := by
  cases v with
  | obj fields =>
    obtain ⟨-, values, -, rfl⟩ := of?_obj_eq_some_iff.mp h
    simp
  | arr items =>
    obtain ⟨-, rfl⟩ := of?_arr_eq_some_iff.mp h
    simp
  | null | bool | int | real | str => cases h

section
variable {α : Type} {read : Json → Option α} {R : Json → α → Prop}

/-- A field that is needed is read from the value that the record has for it. -/
theorem required_eq_some_iff (h : Fields.of? names v = some f) (hnames : names.Nodup) {i : Nat}
    (hi : names[i]? = some name) (hread : ∀ w x, read w = some x ↔ R w x) (x : α) :
    f.required i read = some x ↔ Needs names name R v x := by
  unfold Fields.required Needs
  rw [Option.bind_eq_some_iff]
  exact exists_congr fun w => and_congr (value_eq_iff h hnames hi _) (hread w x)

/-- A field with a default is read from its value, and is the default where an object leaves it
out. -/
theorem withDefault_eq_some_iff (h : Fields.of? names v = some f) (hnames : names.Nodup) {i : Nat}
    (hi : names[i]? = some name) (hread : ∀ w x, read w = some x ↔ R w x) (default x : α) :
    f.withDefault i default read = some x ↔ OrElse names name R default v x := by
  unfold Fields.withDefault OrElse Needs
  simp only [← value_eq_iff h hnames hi, ← hread]
  cases f.value i <;> simp [eq_comm]

/-- A field that may be null has a value, or it is null or left out of an object. -/
theorem orNull_iff {x : Option α} : OrNull names name R v x ↔
    (∃ y, x = some y ∧ Needs names name R v y) ∨
      x = none ∧ (Has names name v (some .null) ∨
        Has names name v none ∧ ∃ fields, v = .obj fields) := by
  constructor
  · intro h
    cases h with
    | value hneeds => exact .inl ⟨_, rfl, hneeds⟩
    | null hnull => exact .inr ⟨rfl, .inl hnull⟩
    | missing hnone => exact .inr ⟨rfl, .inr ⟨hnone, _, rfl⟩⟩
  · rintro (⟨y, rfl, hneeds⟩ | ⟨rfl, hnull | ⟨hnone, fields, rfl⟩⟩)
    · exact .value hneeds
    · exact .null hnull
    · exact .missing hnone

/-- A field that may be null is read so. -/
theorem nullable_eq_some_iff (h : Fields.of? names v = some f) (hnames : names.Nodup) {i : Nat}
    (hi : names[i]? = some name) (hread : ∀ w x, read w = some x ↔ R w x)
    (hnull : read .null = none) (x : Option α) :
    f.nullable i read = some x ↔ OrNull names name R v x := by
  have hobject : (∃ fields, v = .obj fields) ↔ f.positional = false := by
    rw [← Bool.not_eq_true, positional_iff h]
    cases exists_of?_iff.mp ⟨f, h⟩ with
    | object | array => simp
  unfold Fields.nullable
  simp only [orNull_iff, Needs, ← value_eq_iff h hnames hi, ← hread, hobject]
  cases f.value i with
  | none => cases f.positional <;> simp [eq_comm]
  | some w =>
    simp only [Option.some.injEq, reduceCtorEq, false_and, or_false, exists_eq_left']
    cases w with
    | null =>
      -- Null is no value of the field.
      simp [hnull, eq_comm]
    | bool | int | real | str | arr | obj =>
      dsimp only
      rw [Option.map_eq_some_iff]
      simp [eq_comm, and_comm]

end

end

/-! ### Reading messages -/

/-- A value that is no record is not read. -/
theorem bind_eq_some_iff_of_record {α : Type} (names : List String) {v : Json} {x : α}
    {use : Fields → Option α} {p : Prop} (hp : p → IsRecord names v)
    (h : ∀ f, Fields.of? names v = some f → (use f = some x ↔ p)) :
    (Fields.of? names v).bind use = some x ↔ p := by
  constructor
  · intro hread
    obtain ⟨f, hf, hx⟩ := Option.bind_eq_some_iff.mp hread
    exact (h f hf).mp hx
  · intro hholds
    obtain ⟨f, hf⟩ := exists_of?_iff.mpr (hp hholds)
    exact Option.bind_eq_some_iff.mpr ⟨f, hf, (h f hf).mpr hholds⟩

/-- A vertex is read from a record of a vertex. -/
theorem readVertex_eq_some_iff (v : Json) (x : Vertex) :
    readVertex v = some x ↔ IsVertex v x := by
  refine bind_eq_some_iff_of_record vertexNames IsVertex.record fun f hf => ?_
  have hnames : vertexNames.Nodup := by decide
  have hdigest := required_eq_some_iff (i := 0) hf hnames rfl readText_eq_some_iff
  have hinputs := withDefault_eq_some_iff (i := 1) hf hnames rfl
    (readList_eq_some_iff readText_eq_some_iff) []
  have hname := required_eq_some_iff (i := 2) hf hnames rfl readText_eq_some_iff
  have hcached := withDefault_eq_some_iff (i := 3) hf hnames rfl readFlag_eq_some_iff false
  have hstarted := nullable_eq_some_iff (i := 4) hf hnames rfl readInstant_eq_some_iff rfl
  have hcompleted := nullable_eq_some_iff (i := 5) hf hnames rfl readInstant_eq_some_iff rfl
  have herror := withDefault_eq_some_iff (i := 6) hf hnames rfl readText_eq_some_iff ""
  simp only [Option.bind_eq_bind, Option.bind_eq_some_iff, Option.pure_def, Option.some.injEq,
    hdigest, hinputs, hname, hcached, hstarted, hcompleted, herror]
  constructor
  · rintro ⟨_, h0, _, h1, _, h2, _, h3, _, h4, _, h5, _, h6, rfl⟩
    exact ⟨exists_of?_iff.mp ⟨f, hf⟩, h0, h1, h2, h3, h4, h5, h6⟩
  · rintro ⟨-, h0, h1, h2, h3, h4, h5, h6⟩
    exact ⟨_, h0, _, h1, _, h2, _, h3, _, h4, _, h5, _, h6, rfl⟩

/-- A counter is read from a record of a counter. -/
theorem readCounter_eq_some_iff (v : Json) (x : Counter) :
    readCounter v = some x ↔ IsCounter v x := by
  refine bind_eq_some_iff_of_record counterNames IsCounter.record fun f hf => ?_
  have hnames : counterNames.Nodup := by decide
  have hid := required_eq_some_iff (i := 0) hf hnames rfl readText_eq_some_iff
  have hvertex := required_eq_some_iff (i := 1) hf hnames rfl readText_eq_some_iff
  have hname := required_eq_some_iff (i := 2) hf hnames rfl readText_eq_some_iff
  have hcurrent := required_eq_some_iff (i := 3) hf hnames rfl readCount_eq_some_iff
  have htotal := required_eq_some_iff (i := 4) hf hnames rfl readCount_eq_some_iff
  have htimestamp := required_eq_some_iff (i := 5) hf hnames rfl readInstant_eq_some_iff
  have hstarted := nullable_eq_some_iff (i := 6) hf hnames rfl readInstant_eq_some_iff rfl
  have hcompleted := nullable_eq_some_iff (i := 7) hf hnames rfl readInstant_eq_some_iff rfl
  simp only [Option.bind_eq_bind, Option.bind_eq_some_iff, Option.pure_def, Option.some.injEq,
    hid, hvertex, hname, hcurrent, htotal, htimestamp, hstarted, hcompleted]
  constructor
  · rintro ⟨_, h0, _, h1, _, h2, _, h3, _, h4, _, h5, _, h6, _, h7, rfl⟩
    exact ⟨exists_of?_iff.mp ⟨f, hf⟩, h0, h1, h2, h3, h4, h5, h6, h7⟩
  · rintro ⟨-, h0, h1, h2, h3, h4, h5, h6, h7⟩
    exact ⟨_, h0, _, h1, _, h2, _, h3, _, h4, _, h5, _, h6, _, h7, rfl⟩

/-- A log is read from a record of a log. -/
theorem readLog_eq_some_iff (v : Json) (x : Log LogStream) : readLog v = some x ↔ IsLog v x := by
  refine bind_eq_some_iff_of_record logNames IsLog.record fun f hf => ?_
  have hnames : logNames.Nodup := by decide
  have hvertex := required_eq_some_iff (i := 0) hf hnames rfl readText_eq_some_iff
  have hstream := required_eq_some_iff (i := 1) hf hnames rfl readStream_eq_some_iff
  have hdata := required_eq_some_iff (i := 2) hf hnames rfl
    (readList_eq_some_iff readByte_eq_some_iff)
  have htimestamp := required_eq_some_iff (i := 3) hf hnames rfl readInstant_eq_some_iff
  simp only [Option.bind_eq_bind, Option.bind_eq_some_iff, Option.pure_def, Option.some.injEq,
    hvertex, hstream, hdata, htimestamp]
  constructor
  · rintro ⟨_, h0, _, h1, _, h2, _, h3, rfl⟩
    exact ⟨exists_of?_iff.mp ⟨f, hf⟩, h0, h1, h2, h3⟩
  · rintro ⟨-, h0, h1, h2, h3⟩
    exact ⟨_, h0, _, h1, _, h2, _, h3, rfl⟩

/-- A batch is read from a record of a batch. -/
theorem readStatus_eq_some_iff (v : Json) (x : StatusResponse) :
    readStatus v = some x ↔ IsBatch v x := by
  refine bind_eq_some_iff_of_record batchNames IsBatch.record fun f hf => ?_
  have hnames : batchNames.Nodup := by decide
  have hvertexes := withDefault_eq_some_iff (i := 0) hf hnames rfl
    (readList_eq_some_iff readVertex_eq_some_iff) []
  have hcounters := withDefault_eq_some_iff (i := 1) hf hnames rfl
    (readList_eq_some_iff readCounter_eq_some_iff) []
  have hlogs := withDefault_eq_some_iff (i := 2) hf hnames rfl
    (readList_eq_some_iff readLog_eq_some_iff) []
  simp only [Option.bind_eq_bind, Option.bind_eq_some_iff, Option.pure_def, Option.some.injEq,
    hvertexes, hcounters, hlogs]
  constructor
  · rintro ⟨_, h0, _, h1, _, h2, rfl⟩
    exact ⟨exists_of?_iff.mp ⟨f, hf⟩, h0, h1, h2⟩
  · rintro ⟨-, h0, h1, h2⟩
    exact ⟨_, h0, _, h1, _, h2, rfl⟩

/-- A value is read as a message exactly if it is one. -/
theorem EngineMessage.ofJson?_eq_some_iff (v : Json) (m : EngineMessage) :
    ofJson? v = some m ↔ IsMessage v m := by
  constructor
  · intro h
    unfold ofJson? at h
    -- One case for each name that a message can have, and one for all else.
    split at h
    · obtain ⟨batch, hbatch, rfl⟩ := Option.map_eq_some_iff.mp h
      exact .status ((readStatus_eq_some_iff _ _).mp hbatch)
    · obtain ⟨f, hf, rfl⟩ := Option.map_eq_some_iff.mp h
      exact .done (exists_of?_iff.mp ⟨f, hf⟩)
    · obtain ⟨text, htext, rfl⟩ := Option.map_eq_some_iff.mp h
      exact .error ((readText_eq_some_iff _ _).mp htext)
    · cases h
  · intro h
    cases h with
    | @status w batch hbatch =>
      show (readStatus w).map EngineMessage.status = _
      rw [(readStatus_eq_some_iff w batch).mpr hbatch]
      rfl
    | @done w hrecord =>
      obtain ⟨f, hf⟩ := exists_of?_iff.mpr hrecord
      show (Fields.of? [] w).map _ = _
      rw [hf]
      rfl
    | @error w text htext =>
      show (readText w).map EngineMessage.error = _
      rw [(readText_eq_some_iff w text).mpr htext]
      rfl

/-! ### What is written is a message -/

section
variable {fields : List (String × Json)} {names : List String} {name : String}

/-- What is written as a record is one if no field is written twice. -/
theorem isRecord_record (h : (fields.map (·.1)).Nodup) : IsRecord names (.record fields) := by
  refine .object (fun f hf => ?_) fun name _ => ?_
  · obtain ⟨g, -, rfl⟩ := List.mem_map.mp hf
    exact ⟨g.1, rfl⟩
  · have hkeys :
        (fields.map fun f => (some f.1, f.2)).map (·.1) = (fields.map (·.1)).map some := by
      rw [List.map_map, List.map_map]
      rfl
    rw [hkeys]
    exact List.nodup_iff_count_le_one.mp (h.map fun _ _ => Option.some.inj) _

/-- A record has the fields that were written. -/
theorem has_record {v : Json} (h : (name, v) ∈ fields) :
    Has names name (.record fields) (some v) :=
  .given (List.mem_map.mpr ⟨(name, v), h, rfl⟩)

/-- A field that was written is found by who needs it. -/
theorem needs_record {α : Type} {R : Json → α → Prop} {v : Json} {x : α} (h : (name, v) ∈ fields)
    (hv : R v x) : Needs names name R (.record fields) x :=
  ⟨v, has_record h, hv⟩

/-- The text of a point in time is read as that point. -/
def ReadsBack (t : Instant) : Prop := Instant.read? t.display = some t

/-- A time that was written, or null in its place, is found again. -/
theorem orNull_record {t : Option Instant} (h : (name, instantJson t) ∈ fields)
    (ht : ∀ t' ∈ t, ReadsBack t') : OrNull names name IsTime (.record fields) t := by
  cases t with
  | none => exact .null (has_record h)
  | some t => exact .value (needs_record h ⟨_, rfl, ht t rfl⟩)

end

/-- A list is written element by element. -/
theorem isList_map {α : Type} {R : Json → α → Prop} {write : α → Json} {xs : List α}
    (h : ∀ x ∈ xs, R (write x) x) : IsList R (.arr (xs.map write)) xs :=
  ⟨_, rfl, List.forall₂_map_left_iff.mpr (List.forall₂_same.mpr h)⟩

/-- The points in time of the vertex are read back. -/
structure Vertex.IsWritable (x : Vertex) : Prop where
  started : ∀ t ∈ x.started, ReadsBack t
  completed : ∀ t ∈ x.completed, ReadsBack t

/-- The points in time of the counter are read back, and words with sign hold its numbers. -/
structure Counter.IsWritable (x : Counter) : Prop where
  current : -2 ^ 63 ≤ x.current ∧ x.current < 2 ^ 63
  total : -2 ^ 63 ≤ x.total ∧ x.total < 2 ^ 63
  timestamp : ReadsBack x.timestamp
  started : ∀ t ∈ x.started, ReadsBack t
  completed : ∀ t ∈ x.completed, ReadsBack t

/-- Everything in the batch is read back. -/
structure Batch.IsWritable (b : StatusResponse) : Prop where
  vertexes : ∀ x ∈ b.vertexes, x.IsWritable
  counters : ∀ x ∈ b.counters, x.IsWritable
  logs : ∀ x ∈ b.logs, ReadsBack x.timestamp

/-- A vertex is written as a record of this vertex. -/
theorem isVertex_toJson {x : Vertex} (h : x.IsWritable) : IsVertex x.toJson x where
  record := isRecord_record (by simp)
  digest := needs_record (by simp) rfl
  inputs := .inl (needs_record (by simp) (isList_map fun _ _ => rfl))
  name := needs_record (by simp) rfl
  cached := .inl (needs_record (by simp) rfl)
  started := orNull_record (by simp) h.started
  completed := orNull_record (by simp) h.completed
  error := .inl (needs_record (by simp) rfl)

/-- A counter is written as a record of this counter. -/
theorem isCounter_toJson {x : Counter} (h : x.IsWritable) : IsCounter x.toJson x where
  record := isRecord_record (by simp)
  id := needs_record (by simp) rfl
  vertex := needs_record (by simp) rfl
  name := needs_record (by simp) rfl
  current := needs_record (by simp) ⟨rfl, h.current⟩
  total := needs_record (by simp) ⟨rfl, h.total⟩
  timestamp := needs_record (by simp) ⟨_, rfl, h.timestamp⟩
  started := orNull_record (by simp) h.started
  completed := orNull_record (by simp) h.completed

/-- A log is written as a record of this log. -/
theorem isLog_toJson {x : Log LogStream} (h : ReadsBack x.timestamp) :
    IsLog (x.toJson fun s => .text s.name) x where
  record := isRecord_record (by simp)
  vertex := needs_record (by simp) rfl
  stream := needs_record (by simp) (.inl rfl)
  data := needs_record (by simp) (isList_map fun _ _ => rfl)
  timestamp := needs_record (by simp) ⟨_, rfl, h⟩

/-- A batch is written as a record of this batch. -/
theorem isBatch_responseJson {b : StatusResponse} (h : b.IsWritable) :
    IsBatch (responseJson b) b where
  record := isRecord_record (by simp)
  vertexes := .inl (needs_record (by simp)
    (isList_map fun x hx => isVertex_toJson (h.vertexes x hx)))
  counters := .inl (needs_record (by simp)
    (isList_map fun x hx => isCounter_toJson (h.counters x hx)))
  logs := .inl (needs_record (by simp) (isList_map fun x hx => isLog_toJson (h.logs x hx)))

/-- The end of a solve, an error and a batch that can be written are written as what they are. -/
theorem isMessage_toJson {m : EngineMessage} (h : ∀ batch, m = .status batch → batch.IsWritable) :
    IsMessage m.toJson m := by
  cases m with
  | status batch => exact .status (isBatch_responseJson (h batch rfl))
  | done => exact .done (isRecord_record (by simp))
  | error text => exact .error rfl

/-- The reader takes what is written for a message as the message. -/
theorem EngineMessage.ofJson?_toJson {m : EngineMessage}
    (h : ∀ batch, m = .status batch → batch.IsWritable) : ofJson? m.toJson = some m :=
  (ofJson?_eq_some_iff _ _).mpr (isMessage_toJson h)

end ImageBuild.Progress
