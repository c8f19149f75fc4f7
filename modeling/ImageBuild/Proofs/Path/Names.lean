import ImageBuild.Path

/-!
# `ImageBuild.Proofs.Path.Names`: names joined onto a path

Most paths in this library are a root with a list of names behind it, `root.join (ofNames names)`.
The text of such a path depends on how the root is spelled: a root that is empty or ends in a
slash gets no further one. What the path means does not depend on it, and this module says so:

* `segments_join`: the segments of the joined path are the root's (`stem`) and then the names.
* `components_join`: its components are the root's and then the names.
* `parent?_join`: without its last name it is the same root with one name less.
* `components_parent?`: the parent of any path has its components but the last.
* `parent?_join_single`: without its only name it is the root, perhaps spelled in another way.
* `join_join`: names joined in two steps are joined in one.
-/

set_option autoImplicit false

namespace ImageBuild

/-- A segment that names an entry of a directory: it is not empty, has no slash, and is neither
`.` nor `..`. -/
structure IsName (n : Bytes) : Prop where
  ne_nil : n ≠ []
  slash_notMem : slash ∉ n
  ne_dot : n ≠ dot
  ne_dotDot : n ≠ dotDot

instance (n : Bytes) : Decidable (IsName n) :=
  decidable_of_iff (n ≠ [] ∧ slash ∉ n ∧ n ≠ dot ∧ n ≠ dotDot)
    ⟨fun ⟨h₁, h₂, h₃, h₄⟩ => ⟨h₁, h₂, h₃, h₄⟩, fun ⟨h₁, h₂, h₃, h₄⟩ => ⟨h₁, h₂, h₃, h₄⟩⟩

/-- A name is a step. -/
theorem IsName.isStep {n : Bytes} (h : IsName n) : Path.isStep n = true := by
  simp [Path.isStep, h.ne_nil, h.ne_dot]

/-- A name is a normal component. -/
theorem IsName.componentOf {n : Bytes} (h : IsName n) : Path.componentOf n = .normal n := by
  simp [Path.componentOf, h.ne_dotDot]

namespace Path

/-! ### Segments -/

/-- The segments that are not empty. -/
def steps (p : Path) : List Bytes := p.segments.filter fun s => !s.isEmpty

/-- The segments that are still there when a name is joined onto the path: an empty path and a
slash at the end leave none for the name to follow. -/
def stem (p : Path) : List Bytes :=
  if p.isEmpty then []
  else if p.bytes.getLast? == some slash then p.segments.dropLast
  else p.segments

/-- A path has a segment, be it an empty one. -/
theorem segments_ne_nil (p : Path) : p.segments ≠ [] := List.splitOn_ne_nil slash p.bytes

/-- No segment has a slash. -/
theorem slash_notMem_of_mem_segments {p : Path} {s : Bytes} (h : s ∈ p.segments) : slash ∉ s := by
  obtain ⟨bytes⟩ := p
  unfold segments at h
  induction bytes generalizing s with
  | nil => simp at h; simp [h]
  | cons b bs ih =>
    rw [List.splitOn_cons_eq_if_modifyHead] at h
    split at h
    · rcases List.mem_cons.mp h with rfl | h
      · simp
      · exact ih h
    · next hb =>
      obtain ⟨first, rest, heq⟩ := List.exists_cons_of_ne_nil (List.splitOn_ne_nil slash bs)
      simp only [heq, List.modifyHead_cons, List.mem_cons] at h ih
      rcases h with rfl | h
      · have := ih (Or.inl rfl)
        simp only [beq_iff_eq] at hb
        simp [this, Ne.symm hb]
      · exact ih (Or.inr h)

/-- A slash at the end of a path shows as an empty last segment. -/
theorem segments_concat_slash (bytes : Bytes) :
    Path.segments ⟨bytes ++ [slash]⟩ = Path.segments ⟨bytes⟩ ++ [[]] := by
  simp [segments, List.splitOn_append_cons_self]

/-- A path that ends in a slash, cut before it. -/
theorem exists_concat_slash {p : Path} (h : p.bytes.getLast? = some slash) :
    ∃ front : Bytes, p = ⟨front ++ [slash]⟩ := by
  obtain ⟨bytes⟩ := p
  obtain ⟨front, rfl⟩ := List.getLast?_eq_some_iff.mp h
  exact ⟨front, rfl⟩

/-- A text put together from segments without slashes has just these segments. -/
theorem segments_intercalate {segments : List Bytes} (hne : segments ≠ [])
    (h : ∀ s ∈ segments, slash ∉ s) :
    Path.segments ⟨[slash].intercalate segments⟩ = segments :=
  List.splitOn_intercalate slash h hne

/-- A path is absolute if its first segment is empty and others follow. -/
theorem isAbsolute_intercalate (first : Bytes) (rest : List Bytes) (h : slash ∉ first) :
    Path.isAbsolute ⟨[slash].intercalate (first :: rest)⟩ = (first.isEmpty && !rest.isEmpty) := by
  cases first with
  | nil =>
    cases rest with
    | nil => rfl
    | cons second more => rw [List.intercalate_cons_cons]; rfl
  | cons b bs =>
    have hb : (b == slash) = false := by
      rw [beq_eq_false_iff_ne]; rintro rfl; exact h List.mem_cons_self
    rw [List.intercalate_cons_cons_left]
    simp [isAbsolute, hb]

/-- The segments of a path make up the path. -/
theorem intercalate_segments (p : Path) : (⟨[slash].intercalate p.segments⟩ : Path) = p := by
  obtain ⟨bytes⟩ := p
  simp [segments]

/-- Whether a path is absolute, by its segments. -/
theorem isAbsolute_of_segments {p : Path} {first : Bytes} {rest : List Bytes}
    (h : p.segments = first :: rest) : p.isAbsolute = (first.isEmpty && !rest.isEmpty) := by
  have hslash : slash ∉ first :=
    slash_notMem_of_mem_segments (by rw [h]; exact List.mem_cons_self)
  rw [← intercalate_segments p, h, isAbsolute_intercalate first rest hslash]

/-- The components of a path, by its segments. -/
theorem components_of_segments {p : Path} {first : Bytes} {rest : List Bytes}
    (h : p.segments = first :: rest) :
    p.components =
      (if first.isEmpty && !rest.isEmpty then [.root]
        else if first = dot then [Component.here] else []) ++
      ((first :: rest).filter isStep).map componentOf := by
  simp [components, isAbsolute_of_segments h, h]

/-! ### Joining names -/

section
variable {names : List Name} (hnames : ∀ n ∈ names, IsName n)
include hnames

/-- The segments of a path made of names are the names. -/
theorem segments_ofNames (hne : names ≠ []) : (ofNames names).segments = names :=
  segments_intercalate hne fun n hn => (hnames n hn).slash_notMem

/-- A path made of names is relative. -/
theorem isAbsolute_ofNames : (ofNames names).isAbsolute = false := by
  cases names with
  | nil => rfl
  | cons n rest =>
    have hn := hnames n List.mem_cons_self
    rw [ofNames, isAbsolute_intercalate n rest hn.slash_notMem]
    simp [hn.ne_nil]

/-- It is not empty if there are names. -/
theorem isEmpty_ofNames (hne : names ≠ []) : (ofNames names).isEmpty = false := by
  have hseg := segments_ofNames hnames hne
  cases h : (ofNames names).isEmpty with
  | false => rfl
  | true =>
    have hbytes : (ofNames names).bytes = [] := by simpa [isEmpty] using h
    have hmem : ([] : Bytes) ∈ names := by rw [← hseg]; simp [segments, hbytes]
    exact absurd rfl (hnames [] hmem).ne_nil

/-- The segments of a path with names joined onto it. -/
theorem segments_join (hne : names ≠ []) (p : Path) :
    (p.join (ofNames names)).segments = p.stem ++ names := by
  have habs := isAbsolute_ofNames hnames
  have hseg := segments_ofNames hnames hne
  unfold segments at hseg
  unfold join stem
  rw [habs]
  -- Between root and names the text is cut at the slash that the joining adds, or at the root's
  -- own.
  cases hempty : p.isEmpty with
  | true =>
    have hp : p.bytes = [] := by simpa [isEmpty] using hempty
    simp [hp, segments, hseg]
  | false =>
    cases hlast : (p.bytes.getLast? == some slash) with
    | false =>
      simp only [Bool.false_eq_true, if_false, Bool.or_self, segments]
      rw [List.splitOn_append_cons_self, hseg]
    | true =>
      obtain ⟨front, hfront⟩ : ∃ front, p.bytes = front ++ [slash] :=
        List.getLast?_eq_some_iff.mp (by simpa using hlast)
      simp only [Bool.false_eq_true, if_false, Bool.or_true, if_true, segments, hfront]
      rw [List.append_assoc, List.singleton_append, List.splitOn_append_cons_self,
        List.splitOn_append_cons_self, hseg]
      simp

/-- A path with names joined onto it, as its segments spell it. -/
theorem join_eq_intercalate (hne : names ≠ []) (p : Path) :
    p.join (ofNames names) = ⟨[slash].intercalate (p.stem ++ names)⟩ := by
  rw [← segments_join hnames hne p, intercalate_segments]

/-- Joining names does not change where a path starts. -/
theorem isAbsolute_join (p : Path) : (p.join (ofNames names)).isAbsolute = p.isAbsolute := by
  have habs := isAbsolute_ofNames hnames
  unfold join
  rw [habs]
  obtain ⟨bytes⟩ := p
  cases bytes with
  | nil => exact habs
  | cons b bs => cases (b :: bs).getLast? == some slash <;> simp [isAbsolute, isEmpty]

end

/-- What the joining of names leaves out of the segments is empty. -/
theorem filter_stem (p : Path) (keep : Bytes → Bool) (hkeep : keep [] = false) :
    p.stem.filter keep = p.segments.filter keep := by
  unfold stem
  split
  · next h =>
    have hp : p.bytes = [] := by simpa [isEmpty] using h
    simp [segments, hp, hkeep]
  · split
    · next h =>
      obtain ⟨front, rfl⟩ := exists_concat_slash (by simpa using h)
      rw [segments_concat_slash, List.dropLast_concat, List.filter_append]
      simp [hkeep]
    · rfl

/-- Joining names keeps the first segment of a path that has one. -/
theorem head?_stem (p : Path) (h : p.isEmpty = false) : p.stem.head? = p.segments.head? := by
  unfold stem
  rw [h]
  simp only [Bool.false_eq_true, if_false]
  split
  · next hlast =>
    obtain ⟨front, rfl⟩ := exists_concat_slash (by simpa using hlast)
    obtain ⟨first, rest, heq⟩ := List.exists_cons_of_ne_nil (segments_ne_nil ⟨front⟩)
    rw [segments_concat_slash, List.dropLast_concat, heq]
    rfl
  · rfl

/-- A path that is not empty has segments for names to follow, of which the first may be empty. -/
theorem exists_stem_cons {p : Path} (h : p.isEmpty = false) :
    ∃ first rest, p.stem = first :: rest := by
  refine List.exists_cons_of_ne_nil fun hnil => ?_
  have hhead := head?_stem p h
  rw [hnil] at hhead
  exact segments_ne_nil p (List.head?_eq_none_iff.mp hhead.symm)

/-- Only the empty path has nothing but an empty segment. -/
theorem isEmpty_of_segments_ne {p : Path} (h : p.segments ≠ [[]]) : p.isEmpty = false := by
  cases hp : p.isEmpty with
  | false => rfl
  | true =>
    have hbytes : p.bytes = [] := by simpa [isEmpty] using hp
    exact absurd (by rw [segments, hbytes]; rfl) h

section
variable {names : List Name} (hnames : ∀ n ∈ names, IsName n)
include hnames

/-- The segments that are not empty of a path with names joined onto it. -/
theorem steps_join (hne : names ≠ []) (p : Path) :
    (p.join (ofNames names)).steps = p.steps ++ names := by
  unfold steps
  rw [segments_join hnames hne p, List.filter_append, filter_stem p _ rfl]
  congr 1
  exact List.filter_eq_self.mpr fun n hn => by simp [(hnames n hn).ne_nil]

/-- The components of a path with names joined onto it: the path's, and then the names. -/
theorem components_join (hne : names ≠ []) (p : Path) :
    (p.join (ofNames names)).components = p.components ++ names.map .normal := by
  have hsteps : names.filter isStep = names :=
    List.filter_eq_self.mpr fun n hn => (hnames n hn).isStep
  have hcomponents : names.map componentOf = names.map .normal :=
    List.map_congr_left fun n hn => (hnames n hn).componentOf
  -- A leading `.` is the root's. Behind an empty root the first segment is a name, which is none.
  have hhead : (p.stem ++ names).head? = some dot ↔ p.segments.head? = some dot := by
    cases hempty : p.isEmpty with
    | false =>
      obtain ⟨first, rest, hstem⟩ := exists_stem_cons hempty
      rw [← head?_stem p hempty, hstem]
      rfl
    | true =>
      have hp : p.bytes = [] := by simpa [isEmpty] using hempty
      obtain ⟨n, rest, rfl⟩ := List.exists_cons_of_ne_nil hne
      have hn := (hnames n List.mem_cons_self).ne_dot
      simp [stem, hempty, segments, hp, dot] at hn ⊢
      exact hn
  unfold components
  rw [segments_join hnames hne p, isAbsolute_join hnames, List.filter_append,
    filter_stem p _ rfl, hsteps, List.map_append, hcomponents]
  simp only [hhead, List.append_assoc]

end

/-- Only names are ordinary components. -/
theorem isName_of_mem_components {p : Path} {n : Name} (h : .normal n ∈ p.components) :
    IsName n := by
  unfold components at h
  rcases List.mem_append.mp h with h | h
  · repeat' split at h
    all_goals simp at h
  · obtain ⟨s, hs, hc⟩ := List.mem_map.mp h
    obtain ⟨hmem, hstep⟩ := List.mem_filter.mp hs
    have hslash := slash_notMem_of_mem_segments hmem
    simp only [isStep, Bool.and_eq_true, bne_iff_ne, ne_eq, Bool.not_eq_true',
      List.isEmpty_eq_false_iff] at hstep
    unfold componentOf at hc
    split at hc
    · cases hc
    · next hdotDot =>
      cases hc
      exact ⟨hstep.1, hslash, hstep.2, hdotDot⟩

/-- The segments that mean a step are the non-empty ones other than `.`. -/
theorem filter_steps (p : Path) : p.steps.filter isStep = p.segments.filter isStep := by
  rw [steps, List.filter_filter]
  refine List.filter_congr fun s _ => ?_
  cases hs : s.isEmpty <;> simp [isStep, hs]

/-- A component tells its segment. -/
theorem componentOf_injective {s s' : Bytes} (h : componentOf s = componentOf s') : s = s' := by
  unfold componentOf at h
  split at h <;> split at h <;> simp_all

/-- A path that is not empty and not absolute starts with a segment that is not empty. -/
theorem exists_segments_of_relative {p : Path} (hne : p.isEmpty = false)
    (habs : p.isAbsolute = false) : ∃ first rest, p.segments = first :: rest ∧ first ≠ [] := by
  obtain ⟨first, rest, hsegments⟩ := List.exists_cons_of_ne_nil (segments_ne_nil p)
  refine ⟨first, rest, hsegments, ?_⟩
  rintro rfl
  rw [isAbsolute_of_segments hsegments] at habs
  obtain rfl : rest = [] := by simpa using habs
  have hp := intercalate_segments p
  rw [hsegments, List.intercalate_singleton] at hp
  rw [← hp] at hne
  cases hne

/-- Without a root or a leading `.`, the components are those of the steps. -/
theorem filter_components (p : Path) :
    p.components.filter (fun c => c != .root && c != .here) =
      (p.segments.filter isStep).map componentOf := by
  have hleading : ∀ c ∈ (if p.isAbsolute then [Component.root]
      else if p.segments.head? = some dot then [.here] else []), c = .root ∨ c = .here := by
    intro c hc
    split at hc
    · exact Or.inl (by simpa using hc)
    · split at hc
      · exact Or.inr (by simpa using hc)
      · cases hc
  unfold components
  rw [List.filter_append, List.filter_eq_nil_iff.mpr, List.nil_append]
  · refine List.filter_eq_self.mpr fun c hc => ?_
    obtain ⟨s, -, rfl⟩ := List.mem_map.mp hc
    unfold componentOf
    split <;> rfl
  · intro c hc
    rcases hleading c hc with rfl | rfl <;> decide

/-- Only an absolute path starts with the root. -/
theorem head?_components_eq_root_iff (p : Path) :
    p.components.head? = some .root ↔ p.isAbsolute = true := by
  cases habs : p.isAbsolute with
  | true => simp [components, habs]
  | false =>
    refine iff_of_false (fun hhead => ?_) (by simp)
    have hmem := List.mem_of_mem_head? hhead
    unfold components at hmem
    rw [habs, List.mem_append] at hmem
    rcases hmem with hmem | hmem
    · simp only [Bool.false_eq_true, if_false] at hmem
      split at hmem <;> simp at hmem
    · obtain ⟨s, -, hs⟩ := List.mem_map.mp hmem
      unfold componentOf at hs
      split at hs <;> cases hs

/-- Only the empty path has no components. -/
theorem components_ne_nil {p : Path} (hp : p.isEmpty = false) : p.components ≠ [] := by
  unfold components
  cases habs : p.isAbsolute with
  | true => simp
  | false =>
    obtain ⟨first, rest, hsegments, hfirst⟩ := exists_segments_of_relative hp habs
    by_cases hdot : first = dot
    · simp [hsegments, hdot]
    · simp [hsegments, hdot, hfirst, isStep]

/-- If the components of a path are the first of another's, then so are its segments, but for
dots. -/
theorem filter_steps_prefix {p q : Path} (hq : q.isEmpty = false)
    (h : q.components <+: p.components) :
    q.isAbsolute = p.isAbsolute ∧
      q.steps.filter isStep <+: p.steps.filter isStep := by
  constructor
  · have hhead : q.components.head? = p.components.head? := by
      obtain ⟨c, rest, hc⟩ := List.exists_cons_of_ne_nil (components_ne_nil hq)
      obtain ⟨more, hmore⟩ := h
      rw [← hmore, hc]
      rfl
    rw [Bool.eq_iff_iff, ← head?_components_eq_root_iff, ← head?_components_eq_root_iff, hhead]
  · have hsteps := h.filter fun c => c != .root && c != .here
    rw [filter_components, filter_components] at hsteps
    rw [filter_steps, filter_steps]
    exact (List.prefix_map_iff_of_injective fun _ _ => componentOf_injective).mp hsteps

/-- The components of the relative path with some names are these names. -/
theorem components_ofNames {names : List Name} (hnames : ∀ n ∈ names, IsName n) :
    (ofNames names).components = names.map .normal := by
  cases names with
  | nil => rfl
  | cons n rest =>
    have hjoin : (⟨[]⟩ : Path).join (ofNames (n :: rest)) = ofNames (n :: rest) := by
      simp [join, isAbsolute_ofNames hnames, isEmpty]
    rw [← hjoin, components_join hnames (by simp)]
    rfl

/-! ### Joining in two steps -/

section
variable {names : List Name} (hnames : ∀ n ∈ names, IsName n)
include hnames

/-- A path with names joined onto it ends in no slash. -/
theorem getLast?_join_ne_slash (hne : names ≠ []) (p : Path) :
    (p.join (ofNames names)).bytes.getLast? ≠ some slash := by
  intro h
  -- The last segment would be empty, but it is the last name.
  obtain ⟨text, htext⟩ := exists_concat_slash h
  have hsegments := segments_join hnames hne p
  rw [htext, segments_concat_slash] at hsegments
  obtain ⟨front, last, rfl⟩ : ∃ front last, names = front ++ [last] :=
    ⟨names.dropLast, names.getLast hne, (List.dropLast_concat_getLast hne).symm⟩
  rw [← List.append_assoc] at hsegments
  have hlast := (List.append_inj' hsegments rfl).2
  exact (hnames last (by simp)).ne_nil (by simpa using hlast.symm)

/-- A path with names joined is not empty. -/
theorem isEmpty_join (hne : names ≠ []) (p : Path) :
    (p.join (ofNames names)).isEmpty = false := by
  have hempty := isEmpty_ofNames hnames hne
  unfold join
  rw [isAbsolute_ofNames hnames]
  simp only [isEmpty] at hempty
  split
  · next h => cases h
  · split <;> simp_all [isEmpty]

/-- The next names follow right behind the names that were joined before. -/
theorem stem_join (p : Path) : (p.join (ofNames names)).stem = p.stem ++ names := by
  by_cases hne : names = []
  · subst hne
    obtain ⟨bytes⟩ := p
    have hnil : ofNames [] = ⟨[]⟩ := rfl
    rw [hnil, List.append_nil]
    unfold join
    cases hempty : (⟨bytes⟩ : Path).isEmpty <;> cases hlast : (bytes.getLast? == some slash)
    · simp [stem, isAbsolute, isEmpty, hlast, segments, List.splitOn_append_cons_self] at hempty ⊢
      simp [hempty]
    all_goals simp [isAbsolute]
  · unfold stem
    rw [isEmpty_join hnames hne, segments_join hnames hne]
    simp [getLast?_join_ne_slash hnames hne, stem]

/-- Names joined in two steps are joined in one. -/
theorem join_join {more : List Name} (hmore : ∀ n ∈ more, IsName n) (hne : more ≠ [])
    (p : Path) :
    (p.join (ofNames names)).join (ofNames more) = p.join (ofNames (names ++ more)) := by
  have hall : ∀ n ∈ names ++ more, IsName n := fun n hn =>
    (List.mem_append.mp hn).elim (hnames n) (hmore n)
  rw [join_eq_intercalate hmore hne, join_eq_intercalate hall (by simp [hne]), stem_join hnames,
    List.append_assoc]

end

/-- The text of a path with some of the names joined onto it is at the front of the text with
all. -/
theorem bytes_join_prefix {names more : List Name} (hnames : ∀ n ∈ names, IsName n)
    (hmore : ∀ n ∈ more, IsName n) (p : Path) :
    (p.join (ofNames names)).bytes <+: (p.join (ofNames (names ++ more))).bytes := by
  by_cases hne : more = []
  · simp [hne]
  · rw [← join_join hnames hmore hne]
    generalize p.join (ofNames names) = q
    unfold join
    rw [isAbsolute_ofNames hmore]
    split
    · next h => cases h
    · split <;> exact List.prefix_append _ _

/-! ### Slashes at the end -/

/-- A slash at the end of a path says nothing, unless it is all there is. -/
theorem components_concat_slash {bytes : Bytes} (hne : bytes ≠ []) :
    Path.components ⟨bytes ++ [slash]⟩ = Path.components ⟨bytes⟩ := by
  have habs : Path.isAbsolute ⟨bytes ++ [slash]⟩ = Path.isAbsolute ⟨bytes⟩ := by
    obtain ⟨b, bs, rfl⟩ := List.exists_cons_of_ne_nil hne
    rfl
  have hhead : (Path.segments ⟨bytes⟩ ++ [[]]).head? = (Path.segments ⟨bytes⟩).head? := by
    obtain ⟨first, rest, h⟩ := List.exists_cons_of_ne_nil (segments_ne_nil ⟨bytes⟩)
    rw [h]
    rfl
  unfold components
  rw [habs, segments_concat_slash, hhead, List.filter_append]
  simp [isStep]

/-- Joining no name onto a path puts a slash at its end, unless it is empty or has one. -/
theorem join_nil (p : Path) :
    p.join (ofNames []) =
      if p.isEmpty || p.bytes.getLast? == some slash then p else ⟨p.bytes ++ [slash]⟩ := by
  have hnil : ofNames [] = ⟨[]⟩ := rfl
  have hrelative : Path.isAbsolute ⟨[]⟩ = false := rfl
  rw [hnil, join, hrelative, if_neg (by simp), List.append_nil]

/-- Joining no name onto a path leaves its components. -/
theorem components_join_nil (p : Path) : (p.join (ofNames [])).components = p.components := by
  rw [join_nil]
  split
  · rfl
  · next h =>
    refine components_concat_slash ?_
    intro hnil
    exact h (by simp [isEmpty, hnil])

/-- Joining no name onto a path leaves the segments that are not empty. -/
theorem steps_join_nil (p : Path) : (p.join (ofNames [])).steps = p.steps := by
  rw [join_nil]
  split
  · rfl
  · rw [steps, segments_concat_slash, List.filter_append]
    simp [steps]

/-- A path with no name joined onto it ends in a slash, unless it is empty. -/
theorem getLast?_join_nil {p : Path} (h : (p.join (ofNames [])).isEmpty = false) :
    (p.join (ofNames [])).bytes.getLast? = some slash := by
  rw [join_nil] at h ⊢
  split
  · next hor =>
    rw [if_pos hor] at h
    rw [h, Bool.false_or, beq_iff_eq] at hor
    exact hor
  · exact List.getLast?_concat

/-- Some of the segments make a leading part of the text. -/
theorem intercalate_prefix {front : List Bytes} (hne : front ≠ []) (back : List Bytes) :
    [slash].intercalate front <+: [slash].intercalate (front ++ back) := by
  induction front with
  | nil => exact absurd rfl hne
  | cons first more ih =>
    cases more with
    | nil =>
      cases back with
      | nil => exact List.prefix_rfl
      | cons s rest =>
        rw [List.intercalate_singleton, List.cons_append, List.nil_append,
          List.intercalate_cons_cons, List.append_assoc]
        exact List.prefix_append _ _
    | cons second more =>
      rw [List.cons_append, List.cons_append, List.intercalate_cons_cons,
        List.intercalate_cons_cons]
      exact (List.prefix_append_right_inj _).mpr (ih (by simp))

/-! ### NUL bytes -/

/-- The bytes of a segment are bytes of the path. -/
theorem mem_intercalate {l : List Bytes} {s : Bytes} {b : UInt8} (hs : s ∈ l) (hb : b ∈ s) :
    b ∈ [slash].intercalate l := by
  induction l with
  | nil => simp at hs
  | cons first rest ih =>
    cases rest with
    | nil =>
      rw [List.mem_singleton.mp hs] at hb
      rwa [List.intercalate_singleton]
    | cons second more =>
      rw [List.intercalate_cons_cons]
      rcases List.mem_cons.mp hs with rfl | hs
      · simp [hb]
      · exact List.mem_append_right _ (ih hs)

/-- A NUL byte in a joined name is one in the path. -/
theorem nul_notMem_of_join {names : List Name} (hnames : ∀ n ∈ names, IsName n) {p : Path}
    (h : (p.join (ofNames names)).hasNul = false) : ∀ n ∈ names, 0 ∉ n := by
  intro n hn hzero
  have hne : names ≠ [] := List.ne_nil_of_mem hn
  rw [join_eq_intercalate hnames hne] at h
  have hmem := mem_intercalate (List.mem_append_right p.stem hn) hzero
  simp [hasNul, hmem] at h

/-- A name that is a component is a segment. -/
theorem mem_segments_of_mem_components {p : Path} {n : Name} (h : .normal n ∈ p.components) :
    n ∈ p.segments := by
  unfold components at h
  rcases List.mem_append.mp h with h | h
  · repeat' split at h
    all_goals simp at h
  · obtain ⟨s, hs, hc⟩ := List.mem_map.mp h
    unfold componentOf at hc
    split at hc
    · cases hc
    · cases hc; exact (List.mem_filter.mp hs).1

/-- No component of a path without NUL bytes has one. -/
theorem nul_notMem_of_mem_components {p : Path} (hp : p.hasNul = false) {n : Name}
    (h : .normal n ∈ p.components) : 0 ∉ n := by
  intro hzero
  have hmem := mem_intercalate (mem_segments_of_mem_components h) hzero
  have hbytes : [slash].intercalate p.segments = p.bytes :=
    congrArg Path.bytes (intercalate_segments p)
  rw [hbytes] at hmem
  simp [hasNul, hmem] at hp

/-- A name that is a component is no longer than the path. -/
theorem length_le_of_mem_components {p : Path} {n : Name} (h : .normal n ∈ p.components) :
    n.length ≤ p.bytes.length := by
  have key : ∀ l : List Bytes, n ∈ l → n.length ≤ ([slash].intercalate l).length := by
    intro l hn
    obtain ⟨front, back, rfl⟩ := List.append_of_mem hn
    induction front with
    | nil =>
      have hahead := intercalate_prefix (List.cons_ne_nil n []) back
      rw [List.intercalate_singleton] at hahead
      exact hahead.length_le
    | cons first rest ih =>
      obtain ⟨second, more, hmore⟩ :=
        List.exists_cons_of_ne_nil (show rest ++ n :: back ≠ [] by simp)
      have hrest := ih (by simp)
      rw [hmore] at hrest
      rw [List.cons_append, hmore, List.intercalate_cons_cons, List.length_append]
      omega
  have hbytes : [slash].intercalate p.segments = p.bytes :=
    congrArg Path.bytes (intercalate_segments p)
  rw [← hbytes]
  exact key _ (mem_segments_of_mem_components h)

/-- Joining brings no nul. -/
theorem hasNul_join {p q : Path} (hp : p.hasNul = false) (hq : q.hasNul = false) :
    (p.join q).hasNul = false := by
  have hslash : (0 : UInt8) ≠ slash := by decide
  simp only [hasNul, List.contains_eq_mem, decide_eq_false_iff_not] at hp hq ⊢
  unfold join
  split
  · exact hq
  · split <;> simp [hp, hq, hslash]

/-- Names without a nul make a path without one. -/
theorem hasNul_ofNames {names : List Name} (h : ∀ n ∈ names, 0 ∉ n) :
    (ofNames names).hasNul = false := by
  have key : 0 ∉ [slash].intercalate names := by
    induction names with
    | nil => simp [List.intercalate_nil]
    | cons first rest ih =>
      have hfirst := h first List.mem_cons_self
      have hrest := ih fun n hn => h n (List.mem_cons_of_mem _ hn)
      cases rest with
      | nil => rwa [List.intercalate_singleton]
      | cons second more =>
        have hslash : (0 : UInt8) ≠ slash := by decide
        rw [List.intercalate_cons_cons]
        simp [hfirst, hrest, hslash]
  simp [hasNul, ofNames, key]

/-! ### Parents -/

/-- Segments that mean no step at the end are all that `trimSegments` leaves out. -/
theorem filter_trimSegments (l : List Bytes) :
    (trimSegments l).filter isStep = l.filter isStep := by
  have key : ∀ r : List Bytes, (r.dropWhile fun s => !isStep s).filter isStep =
      r.filter isStep := by
    intro r
    induction r with
    | nil => rfl
    | cons s rest ih => cases h : isStep s <;> simp [h, ih]
  unfold trimSegments
  rw [List.filter_reverse, key, ← List.filter_reverse, List.reverse_reverse]

/-- Trimmed segments end in a step. -/
theorem trimSegments_eq_nil_or (l : List Bytes) :
    trimSegments l = [] ∨ ∃ front s, trimSegments l = front ++ [s] ∧ isStep s = true := by
  have key : ∀ r : List Bytes, (r.dropWhile fun s => !isStep s) = [] ∨
      ∃ s rest, (r.dropWhile fun s => !isStep s) = s :: rest ∧ isStep s = true := by
    intro r
    induction r with
    | nil => exact Or.inl rfl
    | cons s rest ih =>
      cases h : isStep s with
      | false => simpa [h] using ih
      | true => exact Or.inr ⟨s, rest, by simp [h], h⟩
  unfold trimSegments
  rcases key l.reverse with h | ⟨s, rest, h, hs⟩
  · exact Or.inl (by rw [h]; rfl)
  · exact Or.inr ⟨rest.reverse, s, by rw [h]; simp, hs⟩

/-- Segments that end in a step are trimmed already. -/
theorem trimSegments_concat (front : List Bytes) {s : Bytes} (h : isStep s = true) :
    trimSegments (front ++ [s]) = front ++ [s] := by
  simp [trimSegments, h]

/-- Trimmed segments have no slash, as before. -/
theorem slash_notMem_of_mem_trimSegments {l : List Bytes} {s : Bytes}
    (hl : ∀ s ∈ l, slash ∉ s) (h : s ∈ trimSegments l) : slash ∉ s := by
  refine hl s ?_
  unfold trimSegments at h
  exact List.mem_reverse.mp ((List.dropWhile_sublist _).mem (List.mem_reverse.mp h))

/-- The parent of a path in which the first segment is not the only one that says something. -/
theorem parent?_of_trimSegments {p : Path} {first last : Bytes} {rest front : List Bytes}
    (hseg : p.segments = first :: rest) (htrim : trimSegments rest = front ++ [last]) :
    p.parent? =
      if trimSegments front = [] then
        if first.isEmpty then some ⟨[slash]⟩ else some ⟨first⟩
      else some ⟨[slash].intercalate (first :: trimSegments front)⟩ := by
  have hrest : rest ≠ [] := by rintro rfl; simp [trimSegments] at htrim
  have habs := isAbsolute_of_segments hseg
  unfold parent?
  rw [hseg]
  simp only [htrim]
  split
  · next h => simp at h
  · rw [List.dropLast_concat]
    cases hkept : trimSegments front with
    | nil => cases hfirst : first.isEmpty <;> simp [habs, hfirst, hrest]
    | cons s more => simp

/-- The parent of a path with names joined onto it has one name less, if one is left. -/
theorem parent?_join {names : List Name} {n : Name} (hne : names ≠ [])
    (hnames : ∀ m ∈ names, IsName m) (hn : IsName n) (p : Path) :
    (p.join (ofNames (names ++ [n]))).parent? = some (p.join (ofNames names)) := by
  have hall : ∀ m ∈ names ++ [n], IsName m := by
    intro m hm
    rcases List.mem_append.mp hm with hm | hm
    · exact hnames m hm
    · rw [List.mem_singleton.mp hm]; exact hn
  obtain ⟨first, more, hcons⟩ := List.exists_cons_of_ne_nil
    (show p.stem ++ names ≠ [] by simp [hne])
  -- What stands between the first and the last segment ends in a name, if there is any of it.
  have hmore : more = [] ∨ ∃ front s, more = front ++ [s] ∧ isStep s = true := by
    obtain ⟨front, last, rfl⟩ : ∃ front last, names = front ++ [last] :=
      ⟨names.dropLast, names.getLast hne, (List.dropLast_concat_getLast hne).symm⟩
    have hlast := (hnames last (by simp)).isStep
    cases hfront : p.stem ++ front with
    | nil =>
      rw [← List.append_assoc, hfront] at hcons
      simp only [List.nil_append, List.cons.injEq] at hcons
      exact Or.inl hcons.2.symm
    | cons s rest =>
      rw [← List.append_assoc, hfront] at hcons
      simp only [List.cons_append, List.cons.injEq] at hcons
      exact Or.inr ⟨rest, last, hcons.2.symm, hlast⟩
  have htrim : trimSegments more = more := by
    rcases hmore with rfl | ⟨front, s, rfl, hs⟩
    · rfl
    · exact trimSegments_concat front hs
  have hseg : (p.join (ofNames (names ++ [n]))).segments = first :: (more ++ [n]) := by
    rw [segments_join hall (by simp), ← List.append_assoc, hcons, List.cons_append]
  rw [join_eq_intercalate hnames hne, hcons,
    parent?_of_trimSegments hseg (trimSegments_concat more hn.isStep), htrim]
  -- The two texts are equal, unless the parent is short enough to be spelled without a slash.
  cases more with
  | cons s rest => simp
  | nil =>
    -- One segment is left, and then it is a name.
    have hfirst : first ∈ p.stem ++ names := by rw [hcons]; exact List.mem_cons_self
    have hempty : first.isEmpty = false := by
      have hlen := congrArg List.length hcons
      have hpos := List.length_pos_iff.mpr hne
      simp only [List.length_append, List.length_cons, List.length_nil] at hlen
      have hstem : p.stem = [] := List.eq_nil_of_length_eq_zero (by omega)
      rw [hstem, List.nil_append] at hfirst
      simp [(hnames first hfirst).ne_nil]
    simp [hempty, List.intercalate_singleton]

/-- A step after the first segment is the last component of its path. -/
theorem components_of_trimSegments {p : Path} {first last : Bytes} {rest front : List Bytes}
    (hseg : p.segments = first :: rest) (htrim : trimSegments rest = front ++ [last])
    (hlast : isStep last = true) :
    p.components =
      (if first.isEmpty then [.root] else if first = dot then [Component.here] else []) ++
      ((first :: front).filter isStep).map componentOf ++ [componentOf last] := by
  have hrest : rest ≠ [] := by rintro rfl; simp [trimSegments] at htrim
  have hsteps : rest.filter isStep = front.filter isStep ++ [last] := by
    rw [← filter_trimSegments, htrim]
    simp [hlast]
  rw [components_of_segments hseg, List.append_assoc]
  congr 1
  · simp [hrest]
  · simp only [List.filter_cons, hsteps]
    split <;> simp

/-- If nothing after the first segment is a step, a path has a parent only if that segment is one,
and then it is the empty path. -/
theorem parent?_of_trimSegments_nil {p up : Path} {first : Bytes} {rest : List Bytes}
    (hseg : p.segments = first :: rest) (htrim : trimSegments rest = [])
    (h : p.parent? = some up) : up = ⟨[]⟩ ∧ first ≠ [] := by
  unfold parent? at h
  rw [hseg] at h
  simp only [htrim] at h
  split at h
  · cases h
  · next hfirst =>
    cases h
    exact ⟨rfl, by simpa using hfirst⟩

/-- The parent of a path has its components but the last. -/
theorem components_parent? {p up : Path} (h : p.parent? = some up) :
    up.components = p.components.dropLast := by
  obtain ⟨first, rest, hseg⟩ := List.exists_cons_of_ne_nil (segments_ne_nil p)
  have hslash : ∀ s ∈ first :: rest, slash ∉ s := fun s hs =>
    slash_notMem_of_mem_segments (by rw [hseg]; exact hs)
  rcases trimSegments_eq_nil_or rest with hrest | ⟨front, last, hrest, hlast⟩
  · obtain ⟨rfl, hfirst⟩ := parent?_of_trimSegments_nil hseg hrest h
    have hsteps : rest.filter isStep = [] := by rw [← filter_trimSegments, hrest]; rfl
    have hnone : Path.components ⟨[]⟩ = [] := rfl
    -- Only a relative path of one step has a parent here, and that parent is empty.
    rw [components_of_segments hseg, hnone, List.filter_cons, hsteps]
    by_cases hdot : first = dot
    · simp [hdot, isStep, dot]
    · simp [hdot, isStep, hfirst]
  · rw [components_of_trimSegments hseg hrest hlast, List.dropLast_concat]
    rw [parent?_of_trimSegments hseg hrest] at h
    by_cases hkept : trimSegments front = []
    · -- The first segment is all that is left: the root, or a relative path of one step.
      have hfront : front.filter isStep = [] := by rw [← filter_trimSegments, hkept]; rfl
      rw [if_pos hkept] at h
      by_cases hfirst : first = []
      · subst hfirst
        cases h
        simp [hfront, isStep]
        rfl
      · rw [if_neg (by simpa using hfirst), Option.some.injEq] at h
        subst h
        have hup : Path.segments ⟨first⟩ = [first] := List.splitOn_eq_singleton
          (hslash first List.mem_cons_self)
        rw [components_of_segments hup]
        simp [hfirst, hfront, List.filter_cons]
    · -- The parent is spelled with the trimmed segments, and what is trimmed is no step.
      rw [if_neg hkept, Option.some.injEq] at h
      subst h
      have hfrontslash : ∀ s ∈ front, slash ∉ s := fun s hs =>
        slash_notMem_of_mem_trimSegments (fun s hs => hslash s (List.mem_cons_of_mem _ hs))
          (by rw [hrest]; exact List.mem_append_left _ hs)
      have hup : Path.segments ⟨[slash].intercalate (first :: trimSegments front)⟩ =
          first :: trimSegments front := by
        refine segments_intercalate (by simp) fun s hs => ?_
        rcases List.mem_cons.mp hs with rfl | hs
        · exact hslash s List.mem_cons_self
        · exact slash_notMem_of_mem_trimSegments hfrontslash hs
      rw [components_of_segments hup]
      simp only [List.filter_cons, filter_trimSegments]
      simp [hkept]

/-- What is trimmed are segments at the end that mean no step. -/
theorem exists_trimSegments_append (l : List Bytes) :
    ∃ tail, l = trimSegments l ++ tail ∧ ∀ s ∈ tail, isStep s = false := by
  refine ⟨(l.reverse.takeWhile fun s => !isStep s).reverse, ?_, fun s hs => ?_⟩
  · unfold trimSegments
    rw [← List.reverse_append, List.takeWhile_append_dropWhile, List.reverse_reverse]
  · have hall := List.all_takeWhile (p := fun s => !isStep s) (l := l.reverse)
    simpa using List.all_eq_true.mp hall s (List.mem_reverse.mp hs)

/-- The parent of a path with one name joined onto it is spelled as the path is, up to dots and
slashes at the end. -/
theorem parent?_join_single {n : Name} (hn : IsName n) {p : Path} (hp : p.isEmpty = false) :
    ∃ up : Path, (p.join (ofNames [n])).parent? = some up ∧ up.isEmpty = false ∧
      up.isAbsolute = p.isAbsolute ∧ up.bytes <+: (p.join (ofNames [n])).bytes ∧
      ∃ dots, (∀ s ∈ dots, s = dot) ∧ p.steps = up.steps ++ dots := by
  have hnames : ∀ m ∈ [n], IsName m := by simpa using hn
  obtain ⟨first, rest, hstem⟩ := exists_stem_cons hp
  have hseg : (p.join (ofNames [n])).segments = first :: (rest ++ [n]) := by
    rw [segments_join hnames (by simp), hstem, List.cons_append]
  have hslash : ∀ s ∈ first :: (rest ++ [n]), slash ∉ s := fun s hs =>
    slash_notMem_of_mem_segments (by rw [hseg]; exact hs)
  have habs : p.isAbsolute = first.isEmpty := by
    rw [← isAbsolute_join hnames p, isAbsolute_of_segments hseg]
    simp
  obtain ⟨tail, htail, hnostep⟩ := exists_trimSegments_append rest
  have hdots : ∀ s ∈ tail.filter fun s => !s.isEmpty, s = dot := by
    intro s hs
    obtain ⟨hs, hne⟩ := List.mem_filter.mp hs
    simpa [isStep, hne] using hnostep s hs
  have hsteps : p.steps =
      (first :: trimSegments rest).filter (fun s => !s.isEmpty) ++ tail.filter fun s =>
        !s.isEmpty := by
    rw [steps, ← filter_stem p _ rfl, hstem, ← List.filter_append, List.cons_append, ← htail]
  have hparent := parent?_of_trimSegments hseg (trimSegments_concat rest hn.isStep)
  have hbytes : (p.join (ofNames [n])).bytes = [slash].intercalate (first :: (rest ++ [n])) := by
    rw [join_eq_intercalate hnames (by simp), hstem, List.cons_append]
  rw [hparent, hbytes, habs, hsteps]
  by_cases hroot : first = [] ∧ trimSegments rest = []
  · -- The root, spelled as a slash, which is also where the joined path starts.
    obtain ⟨rfl, hkept⟩ := hroot
    rw [hkept]
    refine ⟨⟨[slash]⟩, rfl, rfl, rfl, ?_, _, hdots, rfl⟩
    obtain ⟨second, more, hmore⟩ := List.exists_cons_of_ne_nil (show rest ++ [n] ≠ [] by simp)
    rw [hmore, List.intercalate_cons_cons]
    exact List.prefix_append _ _
  · have hfirst : trimSegments rest = [] → first ≠ [] := fun hkept hnil => hroot ⟨hnil, hkept⟩
    have hup : Path.segments ⟨[slash].intercalate (first :: trimSegments rest)⟩ =
        first :: trimSegments rest := by
      refine segments_intercalate (by simp) fun s hs => ?_
      rcases List.mem_cons.mp hs with rfl | hs
      · exact hslash s List.mem_cons_self
      · refine hslash s (List.mem_cons_of_mem _ (List.mem_append_left _ ?_))
        rw [htail]
        exact List.mem_append_left _ hs
    refine ⟨⟨[slash].intercalate (first :: trimSegments rest)⟩, ?_, ?_, ?_, ?_, _, hdots, ?_⟩
    · by_cases hkept : trimSegments rest = []
      · simp [hkept, hfirst hkept, List.intercalate_singleton]
      · simp [hkept]
    · refine isEmpty_of_segments_ne fun hnil => ?_
      rw [hup, List.cons.injEq] at hnil
      exact hroot hnil
    · rw [isAbsolute_of_segments hup]
      by_cases hnil : first = []
      · have hkept : trimSegments rest ≠ [] := fun hkept => hfirst hkept hnil
        simp [hkept]
      · simp [hnil]
    · have hwhole : first :: (rest ++ [n]) = (first :: trimSegments rest) ++ (tail ++ [n]) := by
        rw [List.cons_append, ← List.append_assoc, ← htail]
      rw [hwhole]
      exact intercalate_prefix (by simp) _
    · rw [steps, hup]

end Path
end ImageBuild
