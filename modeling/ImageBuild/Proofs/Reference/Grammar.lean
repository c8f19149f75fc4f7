import ImageBuild.Reference.Grammar
import Mathlib.Data.List.TakeWhile

/-!
# `ImageBuild.Proofs.Reference.Grammar`: the grammar of image references

The recognisers of `ImageBuild.Reference.Grammar` cut a text where a character of a class stands
first and look at the pieces. Here the same parts are said as a grammar that knows no order of
reading: a path is components with slashes between them, a component is runs with separators
between them (`Joined`), a domain is a host or an address with a port behind it, and so on.

Each recogniser accepts what its part of the grammar produces and nothing else: `isPath_iff`,
`isTag_iff`, `isDigest_iff`, `isDomain_iff`. Two facts carry all of them. A text has one cut at
the first character outside a class (`takeWhile_cut`, `dropWhile_cut`), and no part holds the
character that ends it (`IsPath.isPathChar`, `IsAlgorithm.isAlgorithmChar`, `IsHost.isHostChar`,
`IsDomain.slash_notMem`), so that the seams of the grammar are where the recognisers cut.

Each part is made of ASCII letters and digits and of a few other characters, which differ from
part to part (`IsOver`).
-/

set_option autoImplicit false

namespace ImageBuild.Reference.Grammar

variable {cs first rest : List Char}

/-! ### The grammar -/

/-- One or more characters of a class. -/
def IsRun (isIn : Char → Bool) (cs : List Char) : Prop := cs ≠ [] ∧ ∀ c ∈ cs, isIn c = true

/-- One character of a class. -/
def IsSingle (isIn : Char → Bool) (cs : List Char) : Prop := ∃ c, isIn c = true ∧ cs = [c]

/-- One or more parts, with something between each two of them. -/
inductive Joined (isPart isBetween : List Char → Prop) : List Char → Prop
  | single {cs : List Char} (h : isPart cs) : Joined isPart isBetween cs
  | cons {first between rest : List Char} (hfirst : isPart first) (hbetween : isBetween between)
      (hrest : Joined isPart isBetween rest) : Joined isPart isBetween (first ++ between ++ rest)

/-- What stands between two runs of a path component: one dot, one or two underscores, or
dashes. -/
inductive IsSeparator : List Char → Prop
  | dot : IsSeparator ['.']
  | underscore : IsSeparator ['_']
  | underscores : IsSeparator ['_', '_']
  | dashes {cs : List Char} (h : IsRun (· == '-') cs) : IsSeparator cs

/-- A component of a path: runs of lower-case letters and digits. -/
def IsPathComponent : List Char → Prop := Joined (IsRun isLowerAlnum) IsSeparator

/-- A path: components with slashes between them. -/
def IsPath : List Char → Prop := Joined IsPathComponent (IsSingle (· == '/'))

/-- A tag. -/
structure IsTag (cs : List Char) : Prop where
  ne_nil : cs ≠ []
  length_le : cs.length ≤ 128
  chars : ∀ c ∈ cs, isAlnum c = true ∨ c = '_' ∨ c = '.' ∨ c = '-'
  start : cs.head? ≠ some '.' ∧ cs.head? ≠ some '-'

/-- A part of an algorithm's name: letters and digits, the first of them a letter. -/
structure IsAlgorithmPart (cs : List Char) : Prop where
  start : ∃ c, cs.head? = some c ∧ isLetter c = true
  chars : ∀ c ∈ cs, isAlnum c = true

/-- The name of a digest algorithm: parts with one of `-`, `_`, `+`, `.` between them. -/
def IsAlgorithm : List Char → Prop := Joined IsAlgorithmPart (IsSingle isAlgorithmJoiner)

/-- A digest: an algorithm and at least 32 hexadecimal digits. -/
inductive IsDigest : List Char → Prop
  | mk {algorithm hex : List Char} (halgorithm : IsAlgorithm algorithm)
      (hhex : ∀ c ∈ hex, isHex c = true) (hlength : 32 ≤ hex.length) :
      IsDigest (algorithm ++ ':' :: hex)

/-- A component of a host name: letters, digits, and dashes inside of it. -/
structure IsHostComponent (cs : List Char) : Prop where
  ne_nil : cs ≠ []
  chars : ∀ c ∈ cs, isAlnum c = true ∨ c = '-'
  inner : cs.head? ≠ some '-' ∧ cs.getLast? ≠ some '-'

/-- A host name: components with dots between them. -/
def IsHost : List Char → Prop := Joined IsHostComponent (IsSingle (· == '.'))

/-- What may follow a host: nothing, or a colon and a number. -/
inductive IsPort : List Char → Prop
  | absent : IsPort []
  | number {digits : List Char} (h : IsRun isDigit digits) : IsPort (':' :: digits)

/-- A domain: a host name, or an address of hexadecimal digits and colons in brackets, and perhaps
a port. -/
inductive IsDomain : List Char → Prop
  | host {host port : List Char} (hhost : IsHost host) (hport : IsPort port) :
    IsDomain (host ++ port)
  | address {address port : List Char} (haddress : IsRun (fun c => isHex c || c == ':') address)
      (hport : IsPort port) : IsDomain ('[' :: (address ++ ']' :: port))

/-- An image id: 64 lower-case hexadecimal digits. -/
def IsIdentifier (cs : List Char) : Prop := cs.length = 64 ∧ ∀ c ∈ cs, isLowerHex c = true

/-! ### Cuts -/

section
variable {isIn : Char → Bool} (hfirst : ∀ c ∈ first, isIn c = true)
  (hrest : ∀ c ∈ rest.head?, isIn c = false)
include hfirst hrest

/-- What stands before the first character outside a class is found there. -/
theorem takeWhile_cut : (first ++ rest).takeWhile isIn = first := by
  rw [List.takeWhile_append_of_pos hfirst]
  cases rest with
  | nil => simp
  | cons c more => simp [hrest c rfl]

/-- What is dropped at a cut is the part before it. -/
theorem dropWhile_cut : (first ++ rest).dropWhile isIn = rest := by
  rw [List.dropWhile_append_of_pos hfirst]
  cases rest with
  | nil => rfl
  | cons c more => exact List.dropWhile_cons_of_neg (by simp [hrest c rfl])

end

/-- Every text has such a cut. -/
theorem exists_cut (isIn : Char → Bool) (cs : List Char) :
    ∃ first rest, cs = first ++ rest ∧ (∀ c ∈ first, isIn c = true) ∧
      ∀ c ∈ rest.head?, isIn c = false := by
  refine ⟨cs.takeWhile isIn, cs.dropWhile isIn, List.takeWhile_append_dropWhile.symm, ?_, ?_⟩
  · intro c hc
    exact List.mem_takeWhile_imp hc
  · intro c hc
    have hstop := List.head?_dropWhile_not isIn cs
    rw [Option.mem_def.mp hc] at hstop
    exact hstop

/-- The cut at the first of one character. -/
theorem bne_of_notMem {d : Char} (h : d ∉ cs) : ∀ c ∈ cs, (c != d) = true := by
  intro c hc
  rw [bne_iff_ne]
  rintro rfl
  exact h hc

/-! ### Joined parts -/

namespace Joined

variable {isPart isPart' isBetween : List Char → Prop}

/-- What holds of all characters of the parts and of what stands between them holds of all
characters. -/
theorem forall_mem {P : Char → Prop} (h : Joined isPart isBetween cs)
    (hpart : ∀ part, isPart part → ∀ c ∈ part, P c)
    (hbetween : ∀ between, isBetween between → ∀ c ∈ between, P c) : ∀ c ∈ cs, P c := by
  induction h with
  | single h => exact hpart _ h
  | cons hf hb _ ih =>
    intro c hc
    rcases List.mem_append.mp hc with hc | hc
    · rcases List.mem_append.mp hc with hc | hc
      · exact hpart _ hf c hc
      · exact hbetween _ hb c hc
    · exact ih c hc

/-- What starts every part starts the whole. -/
theorem head? {P : Char → Prop} (h : Joined isPart isBetween cs)
    (hpart : ∀ part, isPart part → ∃ c, part.head? = some c ∧ P c) :
    ∃ c, cs.head? = some c ∧ P c := by
  cases h with
  | single h => exact hpart _ h
  | cons hf _ _ =>
    obtain ⟨c, hc, hP⟩ := hpart _ hf
    refine ⟨c, ?_, hP⟩
    rw [List.append_assoc, List.head?_append, hc, Option.some_or]

end Joined

/-- If the parts hold no separating character, splitting a text at these characters and looking at
the pieces tells whether it is parts with one separating character between each two. -/
theorem all_splitOnP_iff {isSeparating : Char → Bool} {isPart : List Char → Prop}
    {recognise : List Char → Bool} (hrecognise : ∀ cs, recognise cs = true ↔ isPart cs)
    (hfree : ∀ cs, isPart cs → ∀ c ∈ cs, isSeparating c = false) (cs : List Char) :
    (cs.splitOnP isSeparating).all recognise = true ↔
      Joined isPart (IsSingle isSeparating) cs := by
  constructor
  · -- Induction on the length, for what is left behind a separating character is shorter.
    induction hlength : cs.length using Nat.strongRecOn generalizing cs with
    | ind n ih =>
      intro hall
      obtain ⟨first, rest, rfl, hfirst, hstop⟩ := exists_cut (fun c => !isSeparating c) cs
      have hfirst : ∀ c ∈ first, isSeparating c = false := by
        intro c hc
        simpa using hfirst c hc
      cases rest with
      | nil =>
        rw [List.append_nil] at hall ⊢
        rw [List.splitOnP_eq_singleton hfirst] at hall
        exact .single ((hrecognise first).mp (by simpa using hall))
      | cons c more =>
        have hc : isSeparating c = true := by simpa using hstop c rfl
        rw [List.splitOnP_append_cons_of_forall_mem hfirst c hc, List.all_cons,
          Bool.and_eq_true] at hall
        have hmore := ih more.length (by simp at hlength; omega) more rfl hall.2
        have hjoined : Joined isPart (IsSingle isSeparating) (first ++ [c] ++ more) :=
          .cons ((hrecognise first).mp hall.1) ⟨c, hc, rfl⟩ hmore
        rwa [List.append_assoc, List.singleton_append] at hjoined
  · -- The split falls on the joints, since no part holds a separating character.
    intro h
    induction h with
    | single h =>
      rw [List.splitOnP_eq_singleton (hfree _ h)]
      simpa using (hrecognise _).mpr h
    | cons hf hb _ ih =>
      obtain ⟨c, hc, rfl⟩ := hb
      rw [List.append_assoc, List.singleton_append,
        List.splitOnP_append_cons_of_forall_mem (hfree _ hf) c hc, List.all_cons,
          Bool.and_eq_true]
      exact ⟨(hrecognise _).mpr hf, ih⟩

/-! ### Paths -/

/-- The separators that the reader accepts are those of the grammar. -/
theorem isSeparator_iff : isSeparator cs = true ↔ IsSeparator cs := by
  constructor
  · intro h
    simp only [isSeparator, Bool.or_eq_true, Bool.and_eq_true, beq_iff_eq, Bool.not_eq_true',
      List.isEmpty_eq_false_iff, List.all_eq_true] at h
    obtain ((rfl | rfl) | rfl) | ⟨hne, hall⟩ := h
    · exact .dot
    · exact .underscore
    · exact .underscores
    · exact .dashes ⟨hne, by simpa using hall⟩
  · intro h
    cases h with
    | dot | underscore | underscores => decide
    | dashes h =>
      have hdashes : (!cs.isEmpty && cs.all (· == '-')) = true := by simpa [IsRun] using h
      rw [isSeparator, hdashes, Bool.or_true]

/-- A separator is made of characters that join runs. -/
theorem IsSeparator.isJoiner (h : IsSeparator cs) : ∀ c ∈ cs, isJoiner c = true := by
  cases h with
  | dot | underscore | underscores => simp [Grammar.isJoiner]
  | dashes h =>
    intro c hc
    simp [Grammar.isJoiner, beq_iff_eq.mp (h.2 c hc)]

/-- A separator is at least one character. -/
theorem IsSeparator.ne_nil (h : IsSeparator cs) : cs ≠ [] := by
  cases h with
  | dot | underscore | underscores => decide
  | dashes h => exact h.1

/-- A character of a run joins no runs. -/
theorem isLowerAlnum_of_isJoiner {c : Char} (h : isJoiner c = true) : isLowerAlnum c = false := by
  simp only [isJoiner, Bool.or_eq_true, beq_iff_eq] at h
  obtain (rfl | rfl) | rfl := h <;> decide

/-- A letter or digit joins nothing. -/
theorem isJoiner_of_isLowerAlnum {c : Char} (h : isLowerAlnum c = true) : isJoiner c = false := by
  rw [← Bool.not_eq_true]
  intro hjoiner
  rw [isLowerAlnum_of_isJoiner hjoiner] at h
  cases h

/-- A component starts with a character of a run. -/
theorem IsPathComponent.head? (h : IsPathComponent cs) :
    ∃ c, cs.head? = some c ∧ isLowerAlnum c = true := by
  refine Joined.head? h fun part hpart => ?_
  obtain ⟨c, more, rfl⟩ := List.exists_cons_of_ne_nil hpart.1
  exact ⟨c, rfl, hpart.2 c List.mem_cons_self⟩

/-- The path components that the reader accepts are those of the grammar. -/
theorem isPathComponent_iff : isPathComponent cs = true ↔ IsPathComponent cs := by
  constructor
  · -- On the recursion of the recogniser: each round takes one run and what joins it to the next.
    intro h
    induction cs using isPathComponent.induct with
    | case1 cs hempty =>
      rw [isPathComponent, dif_pos hempty] at h
      cases h
    | case2 cs hne rest ih =>
      rw [isPathComponent, dif_neg hne] at h
      have hrun : IsRun isLowerAlnum (cs.takeWhile isLowerAlnum) :=
        ⟨by simpa using hne, fun c hc => List.mem_takeWhile_imp hc⟩
      simp only [Bool.or_eq_true, Bool.and_eq_true, List.isEmpty_iff] at h
      obtain hend | ⟨hseparator, hmore⟩ := h
      · -- The text is one run.
        have hcs := List.takeWhile_append_dropWhile (p := isLowerAlnum) (l := cs)
        rw [hend, List.append_nil] at hcs
        rw [hcs] at hrun
        exact .single hrun
      · have hjoined := Joined.cons hrun (isSeparator_iff.mp hseparator) (ih hmore)
        rwa [List.append_assoc, List.takeWhile_append_dropWhile, List.takeWhile_append_dropWhile]
          at hjoined
  · intro h
    induction h with
    | single h =>
      rw [isPathComponent, List.takeWhile_eq_self_iff.mpr h.2, List.dropWhile_eq_nil_iff.mpr h.2,
        dif_neg (by simpa using h.1)]
      rfl
    | @cons first between rest hf hb hr ih =>
      -- Each of the two cuts falls on a seam, for what starts behind it is of the other class.
      have hjoiner : ∀ c ∈ (between ++ rest).head?, isLowerAlnum c = false := by
        intro c hc
        refine isLowerAlnum_of_isJoiner (hb.isJoiner c (List.mem_of_mem_head? ?_))
        obtain ⟨d, more, rfl⟩ := List.exists_cons_of_ne_nil hb.ne_nil
        exact hc
      have halnum : ∀ c ∈ rest.head?, isJoiner c = false := by
        intro c hc
        obtain ⟨d, hd, hdalnum⟩ := IsPathComponent.head? hr
        rw [hd] at hc
        cases hc
        exact isJoiner_of_isLowerAlnum hdalnum
      rw [List.append_assoc, isPathComponent, takeWhile_cut hf.2 hjoiner,
        dropWhile_cut hf.2 hjoiner,
        dif_neg (by simpa using hf.1)]
      dsimp only
      rw [takeWhile_cut hb.isJoiner halnum, dropWhile_cut hb.isJoiner halnum,
        isSeparator_iff.mpr hb, ih]
      simp

/-- The characters of a component: neither a slash nor what ends a path. -/
theorem IsPathComponent.isPathChar (h : IsPathComponent cs) :
    ∀ c ∈ cs, (isLowerAlnum c || isJoiner c) = true := by
  refine Joined.forall_mem h ?_ ?_
  · intro part hpart c hc
    simp [hpart.2 c hc]
  · intro between hbetween c hc
    simp [hbetween.isJoiner c hc]

/-- The paths that the reader accepts are those of the grammar. -/
theorem isPath_iff : isPath cs = true ↔ IsPath cs := by
  refine all_splitOnP_iff (fun _ => isPathComponent_iff) (fun component h c hc => ?_) cs
  have hchar := h.isPathChar c hc
  rw [← Bool.not_eq_true, beq_iff_eq]
  rintro rfl
  exact absurd hchar (by decide)

/-- The characters of a path: lower-case letters, digits, what joins runs, and slashes. -/
theorem IsPath.isPathChar (h : IsPath cs) :
    ∀ c ∈ cs, (isLowerAlnum c || isJoiner c || c == '/') = true := by
  refine Joined.forall_mem h ?_ ?_
  · intro component hcomponent c hc
    rw [hcomponent.isPathChar c hc, Bool.true_or]
  · rintro _ ⟨c, hc, rfl⟩ d hd
    obtain rfl := List.mem_singleton.mp hd
    exact Bool.or_eq_true_iff.mpr (Or.inr hc)

/-! ### Tags and digests -/

/-- A tag starts with a letter, a digit or an underscore. -/
theorem isTagStart_iff {c : Char} : isTagStart c = true ↔ isAlnum c = true ∨ c = '_' := by
  simp [isTagStart]

/-- It goes on with these, a point or a hyphen. -/
theorem isTagChar_iff {c : Char} :
    isTagChar c = true ↔ isAlnum c = true ∨ c = '_' ∨ c = '.' ∨ c = '-' := by
  simp [isTagChar, isTagStart, or_assoc]

/-- The tags that the reader accepts are those of the grammar. -/
theorem isTag_iff : isTag cs = true ↔ IsTag cs := by
  cases cs with
  | nil => exact ⟨fun h => absurd h (by decide), fun h => absurd rfl h.ne_nil⟩
  | cons c rest =>
    simp only [isTag, Bool.and_eq_true, List.all_eq_true, decide_eq_true_eq]
    constructor
    · rintro ⟨⟨hstart, hchars⟩, hlength⟩
      refine ⟨List.cons_ne_nil _ _, Nat.succ_le_of_lt hlength, ?_, ?_, ?_⟩
      · intro d hd
        rcases List.mem_cons.mp hd with rfl | hd
        · exact (isTagStart_iff.mp hstart).imp_right Or.inl
        · exact isTagChar_iff.mp (hchars d hd)
      · rintro ⟨rfl⟩
        exact absurd hstart (by decide)
      · rintro ⟨rfl⟩
        exact absurd hstart (by decide)
    · intro h
      refine ⟨⟨isTagStart_iff.mpr ?_, fun d hd => ?_⟩, Nat.lt_of_succ_le h.length_le⟩
      · -- A tag does not start with the other two characters that may be in it.
        obtain hc | hc | rfl | rfl := h.chars c List.mem_cons_self
        · exact Or.inl hc
        · exact Or.inr hc
        · exact absurd rfl h.start.1
        · exact absurd rfl h.start.2
      · exact isTagChar_iff.mpr (h.chars d (List.mem_cons_of_mem _ hd))

/-- A part of an algorithm is a letter and then letters and digits. -/
theorem isAlgorithmPart_iff : isAlgorithmPart cs = true ↔ IsAlgorithmPart cs := by
  cases cs with
  | nil =>
    refine ⟨fun h => absurd h (by decide), fun h => ?_⟩
    obtain ⟨c, hc, -⟩ := h.start
    cases hc
  | cons c rest =>
    simp only [isAlgorithmPart, Bool.and_eq_true, List.all_eq_true]
    constructor
    · rintro ⟨hletter, hchars⟩
      refine ⟨⟨c, rfl, hletter⟩, fun d hd => ?_⟩
      rcases List.mem_cons.mp hd with rfl | hd
      · rw [isAlnum, hletter, Bool.true_or]
      · exact hchars d hd
    · intro h
      obtain ⟨d, hd, hletter⟩ := h.start
      cases hd
      exact ⟨hletter, fun e he => h.chars e (List.mem_cons_of_mem _ he)⟩

/-- What joins the parts of an algorithm's name is no letter and no digit. -/
theorem isAlgorithmJoiner_of_isAlnum {c : Char} (h : isAlnum c = true) :
    isAlgorithmJoiner c = false := by
  rw [← Bool.not_eq_true]
  intro hjoiner
  simp only [isAlgorithmJoiner, Bool.or_eq_true, beq_iff_eq] at hjoiner
  obtain ((rfl | rfl) | rfl) | rfl := hjoiner <;> exact absurd h (by decide)

/-- The algorithms that the reader accepts are those of the grammar. -/
theorem isAlgorithm_iff : isAlgorithm cs = true ↔ IsAlgorithm cs :=
  all_splitOnP_iff (fun _ => isAlgorithmPart_iff)
    (fun _ h c hc => isAlgorithmJoiner_of_isAlnum (h.chars c hc)) cs

/-- The characters of an algorithm's name. -/
theorem IsAlgorithm.isAlgorithmChar (h : IsAlgorithm cs) :
    ∀ c ∈ cs, (isAlnum c || isAlgorithmJoiner c) = true := by
  refine Joined.forall_mem h ?_ ?_
  · intro part hpart c hc
    rw [hpart.chars c hc, Bool.true_or]
  · rintro _ ⟨c, hc, rfl⟩ d hd
    obtain rfl := List.mem_singleton.mp hd
    rw [hc, Bool.or_true]

/-- The digests that the reader accepts are those of the grammar. -/
theorem isDigest_iff : isDigest cs = true ↔ IsDigest cs := by
  constructor
  · intro h
    obtain ⟨algorithm, rest, rfl, halgorithm, hrest⟩ := exists_cut (· != ':') cs
    rw [isDigest, takeWhile_cut halgorithm hrest, dropWhile_cut halgorithm hrest] at h
    cases rest with
    | nil => cases h
    | cons c hex =>
      obtain rfl : c = ':' := by simpa using hrest c rfl
      simp only [Bool.and_eq_true, List.all_eq_true, decide_eq_true_eq] at h
      exact .mk (isAlgorithm_iff.mp h.1.1) h.1.2 h.2
  · intro h
    cases h with
    | @mk algorithm hex halgorithm hhex hlength =>
      -- The first colon is the seam: the name of an algorithm has none.
      have hcolon : ':' ∉ algorithm := by
        intro hc
        exact absurd (halgorithm.isAlgorithmChar _ hc) (by decide)
      have hinside := bne_of_notMem hcolon
      rw [isDigest, takeWhile_cut hinside (by simp), dropWhile_cut hinside (by simp)]
      simp only [Bool.and_eq_true, List.all_eq_true, decide_eq_true_eq]
      exact ⟨⟨isAlgorithm_iff.mpr halgorithm, hhex⟩, hlength⟩

/-! ### Domains -/

/-- A character of a component that is no dash. -/
theorem IsHostComponent.isAlnum (h : IsHostComponent cs) {c : Char} (hc : c ∈ cs)
    (hne : c ≠ '-') :
    isAlnum c = true :=
  (h.chars c hc).resolve_right hne

/-- The components of a host that the reader accepts are those of the grammar. -/
theorem isHostComponent_iff : isHostComponent cs = true ↔ IsHostComponent cs := by
  simp only [isHostComponent, Bool.and_eq_true, List.all_eq_true, Bool.or_eq_true, beq_iff_eq]
  constructor
  · rintro ⟨⟨hchars, hfirst⟩, hlast⟩
    refine ⟨?_, hchars, ?_, ?_⟩
    · rintro rfl
      cases hfirst
    · intro heq
      rw [heq] at hfirst
      exact absurd hfirst (by decide)
    · intro heq
      rw [heq] at hlast
      exact absurd hlast (by decide)
  · intro h
    refine ⟨⟨h.chars, ?_⟩, ?_⟩
    · rw [List.head?_eq_some_head h.ne_nil]
      refine h.isAlnum (List.head_mem h.ne_nil) fun heq => h.inner.1 ?_
      rw [List.head?_eq_some_head h.ne_nil, heq]
    · rw [List.getLast?_eq_some_getLast h.ne_nil]
      refine h.isAlnum (List.getLast_mem h.ne_nil) fun heq => h.inner.2 ?_
      rw [List.getLast?_eq_some_getLast h.ne_nil, heq]

/-- The characters of a host name. -/
theorem IsHost.isHostChar (h : IsHost cs) :
    ∀ c ∈ cs, isAlnum c = true ∨ c = '-' ∨ c = '.' := by
  refine Joined.forall_mem h ?_ ?_
  · intro component hcomponent c hc
    exact (hcomponent.chars c hc).imp_right Or.inl
  · rintro _ ⟨c, hc, rfl⟩ d hd
    obtain rfl := List.mem_singleton.mp hd
    exact Or.inr (Or.inr (beq_iff_eq.mp hc))

/-- A host name starts with a letter or a digit. -/
theorem IsHost.head? (h : IsHost cs) : ∃ c, cs.head? = some c ∧ isAlnum c = true := by
  refine Joined.head? h fun component hcomponent => ?_
  have hhead := List.head?_eq_some_head hcomponent.ne_nil
  refine ⟨_, hhead, hcomponent.isAlnum (List.head_mem _) fun heq => hcomponent.inner.1 ?_⟩
  rw [hhead, heq]

/-- The hosts that the reader accepts are those of the grammar. -/
theorem all_isHostComponent_iff :
    (cs.splitOn '.').all isHostComponent = true ↔ IsHost cs := by
  refine all_splitOnP_iff (fun _ => isHostComponent_iff) (fun component h c hc => ?_) cs
  have hchar := h.chars c hc
  rw [← Bool.not_eq_true, beq_iff_eq]
  rintro rfl
  exact absurd hchar (by decide)

/-- The ports that the reader accepts are those of the grammar. -/
theorem isPortSuffix_iff : isPortSuffix cs = true ↔ IsPort cs := by
  cases cs with
  | nil => exact ⟨fun _ => .absent, fun _ => rfl⟩
  | cons c digits =>
    simp only [isPortSuffix, Bool.and_eq_true, beq_iff_eq, Bool.not_eq_true',
      List.isEmpty_eq_false_iff,
      List.all_eq_true]
    constructor
    · rintro ⟨⟨rfl, hne⟩, hdigits⟩
      exact .number ⟨hne, hdigits⟩
    · intro h
      cases h with
      | number h => exact ⟨⟨rfl, h.1⟩, h.2⟩

/-- A port suffix starts with a colon, if there is one. -/
theorem IsPort.head? (h : IsPort cs) : ∀ c ∈ cs.head?, c = ':' := by
  cases h with
  | absent => simp
  | number => simp

/-- The characters of a port suffix. -/
theorem IsPort.isPortChar (h : IsPort cs) : ∀ c ∈ cs, isDigit c = true ∨ c = ':' := by
  cases h with
  | absent => simp
  | number h =>
    intro c hc
    exact (List.mem_cons.mp hc).symm.imp_left (h.2 c)

/-- A domain without a bracket in front is cut at its first colon. -/
theorem isDomain_eq_of_head? (h : cs.head? ≠ some '[') :
    isDomain cs = (((cs.takeWhile (· != ':')).splitOn '.').all isHostComponent &&
      isPortSuffix (cs.dropWhile (· != ':'))) := by
  rw [isDomain]
  rintro rest rfl
  exact h rfl

/-- A domain that does not start with a bracket is a host with or without a port. -/
theorem isDomain_host_iff (h : cs.head? ≠ some '[') :
    isDomain cs = true ↔ ∃ host port, cs = host ++ port ∧ IsHost host ∧ IsPort port := by
  rw [isDomain_eq_of_head? h, Bool.and_eq_true, all_isHostComponent_iff, isPortSuffix_iff]
  constructor
  · rintro ⟨hhost, hport⟩
    exact ⟨_, _, List.takeWhile_append_dropWhile.symm, hhost, hport⟩
  · rintro ⟨host, port, rfl, hhost, hport⟩
    -- The first colon is the one of the port: a host name has none.
    have hcolon : ':' ∉ host := by
      intro hc
      exact absurd (hhost.isHostChar _ hc) (by decide)
    have hinside := bne_of_notMem hcolon
    have hstop : ∀ c ∈ port.head?, (c != ':') = false := by
      intro c hc
      simp [hport.head? c hc]
    rw [takeWhile_cut hinside hstop, dropWhile_cut hinside hstop]
    exact ⟨hhost, hport⟩

/-- One that starts with a bracket is an address up to the closing bracket, with or without a
port. -/
theorem isDomain_address_iff :
    isDomain ('[' :: cs) = true ↔ ∃ address port, cs = address ++ ']' :: port ∧
      IsRun (fun c => isHex c || c == ':') address ∧ IsPort port := by
  constructor
  · intro h
    obtain ⟨address, rest, rfl, haddress, hrest⟩ := exists_cut (· != ']') cs
    rw [isDomain, takeWhile_cut haddress hrest, dropWhile_cut haddress hrest] at h
    cases rest with
    | nil => cases h
    | cons c port =>
      obtain rfl : c = ']' := by simpa using hrest c rfl
      simp only [Bool.and_eq_true, Bool.not_eq_true', List.isEmpty_eq_false_iff,
        List.all_eq_true] at h
      exact ⟨address, port, rfl, h.1, isPortSuffix_iff.mp h.2⟩
  · rintro ⟨address, port, rfl, haddress, hport⟩
    -- The first closing bracket is the one of the address.
    have hbracket : ']' ∉ address := by
      intro hc
      exact absurd (haddress.2 _ hc) (by decide)
    have hinside := bne_of_notMem hbracket
    rw [isDomain, takeWhile_cut hinside (by simp), dropWhile_cut hinside (by simp)]
    simp only [Bool.and_eq_true, Bool.not_eq_true', List.isEmpty_eq_false_iff, List.all_eq_true]
    exact ⟨haddress, isPortSuffix_iff.mpr hport⟩

/-- The domains that the reader accepts are those of the grammar. -/
theorem isDomain_iff : isDomain cs = true ↔ IsDomain cs := by
  constructor
  · intro h
    by_cases hbracket : cs.head? = some '['
    · obtain ⟨rest, rfl⟩ := List.head?_eq_some_iff.mp hbracket
      obtain ⟨address, port, rfl, haddress, hport⟩ := isDomain_address_iff.mp h
      exact .address haddress hport
    · obtain ⟨host, port, rfl, hhost, hport⟩ := (isDomain_host_iff hbracket).mp h
      exact .host hhost hport
  · intro h
    cases h with
    | address haddress hport => exact isDomain_address_iff.mpr ⟨_, _, rfl, haddress, hport⟩
    | host hhost hport =>
      refine (isDomain_host_iff ?_).mpr ⟨_, _, rfl, hhost, hport⟩
      -- No host name starts with a bracket.
      obtain ⟨c, hc, halnum⟩ := hhost.head?
      rw [List.head?_append, hc, Option.some_or]
      rintro ⟨rfl⟩
      exact absurd halnum (by decide)

/-- The identifiers that the reader refuses as names are those of the grammar. -/
theorem isIdentifier_iff : isIdentifier cs = true ↔ IsIdentifier cs := by
  simp [isIdentifier, IsIdentifier]

/-! ### Alphabets -/

/-- The characters are letters, digits and some others. -/
def IsOver (extra cs : List Char) : Prop := ∀ c ∈ cs, isAlnum c = true ∨ c ∈ extra

namespace IsOver

variable {extra extra' ds : List Char}

/-- The empty text is over every alphabet. -/
theorem nil : IsOver extra [] := by
  intro c hc
  cases hc

/-- One more character of the alphabet. -/
theorem cons {c : Char} (hc : c ∈ extra) (h : IsOver extra cs) : IsOver extra (c :: cs) :=
  List.forall_mem_cons.mpr ⟨Or.inr hc, h⟩

/-- Texts over an alphabet can be put together. -/
theorem append (h : IsOver extra cs) (h' : IsOver extra ds) : IsOver extra (cs ++ ds) :=
  List.forall_mem_append.mpr ⟨h, h'⟩

/-- A larger alphabet has all texts of a smaller one. -/
theorem mono (h : IsOver extra cs) (hextra : extra ⊆ extra') : IsOver extra' cs := by
  intro c hc
  exact (h c hc).imp_right fun hmem => hextra hmem

/-- A character outside the alphabet does not occur. -/
theorem notMem (h : IsOver extra cs) {c : Char} (halnum : isAlnum c = false)
    (hextra : c ∉ extra) : c ∉ cs := by
  intro hc
  rcases h c hc with hc | hc
  · rw [halnum] at hc
    cases hc
  · exact hextra hc

end IsOver

/-- A small letter or a digit is a letter or a digit. -/
theorem isAlnum_of_isLowerAlnum {c : Char} (h : isLowerAlnum c = true) : isAlnum c = true := by
  simp only [isLowerAlnum, isAlnum, isLetter, Bool.or_eq_true] at h ⊢
  exact h.imp_left Or.inl

/-- A digit is a letter or a digit. -/
theorem isAlnum_of_isDigit {c : Char} (h : isDigit c = true) : isAlnum c = true := by
  rw [isAlnum, h, Bool.or_true]

/-- Hexadecimal digits are the digits and the first few letters. -/
theorem isAlnum_of_isHex {c : Char} (h : isHex c = true) : isAlnum c = true := by
  simp only [isHex, isAlnum, isLetter, isLower, isUpper, Bool.or_eq_true, Bool.and_eq_true,
    decide_eq_true_eq] at h ⊢
  rcases h with (hdigit | hlower) | hupper
  · exact Or.inr hdigit
  · exact Or.inl (Or.inl ⟨hlower.1, Char.le_trans hlower.2 (by decide)⟩)
  · exact Or.inl (Or.inr ⟨hupper.1, Char.le_trans hupper.2 (by decide)⟩)

/-- The alphabet of paths. -/
theorem IsPath.isOver (h : IsPath cs) : IsOver ['.', '_', '-', '/'] cs := by
  intro c hc
  have hchar := h.isPathChar c hc
  simp only [isJoiner, Bool.or_eq_true, beq_iff_eq] at hchar
  rcases hchar with (hchar | hchar) | hchar
  · exact Or.inl (isAlnum_of_isLowerAlnum hchar)
  · right
    rcases hchar with (rfl | rfl) | rfl <;> decide
  · right
    rw [hchar]
    decide

/-- The alphabet of tags. -/
theorem IsTag.isOver (h : IsTag cs) : IsOver ['_', '.', '-'] cs := by
  intro c hc
  exact (h.chars c hc).imp_right fun hextra => by simpa using hextra

/-- The alphabet of algorithms. -/
theorem IsAlgorithm.isOver (h : IsAlgorithm cs) : IsOver ['-', '_', '+', '.'] cs := by
  intro c hc
  have hchar := h.isAlgorithmChar c hc
  simp only [isAlgorithmJoiner, Bool.or_eq_true, beq_iff_eq] at hchar
  refine hchar.imp_right fun hjoiner => ?_
  rcases hjoiner with ((rfl | rfl) | rfl) | rfl <;> decide

/-- The alphabet of digests. -/
theorem IsDigest.isOver (h : IsDigest cs) : IsOver [':', '-', '_', '+', '.'] cs := by
  cases h with
  | mk halgorithm hhex _ =>
    have hdigits : ∀ {hex : List Char}, (∀ c ∈ hex, isHex c = true) →
        IsOver [':', '-', '_', '+', '.'] hex := fun hhex c hc =>
          Or.inl (isAlnum_of_isHex (hhex c hc))
    exact (halgorithm.isOver.mono (by decide)).append (.cons (by decide) (hdigits hhex))

/-- The alphabet of ports. -/
theorem IsPort.isOver (h : IsPort cs) : IsOver [':'] cs := by
  intro c hc
  exact (h.isPortChar c hc).imp isAlnum_of_isDigit fun heq => by simp [heq]

/-- The alphabet of domains. -/
theorem IsDomain.isOver (h : IsDomain cs) : IsOver ['-', '.', ':', '[', ']'] cs := by
  cases h with
  | @host host port hhost hport =>
    have hhost : IsOver ['-', '.'] host := by
      intro c hc
      exact (hhost.isHostChar c hc).imp_right fun hextra => by simpa using hextra
    exact (hhost.mono (by decide)).append (hport.isOver.mono (by decide))
  | @address address port haddress hport =>
    have haddress : IsOver [':'] address := by
      intro c hc
      have hchar := haddress.2 c hc
      simp only [Bool.or_eq_true, beq_iff_eq] at hchar
      exact hchar.imp isAlnum_of_isHex fun heq => by simp [heq]
    have hrest : IsOver ['-', '.', ':', '[', ']'] (']' :: port) :=
      .cons (by decide) (hport.isOver.mono (by decide))
    exact .cons (by decide) ((haddress.mono (by decide)).append hrest)

/-- Neither domains nor tags nor digests hold a slash. -/
theorem IsDomain.slash_notMem (h : IsDomain cs) : '/' ∉ cs :=
  h.isOver.notMem (by decide) (by decide)

/-- There is no slash in a tag. -/
theorem IsTag.slash_notMem (h : IsTag cs) : '/' ∉ cs := h.isOver.notMem (by decide) (by decide)

/-- There is no slash in a digest. -/
theorem IsDigest.slash_notMem (h : IsDigest cs) : '/' ∉ cs :=
  h.isOver.notMem (by decide) (by decide)

end ImageBuild.Reference.Grammar
