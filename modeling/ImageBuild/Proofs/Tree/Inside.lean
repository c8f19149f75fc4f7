import ImageBuild.Proofs.Tree.Resolution

/-!
# `ImageBuild.Proofs.Tree.Inside`: walks that stay inside the root

The resolution below a root works on texts: it takes names back for a `..` and puts the target of
a link in place of its name. The operating system walks from directory to directory. `WalksIn` is
such a walk in the directory of the root that never leaves it and meets relative links only, and
`joinWithin_of_walksIn` says that the resolution comes to the same node, if it sees the links that
the walk follows.

The resolution sees a link by its text, the root with all names in front of the link, and the
operating system takes no text longer than `pathLimit`. A walk can lead to a link whose text is
longer, over a link with a long target for instance. Such a link is taken for an ordinary name
(`resolve_of_tooLong`).

The resolution keeps track of the walk (`Tracks`): the names that it has reached lead down to
where the walk is, over directories only (`Descends`), and its pending parts are the segments
before the walk. There is one lemma for each kind of segment, and `WalksIn.moves` puts them
together.
-/

set_option autoImplicit false

namespace ImageBuild

/-- The segment that asks for a step. -/
def PendingPart.segment : PendingPart → Bytes
  | .up _ => dotDot
  | .down name => name

/-- A relative path asks for one step with each of its segments, and with none for a dot. -/
theorem PendingPart.map_segment_ofPath {p : Path} (habs : p.isAbsolute = false)
    (origin : Option (Path × Path)) :
    (ofPath origin p).map segment = (FileTree.walkSegments p).filter Path.isStep := by
  have hwalk := FileTree.filter_walkSegments p
  have hstep : ∀ s, (ofComponent origin (Path.componentOf s)).map segment = [s] := by
    intro s
    unfold Path.componentOf
    split
    · next heq =>
      rw [heq]
      rfl
    · rfl
  have hleading : ((if p.isAbsolute then [Component.root]
      else if p.segments.head? = some dot then [.here] else []).flatMap (ofComponent origin)) =
        [] := by
    rw [habs]
    split <;> simp [ofComponent]
  unfold ofPath Path.components
  rw [hwalk, List.flatMap_append, hleading, List.nil_append, List.map_flatMap, List.flatMap_map]
  simp only [hstep, List.flatMap_singleton']

namespace FileTree

variable {t : FileTree} {root entry : Path} {D here loc : Location} {names : List Name} {n : Node}

/-- An ordinary walk of the segments from `here` to the node `n` that never goes above `D` and
meets no absolute link. Every link is followed, one at the end too, and `links` are the places of
the links in the order in which they are. -/
inductive WalksIn (t : FileTree) (D : Location) :
    Location → List Bytes → List Location → Location → Node → Prop
  | here {here : Location} {n : Node} : t.lookup here = some n → WalksIn t D here [] [] here n
  | stay {here loc : Location} {segment : Bytes} {rest : List Bytes} {links : List Location}
    {n : Node} : t.Pauses here segment → WalksIn t D here rest links loc n →
    WalksIn t D here (segment :: rest) links loc n
  | up {here loc : Location} {rest : List Bytes} {links : List Location} {n : Node} :
    t.canSearch here = true → here ≠ D → WalksIn t D here.dropLast rest links loc n →
    WalksIn t D here (dotDot :: rest) links loc n
  | down {here loc : Location} {segment : Bytes} {rest : List Bytes} {links : List Location}
    {n : Node} {m : Mode} : t.canSearch here = true → IsLookedUp segment →
    t.lookup (here ++ [segment]) = some (.directory m) →
    WalksIn t D (here ++ [segment]) rest links loc n →
    WalksIn t D here (segment :: rest) links loc n
  | link {here loc : Location} {segment : Bytes} {rest : List Bytes} {links : List Location}
    {n : Node} {target : Path} : t.canSearch here = true → IsLookedUp segment →
    t.lookup (here ++ [segment]) = some (.link target) → target.isAbsolute = false →
    WalksIn t D here (walkSegments target ++ rest) links loc n →
    WalksIn t D here (segment :: rest) ((here ++ [segment]) :: links) loc n
  | file {here : Location} {segment : Bytes} {m : Mode} {content : Bytes} :
    t.canSearch here = true → IsLookedUp segment →
    t.lookup (here ++ [segment]) = some (.file m content) →
    WalksIn t D here [segment] [] (here ++ [segment]) (.file m content)

/-! ### Names that lead down over directories -/

/-- The names lead down from `here`, over nothing but directories. -/
def Descends (t : FileTree) : Location → List Name → Prop
  | _, [] => True
  | here, name :: rest =>
    t.canSearch here = true ∧ IsLookedUp name ∧
      (∃ m, t.lookup (here ++ [name]) = some (.directory m)) ∧ t.Descends (here ++ [name]) rest

/-- A descent can be cut anywhere. -/
theorem descends_append_iff {more : List Name} :
    t.Descends here (names ++ more) ↔ t.Descends here names ∧
    t.Descends (here ++ names) more := by
  induction names generalizing here with
  | nil => simp [Descends]
  | cons name rest ih =>
    have happ : here ++ name :: rest = here ++ [name] ++ rest := by simp
    simp only [List.cons_append, Descends, ih, happ, and_assoc]

/-- What a descent passes it descends to. -/
theorem Descends.dropLast (h : t.Descends here names) : t.Descends here names.dropLast := by
  by_cases hne : names = []
  · subst hne; trivial
  · rw [← List.dropLast_concat_getLast hne] at h
    exact (descends_append_iff.mp h).1

/-- A descent goes on into a directory it can search for. -/
theorem Descends.concat {name : Name} {m : Mode} (h : t.Descends here names)
    (hs : t.canSearch (here ++ names) = true) (hseg : IsLookedUp name)
    (hm : t.lookup (here ++ names ++ [name]) = some (.directory m)) :
    t.Descends here (names ++ [name]) :=
  descends_append_iff.mpr ⟨h, hs, hseg, ⟨m, hm⟩, trivial⟩

/-- From where such names lead a walk goes on as from the start. -/
theorem Descends.walks {follow : Bool} {k : Nat} {rest : List Bytes} {spot : Spot}
    (h : t.Descends here names) (hrest : t.Walks follow k (here ++ names) rest spot) :
    t.Walks follow k here (names ++ rest) spot := by
  induction names generalizing here with
  | nil => rwa [List.append_nil] at hrest
  | cons name more ih =>
    obtain ⟨hs, hseg, ⟨m, hm⟩, hmore⟩ := h
    rw [List.append_cons] at hrest
    exact .down hs hseg hm (ih hmore hrest)

/-- The text of names below a root can be opened unless it is too long. -/
theorem checkText_join_eq_ok_iff (hroot : root.hasNul = false)
    (hnames : ∀ m ∈ names, IsName m ∧ 0 ∉ m) (hne : names ≠ []) :
    checkText (root.join (.ofNames names)) = .ok () ↔
      (root.join (.ofNames names)).bytes.length ≤ pathLimit := by
  have hnul := Path.hasNul_join hroot (Path.hasNul_ofNames fun m hm => (hnames m hm).2)
  have hempty := Path.isEmpty_join (fun m hm => (hnames m hm).1) hne root
  rw [checkText_eq_ok_iff]
  exact ⟨fun hopens => hopens.2.2, fun hlen => ⟨hnul, hempty, hlen⟩⟩

/-- Whatever stands at a name in a directory, a walk of that name ends there and follows no
link. -/
theorem exists_walks_single {segment : Bytes} (hs : t.canSearch here = true)
    (hseg : IsLookedUp segment) :
    ∃ spot, (∀ k, t.Walks false k here [segment] spot) ∧
      ∀ target, (∃ loc, spot = .node loc (.link target)) ↔
        t.lookup (here ++ [segment]) = some (.link target) := by
  cases hl : t.lookup (here ++ [segment]) with
  | none => exact ⟨_, fun k => .endVacant hs hseg hl, by simp⟩
  | some n =>
    cases n with
    | directory m => exact ⟨_, fun k => .down hs hseg hl (.here_of_lookup hl), by simp⟩
    | file m content => exact ⟨_, fun k => .endFile hs hseg hl, by simp⟩
    | link target => exact ⟨_, fun k => .endLink hs hseg hl rfl, by simp⟩

/-! ### The resolution keeps track of the walk -/

/-- The invariant of the simulation: where a resolution stands while a walk is at `here` with the
segments before it. -/
structure Tracks (t : FileTree) (D here : Location) (segments : List Bytes) (s : Standing) :
    Prop where
  here_eq : here = D ++ s.resolved
  descends : t.Descends D s.resolved
  names : ∀ name ∈ s.resolved, IsName name ∧ 0 ∉ name
  pending : s.pending.map PendingPart.segment = segments.filter Path.isStep
  pendingNames : PendingNames s.pending

namespace Tracks

variable {segments rest : List Bytes} {s : Standing} {more : List PendingPart}

/-- A resolution starts at the directory the walk starts at. -/
theorem start (t : FileTree) (D : Location) (hnul : entry.hasNul = false)
    (habs : entry.isAbsolute = false) : t.Tracks D D (walkSegments entry) (.start entry) where
  here_eq := (List.append_nil D).symm
  descends := trivial
  names := List.forall_mem_nil _
  pending := PendingPart.map_segment_ofPath habs none
  pendingNames := pendingNames_ofPath hnul none

/-- At the end of the walk nothing is pending. -/
theorem of_nil (h : t.Tracks D here [] s) : s = ⟨s.resolved, []⟩ := by
  have hpending : s.pending = [] := List.map_eq_nil_iff.mp h.pending
  rw [← hpending]

/-- Where a walk stays, no step is asked for. -/
theorem stay {segment : Bytes} (hs : t.Pauses here segment)
    (h : t.Tracks D here (segment :: rest) s) : t.Tracks D here rest s where
  here_eq := h.here_eq
  descends := h.descends
  names := h.names
  pending := by rw [h.pending, List.filter_cons_of_neg hs.not_isStep]
  pendingNames := h.pendingNames

/-- A `..` below the root asks for a name to be taken back, and there is one. -/
theorem up (h : t.Tracks D here (dotDot :: rest) s) (hne : here ≠ D) :
    ∃ names origin more, s = ⟨names, .up origin :: more⟩ ∧ names ≠ [] ∧
      t.Tracks D here.dropLast rest ⟨names.dropLast, more⟩ := by
  obtain ⟨names, pending⟩ := s
  have hpending := h.pending
  rw [List.filter_cons_of_pos (by decide)] at hpending
  obtain ⟨part, more, rfl, hpart, hmore⟩ := List.map_eq_cons_iff.mp hpending
  have hsome : names ≠ [] := by
    rintro rfl
    exact hne (h.here_eq.trans (List.append_nil D))
  cases part with
  | down name => exact absurd hpart (h.pendingNames name List.mem_cons_self).1.ne_dotDot
  | up origin =>
    refine ⟨names, origin, more, rfl, hsome, ?_, h.descends.dropLast, ?_, hmore, ?_⟩
    · rw [h.here_eq]
      exact List.dropLast_append_of_ne_nil hsome
    · exact fun name hname => h.names name (List.mem_of_mem_dropLast hname)
    · exact fun name hname => h.pendingNames name (List.mem_cons_of_mem _ hname)

/-- A name that is looked up is the next part, and then the rest is pending. -/
theorem next {segment : Bytes} (h : t.Tracks D here (segment :: rest) s)
    (hseg : IsLookedUp segment) :
    ∃ names more, s = ⟨names, .down segment :: more⟩ ∧ (IsName segment ∧ 0 ∉ segment) ∧
      t.Tracks D here rest ⟨names, more⟩ := by
  obtain ⟨names, pending⟩ := s
  have hpending := h.pending
  rw [List.filter_cons_of_pos hseg.isStep] at hpending
  obtain ⟨part, more, rfl, hpart, hmore⟩ := List.map_eq_cons_iff.mp hpending
  cases part with
  | up origin => exact absurd hpart.symm hseg.ne_dotDot
  | down name =>
    obtain rfl : name = segment := hpart
    exact ⟨names, more, rfl, h.pendingNames name List.mem_cons_self, h.here_eq, h.descends,
      h.names, hmore, fun m hm => h.pendingNames m (List.mem_cons_of_mem _ hm)⟩

/-- What holds of the names that are reached holds with one more of them. -/
theorem names_concat {name : Name} (h : t.Tracks D here rest ⟨names, more⟩)
    (hname : IsName name ∧ 0 ∉ name) : ∀ m ∈ names ++ [name], IsName m ∧ 0 ∉ m :=
  List.forall_mem_append.mpr ⟨h.names, List.forall_mem_singleton.mpr hname⟩

/-- A directory is entered by its name. -/
theorem down {segment : Bytes} {m : Mode} (h : t.Tracks D here rest ⟨names, more⟩)
    (hname : IsName segment ∧ 0 ∉ segment) (hs : t.canSearch here = true)
    (hseg : IsLookedUp segment) (hl : t.lookup (here ++ [segment]) = some (.directory m)) :
    t.Tracks D (here ++ [segment]) rest ⟨names ++ [segment], more⟩ where
  here_eq := by rw [h.here_eq, List.append_assoc]
  descends := by
    rw [h.here_eq] at hs hl
    exact h.descends.concat hs hseg hl
  names := h.names_concat hname
  pending := h.pending
  pendingNames := h.pendingNames

/-- The target of a link is put before the rest, here and there. -/
theorem link {target : Path} (h : t.Tracks D here rest ⟨names, more⟩)
    (hnul : target.hasNul = false) (habs : target.isAbsolute = false)
    (origin : Option (Path × Path)) :
    t.Tracks D here (walkSegments target ++ rest)
      ⟨names, PendingPart.ofPath origin target ++ more⟩ where
  here_eq := h.here_eq
  descends := h.descends
  names := h.names
  pending := by
    rw [List.map_append, List.filter_append, PendingPart.map_segment_ofPath habs, h.pending]
  pendingNames := by
    intro name hmem
    rcases List.mem_append.mp hmem with hmem | hmem
    · exact pendingNames_ofPath hnul origin name hmem
    · exact h.pendingNames name hmem

/-- What is seen at the next name is the link that stands there, if its text is not too long to be
opened. -/
theorem linkTarget?_eq_some_iff {name : Name} {target : Path}
    (h : t.Tracks D here rest ⟨names, more⟩) (hD : t.directoryAt? root = some D)
    (hroot : root.hasNul = false) (hname : IsName name ∧ 0 ∉ name) (hs : t.canSearch here = true)
    (hseg : IsLookedUp name) :
    t.linkTarget? (candidate root names name) = some target ↔
      (root.join (.ofNames (names ++ [name]))).bytes.length ≤ pathLimit ∧
        t.lookup (here ++ [name]) = some (.link target) := by
  obtain ⟨⟨k, harr⟩, -⟩ := directoryAt?_eq_some_iff.mp hD
  obtain ⟨spot, hwalks, hspot⟩ := exists_walks_single hs hseg
  have hall := h.names_concat hname
  have hnames : ∀ m ∈ names ++ [name], IsName m := fun m hm => (hall m hm).1
  -- The text is walked along the root, then down the names, and then to whatever is there.
  have hend : t.Walks false linkBudget (startOf root t.workdir)
      (root.steps ++ (names ++ [name])) spot := by
    refine harr.walks (by simp) (h.descends.walks ?_)
    rw [← h.here_eq]
    exact hwalks k
  have hwalk : ∀ spot', t.walk false (root.join (.ofNames (names ++ [name]))) = .ok spot' ↔
      (root.join (.ofNames (names ++ [name]))).bytes.length ≤ pathLimit ∧ spot' = spot := by
    intro spot'
    rw [walk_join_eq_ok_iff hnames (by simp), checkText_join_eq_ok_iff hroot hall (by simp)]
    refine and_congr_right fun _ => ⟨fun hw => hw.unique hend, ?_⟩
    rintro rfl
    exact hend
  rw [Checked.candidate_eq (fun m hm => (h.names m hm).1) hname.1, ← hspot target]
  constructor
  · intro hlink
    obtain ⟨loc, hloc⟩ := exists_walk_of_linkTarget? hlink
    obtain ⟨hlen, heq⟩ := (hwalk _).mp hloc
    exact ⟨hlen, loc, heq.symm⟩
  · intro ⟨hlen, loc, heq⟩
    exact linkTarget?_of_walk ((hwalk _).mpr ⟨hlen, heq.symm⟩)

/-- Where something else stands no link is seen. -/
theorem linkTarget?_eq_none {name : Name} (h : t.Tracks D here rest ⟨names, more⟩)
    (hD : t.directoryAt? root = some D) (hroot : root.hasNul = false)
    (hname : IsName name ∧ 0 ∉ name) (hs : t.canSearch here = true) (hseg : IsLookedUp name)
    (hl : ∀ target, t.lookup (here ++ [name]) ≠ some (.link target)) :
    t.linkTarget? (candidate root names name) = none := by
  refine Option.eq_none_iff_forall_ne_some.mpr fun target htarget => ?_
  exact hl target ((h.linkTarget?_eq_some_iff hD hroot hname hs hseg).mp htarget).2

end Tracks

/-- The resolution makes the steps of a walk that stays inside, and it follows the same links. -/
theorem WalksIn.moves {segments : List Bytes} {links : List Location} {s : Standing}
    (hwf : t.WellFormed) (hroot : root.hasNul = false) (hD : t.directoryAt? root = some D)
    (h : t.WalksIn D here segments links loc n)
    (hlen : ∀ names, D ++ names ∈ links → (root.join (.ofNames names)).bytes.length ≤ pathLimit)
    (htracks : t.Tracks D here segments s) :
    ∃ steps names, t.Moves root steps links.length s ⟨names, []⟩ ∧
      t.walkFrom false 0 D names = .ok (.node loc n) := by
  -- One step of the resolution for each segment at which the walk does not stay.
  induction h generalizing s with
  | here hn =>
    rw [htracks.here_eq] at hn ⊢
    rw [htracks.of_nil]
    have hwalks : t.Walks false 0 D (_ ++ []) _ := htracks.descends.walks (.here_of_lookup hn)
    rw [List.append_nil] at hwalks
    exact ⟨0, _, .here, hwalks.walkFrom⟩
  | stay hs _ ih => exact ih hlen (htracks.stay hs)
  | up _ hne _ ih =>
    obtain ⟨names, origin, more, rfl, hsome, hup⟩ := htracks.up hne
    obtain ⟨steps, names', hmoves, hwalk⟩ := ih hlen hup
    exact ⟨steps + 1, names', .up hsome hmoves, hwalk⟩
  | down hs hseg hl _ ih =>
    obtain ⟨names, more, rfl, hname, hrest⟩ := htracks.next hseg
    have hlink := hrest.linkTarget?_eq_none hD hroot hname hs hseg (by simp [hl])
    obtain ⟨steps, names', hmoves, hwalk⟩ := ih hlen (hrest.down hname hs hseg hl)
    exact ⟨steps + 1, names', .down hlink hmoves, hwalk⟩
  | @link here _ segment _ _ _ target hs hseg hl habs _ ih =>
    obtain ⟨names, more, rfl, hname, hrest⟩ := htracks.next hseg
    have hopens : (root.join (.ofNames (names ++ [segment]))).bytes.length ≤ pathLimit := by
      refine hlen (names ++ [segment]) ?_
      have hhere : here = D ++ names := hrest.here_eq
      rw [hhere, List.append_assoc]
      exact List.mem_cons_self
    have hlink := (hrest.linkTarget?_eq_some_iff hD hroot hname hs hseg).mpr ⟨hopens, hl⟩
    obtain ⟨steps, names', hmoves, hwalk⟩ := ih
      (fun names hmem => hlen names (List.mem_cons_of_mem _ hmem))
      (hrest.link (hwf.target hl) habs (some (candidate root names segment, target)))
    exact ⟨steps + 1, names', .follow hlink habs hmoves, hwalk⟩
  | @file _ segment _ _ hs hseg hl =>
    obtain ⟨names, more, rfl, hname, hrest⟩ := htracks.next hseg
    obtain rfl : more = [] := congrArg Standing.pending hrest.of_nil
    have hlink := hrest.linkTarget?_eq_none hD hroot hname hs hseg (by simp [hl])
    rw [hrest.here_eq] at hs hl ⊢
    have hwalks : t.Walks false 0 D _ _ := hrest.descends.walks (.endFile hs hseg hl)
    exact ⟨1, names ++ [segment], .down hlink .here, hwalks.walkFrom⟩

/-- A path whose walk stays inside the root's directory is joined to where the walk leads. The
walk follows relative links only and not more than `hopLimit` of them, and from the root the text
of none of them is too long to be opened. Then the names of the answer lead to the same node over
no link. -/
theorem joinWithin_of_walksIn {links : List Location} (hwf : t.WellFormed)
    (hroot : root.hasNul = false) (hD : t.directoryAt? root = some D)
    (hnul : entry.hasNul = false) (habs : entry.isAbsolute = false)
    (h : t.WalksIn D D (walkSegments entry) links loc n) (hlinks : links.length ≤ hopLimit)
    (hlen : ∀ names, D ++ names ∈ links → (root.join (.ofNames names)).bytes.length ≤ pathLimit) :
    ∃ names, t.joinWithin root entry = .ok (root.join (.ofNames names)) ∧
      t.walkFrom false 0 D names = .ok (.node loc n) := by
  obtain ⟨steps, names, hmoves, hwalk⟩ := h.moves hwf hroot hD hlen (.start t D hnul habs)
  refine ⟨names, ?_, hwalk⟩
  rw [joinWithin_of_relative hnul habs,
    resolve_eq_iff.mpr ⟨steps, links.length, _, hlinks, hmoves, .done⟩]
  rfl

/-- A tree with a directory `a`, in it the directories `c` and `c/d`, a file `c/f`, and a link `b`
to `./c/d`. -/
def linkedDeepTree : FileTree where
  nodes := [([[0x61]], .directory 0o755), ([[0x61], [0x63]], .directory 0o755),
    ([[0x61], [0x63], [0x64]], .directory 0o755),
    ([[0x61], [0x63], [0x66]], .file 0o644 []),
    ([[0x61], [0x62]], .link (.ofString "./c/d"))]
  workdir := []

/-- Below `a`, the path `b/../f` leads to the file `a/c/f`, for `..` leads from `a/c/d` to
`a/c`. -/
theorem joinWithin_linkedDeepTree :
    linkedDeepTree.WalksIn [[0x61]] [[0x61]] (walkSegments (.ofString "b/../f"))
    [[[0x61], [0x62]]]
      [[0x61], [0x63], [0x66]] (.file 0o644 []) ∧
    ∃ names,
      linkedDeepTree.joinWithin (.ofString "a") (.ofString "b/../f") =
        .ok ((Path.ofString "a").join (.ofNames names)) ∧
      linkedDeepTree.walkFrom false 0 [[0x61]] names =
        .ok (.node [[0x61], [0x63], [0x66]] (.file 0o644 [])) := by
  have hwalks : linkedDeepTree.WalksIn [[0x61]] [[0x61]] (walkSegments (.ofString "b/../f"))
      [[[0x61], [0x62]]] [[0x61], [0x63], [0x66]] (.file 0o644 []) := by
    have hsegments : walkSegments (.ofString "b/../f") = [[0x62], dotDot, [0x66]] := by cbv
    have htarget : walkSegments (.ofString "./c/d") = [dot, [0x63], [0x64]] := by cbv
    have hlooked : ∀ b : UInt8, b ≠ 0x2E → IsLookedUp [b] := by
      intro b hb
      exact ⟨by simp [trailing], by simpa [dot] using hb, by simp [dotDot], by simp [nameLimit]⟩
    rw [hsegments]
    refine .link (by decide) (hlooked _ (by decide)) (by rfl) (by decide) ?_
    rw [htarget]
    exact .stay (.dot (by decide)) <| .down (by decide) (hlooked _ (by decide)) (by rfl) <|
      .down (by decide) (hlooked _ (by decide)) (by rfl) <| .up (by decide) (by decide) <|
      .file (by decide) (hlooked _ (by decide)) (by rfl)
  refine ⟨hwalks, joinWithin_of_walksIn (by decide) (by decide) (by cbv) (by decide)
    (by decide) hwalks
    (by decide) ?_⟩
  intro names hmem
  obtain rfl : names = [[0x62]] := by simpa using hmem
  decide

/-! ### Where no link can be seen -/

/-- Behind names whose text is too long to be opened, no link is seen, whatever the tree has
there: what is named is taken as it is named. -/
theorem resolve_of_tooLong {more : List Name} (hnames : ∀ m ∈ names, IsName m)
    (hmore : ∀ m ∈ more, IsName m)
    (hlong : pathLimit < (root.join (.ofNames names)).bytes.length) (hops : Nat) :
    t.resolve root entry hops names (more.map .down) = .ok (names ++ more) := by
  induction more generalizing names with
  | nil => rw [List.map_nil, resolve, List.append_nil]
  | cons name rest ih =>
    have hname := hmore name List.mem_cons_self
    have hall : ∀ m ∈ names ++ [name], IsName m :=
      List.forall_mem_append.mpr ⟨hnames, List.forall_mem_singleton.mpr hname⟩
    have hlonger : pathLimit < (root.join (.ofNames (names ++ [name]))).bytes.length :=
      Nat.lt_of_lt_of_le hlong
        (Path.bytes_join_prefix hnames (List.forall_mem_singleton.mpr hname) root).length_le
    have hlink : t.linkTarget? (candidate root names name) = none := by
      rw [Checked.candidate_eq hnames hname]
      refine Option.eq_none_iff_forall_ne_some.mpr fun target htarget => ?_
      obtain ⟨loc, hwalk⟩ := exists_walk_of_linkTarget? htarget
      have hopens := (checkText_eq_ok_iff.mp (walk_eq_ok_iff.mp hwalk).1).2.2
      omega
    rw [List.map_cons, resolve, hlink, List.append_cons names name rest]
    exact ih hall (fun m hm => hmore m (List.mem_cons_of_mem _ hm)) hlonger

end FileTree
end ImageBuild
