import ImageBuild.Proofs.Archive.FirstMember
import ImageBuild.Proofs.Context.Verbatim

/-!
# `ImageBuild.Proofs.Context.Classified`: a context from a stream that is not compressed

A build context that comes as a stream is unpacked or stored as the recipe, and
`Archive.isArchive` decides that from the first block. Here is what the decision is worth for a
stream that is not compressed.

* `contextFromStream_of_isArchive`: a stream that is unpacked starts with the member that the
  window has shown, so it is not found to be corrupted before that was put.
* `contextFromStream_of_startsWith`: a stream that starts with a member is unpacked, unless its
  first header does not describe the member alone. Those with a long name are such streams: the
  header in the window is the one of the name, and the member comes later.
* `longNamed_isStored`: so a stream with a long name can be unpacked, and is stored as the recipe.
-/

set_option autoImplicit false

namespace ImageBuild.Context

open Archive Tar

variable {s : Stream} {m : Member} {cursor : Cursor} {t t₁ t₂ : FileTree} {root temporary : Path}

/-! ### What the window is worth -/

/-- If the window shows a member, the stream starts with that member: it is found without a fault,
with the same name, kind, mode and size. The stream is unpacked from there, so if it is found to
be corrupted, the first member has been put by then. -/
theorem contextFromStream_of_isArchive
    (hplain : detectCompression (s.bytes.take headerWindow) = .none)
    (harchive : isArchive (s.bytes.take headerWindow) = true) :
    ∃ m window cursor,
      (Cursor.start (.ofStream (.ofBytes (s.bytes.take headerWindow)))).nextMember =
        (.ok (some m), window) ∧
      StartsWith s m cursor ∧
      ∀ (t t₁ : FileTree) (temporary root : Path) (recipe : RecipeSource),
        makeStorage t temporary .contextDirectory = (.ok root, t₁) →
        (contextFromStream t temporary recipe s =
          match putFrom root m ⟨t₁, cursor, .empty⟩ with
          | (.ok _, t₂) => (.ok ⟨root, none⟩, t₂)
          | (.error f, t₂) => (.error (.archive f), discard t₂ root)) ∧
        ∀ f, (contextFromStream t temporary recipe s).1 = .error (.archive (.corrupted f)) →
          ∃ r, putMember root ⟨t₁, cursor, .empty⟩ m = (.ok (), r) := by
  obtain ⟨m, window, cursor, hwindow, hstarts⟩ := exists_startsWith hplain harchive
  obtain ⟨rest, -, hfront, -⟩ := hstarts.exists_window hplain
  refine ⟨m, window, cursor, hwindow, hstarts, fun t t₁ temporary root recipe hmade => ?_⟩
  have hrun := contextFromStream_of_archive recipe (length_window_iff.mp hfront) harchive hmade
  rw [extract_eq_putFrom hstarts] at hrun
  refine ⟨hrun, fun f hcorrupted => ?_⟩
  rw [hrun] at hcorrupted
  unfold putFrom at hcorrupted
  -- The run begins with the first member, and what keeps that from being put is something else.
  rcases hput : putMember root ⟨t₁, cursor, .empty⟩ m with ⟨f' | _, r⟩
  · rw [hput] at hcorrupted
    cases hcorrupted
    exact absurd (by rw [hput]) (putMember_ne_corrupted root ⟨t₁, cursor, .empty⟩ m f)
  · exact ⟨r, rfl⟩

/-- The stream of the directory `a` starts with a member, and if it is found to be corrupted this
one has been put. -/
theorem loneDirectory_of_isArchive :
    ∃ m cursor, StartsWith (loneDirectory [0x61]) m cursor ∧
      ∀ f, (contextFromStream sharedTree ⟨[0x74]⟩ .default (loneDirectory [0x61])).1 =
          .error (.archive (.corrupted f)) →
        ∃ r, putMember stagedRoot ⟨stagedTree, cursor, .empty⟩ m = (.ok (), r) := by
  obtain ⟨hplain, harchive, -⟩ :=
    isArchive_loneDirectory [0x61] (by decide) (by decide) (by decide)
  obtain ⟨m, -, cursor, -, hstarts, hrun⟩ := contextFromStream_of_isArchive hplain harchive
  exact ⟨m, cursor, hstarts, (hrun _ _ _ _ .default makeStorage_sharedTree).2⟩

/-- If a stream starts with a member, the window shows it unless the first header goes on: unless
it is the header of an extension member, such as a long name, or of a sparse member whose map goes
on in the next block. With any other header the stream is unpacked, and never stored as the
recipe. -/
theorem contextFromStream_of_startsWith
    (hplain : detectCompression (s.bytes.take headerWindow) = .none)
    (hstarts : StartsWith s m cursor) :
    (isArchive (s.bytes.take headerWindow) = true ↔ ¬ GoesOn ⟨s.bytes.take headerWindow⟩) ∧
      (¬ GoesOn ⟨s.bytes.take headerWindow⟩ →
        ∀ (t t₁ : FileTree) (temporary root : Path) (recipe : RecipeSource),
          makeStorage t temporary .contextDirectory = (.ok root, t₁) →
          contextFromStream t temporary recipe s =
            match extract t₁ root s with
            | (.ok _, t₂) => (.ok ⟨root, none⟩, t₂)
            | (.error f, t₂) => (.error (.archive f), discard t₂ root)) := by
  have hshown := isArchive_iff_not_goesOn hplain hstarts
  refine ⟨hshown, fun hgoes t t₁ temporary root recipe hmade => ?_⟩
  obtain ⟨rest, -, hfront, -⟩ := hstarts.exists_window hplain
  exact contextFromStream_of_archive recipe (length_window_iff.mp hfront) (hshown.mpr hgoes) hmade

/-- The stream of the directory `a` is unpacked. -/
theorem loneDirectory_of_startsWith :
    ¬ GoesOn ⟨(loneDirectory [0x61]).bytes.take headerWindow⟩ ∧
      contextFromStream sharedTree ⟨[0x74]⟩ .default (loneDirectory [0x61]) =
        match extract stagedTree stagedRoot (loneDirectory [0x61]) with
        | (.ok _, t) => (.ok ⟨stagedRoot, none⟩, t)
        | (.error f, t) => (.error (.archive f), discard t stagedRoot) := by
  obtain ⟨hplain, harchive, cursor, hstarts⟩ :=
    isArchive_loneDirectory [0x61] (by decide) (by decide) (by decide)
  obtain ⟨hshown, hrun⟩ := contextFromStream_of_startsWith hplain hstarts
  have hgoes := hshown.mp harchive
  have hcontext :=
    hrun hgoes sharedTree stagedTree ⟨[0x74]⟩ stagedRoot .default makeStorage_sharedTree
  refine ⟨hgoes, ?_⟩
  rw [hcontext]

/-! ### A long name -/

/-- The header of a long name of two bytes, behind its checksum. -/
def longNameBack : Bytes :=
  -- It is a file's header but for the type byte, which is the letter L.
  0x4C :: (headerBack (.file 0o644 [0x61, 0])).tail

/-- The header of a long name of two bytes. -/
def longNameBlock : Bytes :=
  headerFront [0x4C] (.file 0o644 [0x61, 0]) ++
    (checksumField (headerFront [0x4C] (.file 0o644 [0x61, 0])) longNameBack ++ longNameBack)

/-- The name `a` with its padding, and then the header of a directory. -/
def longNamedRest : Stream :=
  ⟨[[0x61, 0], List.replicate 510 0, headerBlock [0x62] (.directory 0o755)], false⟩

/-- A stream of one directory whose name comes before its header. -/
def longNamed : Stream := longNamedRest.putBack longNameBlock

/-- The header fills the window. -/
theorem length_longNameBlock : longNameBlock.length = headerWindow := by
  unfold longNameBlock longNameBack
  rw [List.length_append, List.length_append, length_headerFront (by decide),
    length_checksumField,
    List.length_cons, List.length_tail, length_headerBack]
  rfl

/-- The window of the stream is that header. -/
theorem window_longNamed : longNamed.bytes.take headerWindow = longNameBlock := by
  unfold longNamed Stream.putBack Stream.bytes
  rw [List.flatten_cons]
  exact List.take_left' length_longNameBlock

set_option maxRecDepth 20000 in
/-- The header can be read. It is no envelope, and an extension header. -/
theorem longNameBlock_isExtension :
    detectCompression longNameBlock = .none ∧ (Header.mk longNameBlock).isZero = false ∧
      Cursor.isExtension ⟨longNameBlock⟩ = true ∧ (Header.mk longNameBlock).typeFlag = .longName ∧
      Cursor.contentSize ⟨longNameBlock⟩ .none = .ok 2 :=
  ⟨by decide, by decide, by decide, by decide, by cbv⟩

/-- The name is the one from the data, and all else is from the header behind it. -/
theorem startsWith_longNamed :
    ∃ cursor, StartsWith longNamed ⟨⟨[0x61]⟩, .directory, 0o755, 0⟩ cursor := by
  obtain ⟨hplain, hzero, hext, hflag, hsize⟩ := longNameBlock_isExtension
  have hread : longNamed.readUpTo headerWindow = .ok (longNameBlock, longNamedRest) :=
    Stream.readUpTo_putBack (by decide) length_longNameBlock longNamedRest
  have hheader : IsHeader (headerBlock [0x62] (.directory 0o755)) [0x62] (.directory 0o755) :=
    isHeader_headerBlock (by decide) _ (by decide) rfl (by decide)
  obtain ⟨cursor, hnext⟩ := Cursor.nextMember_longName ⟨longNameBlock⟩ [0x61, 0]
    (List.replicate 510 0) (.ended none false) length_longNameBlock hzero hext hflag hsize
    (by decide) (by rw [List.length_replicate]; decide) hheader.length
    (hheader.describes (by decide)) (by decide)
  exact ⟨cursor, _, opened_of_plain hread hplain, hnext⟩

/-- A stream can be uncompressed and start with a member, and be stored as the recipe byte for
byte: the window holds the header of the member's name only. -/
theorem longNamed_isStored :
    detectCompression (longNamed.bytes.take headerWindow) = .none ∧
      (∃ m cursor, StartsWith longNamed m cursor ∧ m.name = ⟨[0x61]⟩) ∧
      contextFromStream sharedTree ⟨[0x74]⟩ .default longNamed =
        (.ok ⟨stagedRoot, some (stagedRoot.join ⟨defaultRecipe⟩)⟩,
          stagedTree.set [[0x74], Utf8.encode "kiln-build-context-000000", defaultRecipe]
            (.file 0o644 longNamed.bytes)) := by
  obtain ⟨hplain, -, hext, -⟩ := longNameBlock_isExtension
  rw [← window_longNamed] at hplain hext
  obtain ⟨cursor, hstarts⟩ := startsWith_longNamed
  have harchive : isArchive (longNamed.bytes.take headerWindow) = false := by
    rw [← Bool.not_eq_true, isArchive_iff_not_goesOn hplain hstarts, not_not]
    exact Or.inl hext
  have hjoin : stagedTree.joinWithin stagedRoot (.ofNames [defaultRecipe]) =
      .ok (stagedRoot.join ⟨defaultRecipe⟩) := by cbv
  refine ⟨hplain, ⟨_, cursor, hstarts, rfl⟩, ?_⟩
  rw [contextFromStream_eq_storeStream rfl harchive makeStorage_sharedTree .default hjoin]
  unfold storeStream
  rw [show longNamed.broken = false from rfl]
  -- Where the bytes are stored does not depend on them.
  generalize longNamed.bytes = content
  cbv

end ImageBuild.Context
