import ImageBuild.Engine.Program
import ImageBuild.Proofs.Request.Attributes
import ImageBuild.Proofs.Text.Json
import ImageBuild.Proofs.Text.Utf8
import ImageBuild.Request.Reading

/-!
# `ImageBuild.Proofs.Request.Line`: the request goes out as one line

The program that solves reads its request from one line. `line_framed` says that the line is the
request: whatever texts the user chose, only the last byte is a line break, and the reader of
`Request/Reading` makes the same request of it. A request with a directory that is no text cannot
be written, and nothing is.

The request is a tree of records, and the reader undoes the writer at each of them:

* a map of texts (`Attributes.IsSorted.ofJson?_toJson`), if its keys are in order, for the reader
  builds a map up entry by entry;
* the description of the export (`ExportDescriptor.ofJson?_toJson`);
* the request itself (`IsOrdered.ofJson?_jsonOf`), whose directories are a map of texts too.

That the fields of a record are found under their names rests on the names being different
(`Progress.Fields.of?_record`). That the tree survives as text is `Json.IsTextual.read?_render`.
-/

set_option autoImplicit false

namespace ImageBuild

/-! ### Records -/

namespace Progress.Fields

variable {fields : List (String × Json)}

/-- If no name comes twice, each field of an object is found under its name. -/
theorem lookup_record (h : (fields.map (·.1)).Nodup) {f : String × Json} (hf : f ∈ fields) :
    lookup (fields.map fun f => (some f.1, f.2)) f.1 = some (some f.2) := by
  obtain ⟨before, behind, rfl⟩ := List.append_of_mem hf
  have hothers : ∀ l : List (String × Json), f.1 ∉ l.map (·.1) →
      (l.map fun g => (some g.1, g.2)).filter (fun g => g.1 == some f.1) = [] := by
    intro l hl
    refine List.filter_eq_nil_iff.mpr fun g hg => ?_
    obtain ⟨g', hg', rfl⟩ := List.mem_map.mp hg
    have hne : g'.1 ≠ f.1 := fun heq => hl (heq ▸ List.mem_map_of_mem hg')
    simpa using hne
  rw [List.map_append, List.map_cons, List.nodup_middle, List.nodup_cons, List.mem_append,
    not_or] at h
  unfold lookup
  rw [List.map_append, List.map_cons, List.filter_append, List.filter_cons, hothers before h.1.1,
    hothers behind h.1.2]
  simp

/-- The fields of an object are found under their names, in the order of the names. -/
theorem of?_record (h : (fields.map (·.1)).Nodup) :
    of? (fields.map (·.1)) (.record fields) = some ⟨fields.map fun f => some f.2, false⟩ := by
  -- Each name is looked up in the whole object, so the induction is on how many names are left.
  have hfound : ∀ l : List (String × Json), (∀ f ∈ l, f ∈ fields) →
      (l.map (·.1)).mapM (lookup (fields.map fun f => (some f.1, f.2))) =
        some (l.map fun f => some f.2) := by
    intro l hl
    induction l with
    | nil => rfl
    | cons f rest ih =>
      obtain ⟨hf, hrest⟩ := List.forall_mem_cons.mp hl
      simp [lookup_record h hf, ih hrest]
  have hall : (fields.map fun f => (some f.1, f.2)).all (·.1.isSome) = true := by simp
  unfold Json.record of?
  dsimp only
  rw [if_pos hall, hfound fields fun _ hf => hf]
  rfl

end Progress.Fields

/-! ### Maps -/

namespace Attributes

variable {a : Attributes}

/-- It is written with texts only. -/
theorem isTextual_toJson (a : Attributes) : a.toJson.IsTextual := by
  refine .record fun f hf => ?_
  obtain ⟨e, -, rfl⟩ := List.mem_map.mp hf
  exact .text e.2

/-- A map is built up by its own entries. -/
theorem IsSorted.ofList_entries (h : a.IsSorted) : ofList a.entries = a := by
  refine (isSorted_ofList a.entries).ext h fun key value => ?_
  have hnodup : (a.entries.reverse.map (·.1)).Nodup := by
    rw [List.map_reverse]
    exact List.nodup_reverse.mpr h.nodup_keys
  rw [get?_ofList, lookup_eq_some_iff_mem hnodup, List.mem_reverse, h.get?_eq_some_iff]

/-- Sorted attributes are read back. -/
theorem IsSorted.ofJson?_toJson (h : a.IsSorted) : ofJson? a.toJson = some a := by
  -- The entries are read as they stand, and a map in order is built up by them.
  have hentries : ∀ entries : List (String × String),
      ((entries.map fun e => (e.1, Json.text e.2)).map fun f => (some f.1, f.2)).mapM readEntry =
        some entries := by
    intro entries
    induction entries with
    | nil => rfl
    | cons e rest ih =>
      rw [List.map_cons, List.map_cons, List.mapM_cons, ih]
      rfl
  unfold toJson Json.record ofJson?
  dsimp only
  rw [hentries, Option.map_some, h.ofList_entries]

end Attributes

/-! ### Exports -/

namespace ExportDescriptor

variable {e : ExportDescriptor}

/-- It is written with texts only. -/
theorem isTextual_toJson (e : ExportDescriptor) : e.toJson.IsTextual := by
  refine .record fun f hf => ?_
  rcases List.mem_cons.mp hf with rfl | hf
  · exact .text e.exporter
  · obtain rfl := List.mem_singleton.mp hf
    exact e.attrs.isTextual_toJson

/-- An export with sorted attributes is read back. -/
theorem ofJson?_toJson (h : e.attrs.IsSorted) : ofJson? e.toJson = some e := by
  have hfields : Progress.Fields.of? ["exporter", "attrs"] e.toJson = _ :=
    @Progress.Fields.of?_record [("exporter", .text e.exporter), ("attrs", e.attrs.toJson)]
      (by simp)
  unfold ofJson?
  rw [hfields]
  simp [Progress.Fields.required, Progress.Fields.value, Progress.readText, Json.text,
    h.ofJson?_toJson]

end ExportDescriptor

/-! ### Directories -/

namespace SolveRequest

variable {r : SolveRequest} {dirs : List (String × Path)}

/-- The directories that are text are the entries of a map of texts. -/
theorem exists_texts (h : ∀ e ∈ dirs, Utf8.isValid e.2.bytes = true) :
    ∃ texts : List (String × String), dirs = texts.map fun e => (e.1, .ofString e.2) := by
  induction dirs with
  | nil => exact ⟨[], rfl⟩
  | cons e rest ih =>
    obtain ⟨he, hrest⟩ := List.forall_mem_cons.mp h
    obtain ⟨s, hs⟩ := Utf8.isValid_iff.mp he
    obtain ⟨texts, rfl⟩ := ih hrest
    exact ⟨(e.1, s) :: texts, congrArg (· :: _) (Prod.ext rfl (congrArg Path.mk hs))⟩

/-- Directories whose paths are texts can be written. -/
theorem dirsToJson_map (texts : List (String × String)) :
    dirsToJson (texts.map fun e => (e.1, .ofString e.2)) =
      some (texts.map fun e => (e.1, .text e.2)) := by
  induction texts with
  | nil => rfl
  | cons e rest ih =>
    have htext : Utf8.decode? (Path.ofString e.2).bytes = some e.2 := Utf8.decode?_encode e.2
    rw [List.map_cons, dirsToJson, htext, ih]
    rfl

/-- One directory that is no text is enough for the directories to have no JSON form. -/
theorem dirsToJson_eq_none (h : ∃ e ∈ dirs, Utf8.isValid e.2.bytes = false) :
    dirsToJson dirs = none := by
  induction dirs with
  | nil => simp at h
  | cons e rest ih =>
    rw [dirsToJson]
    split
    · next s hs =>
      have hvalid : Utf8.isValid e.2.bytes = true := by
        unfold Utf8.isValid
        rw [hs]
        rfl
      obtain ⟨e', he', hinvalid⟩ := h
      rcases List.mem_cons.mp he' with rfl | he'
      · rw [hvalid] at hinvalid
        cases hinvalid
      · rw [ih ⟨e', he', hinvalid⟩]
        rfl
    · rfl

/-! ### Requests -/

/-- The maps of a request are in the order of their keys, and no key comes twice. -/
structure IsOrdered (r : SolveRequest) : Prop where
  frontendAttrs : r.frontendAttrs.IsSorted
  exportAttrs : r.exportAs.attrs.IsSorted
  localDirs : r.localDirs.Pairwise fun e e' => e.1 < e'.1

/-- The two directories that are served are in order. -/
theorem pairwise_localDirs (r : BuildRequest) (id sessionId : String) :
    (r.solveRequest id sessionId).localDirs.Pairwise fun e e' => e.1 < e'.1 := by
  refine List.pairwise_pair.mpr ?_
  show "context" < "dockerfile-dir"
  decide

/-- Accepted options make requests in order. -/
theorem isOrdered_solveRequest {t : FileTree} {hostPlatform : String} {o : BuildOptions}
    {r : BuildRequest} (h : o.build t hostPlatform = .ok r) (id sessionId : String) :
    (r.solveRequest id sessionId).IsOrdered where
  frontendAttrs := BuildOptions.isSorted_frontendAttributes h
  exportAttrs := Attributes.isSorted_ofList _
  localDirs := pairwise_localDirs r id sessionId

/-- The JSON form of a request whose directories are texts. -/
def jsonOf (r : SolveRequest) (texts : List (String × String)) : Json :=
  .record [("id", .text r.id), ("session_id", .text r.sessionId), ("frontend", .text r.frontend),
    ("frontend_attrs", r.frontendAttrs.toJson), ("export", r.exportAs.toJson),
    ("local_dirs", Attributes.toJson ⟨texts⟩)]

/-- A request is written with texts only. -/
theorem isTextual_jsonOf (r : SolveRequest) (texts : List (String × String)) :
    (r.jsonOf texts).IsTextual := by
  refine .record fun f hf => ?_
  simp only [List.mem_cons, List.not_mem_nil, or_false] at hf
  rcases hf with rfl | rfl | rfl | rfl | rfl | rfl
  · exact .text r.id
  · exact .text r.sessionId
  · exact .text r.frontend
  · exact r.frontendAttrs.isTextual_toJson
  · exact r.exportAs.isTextual_toJson
  · exact Attributes.isTextual_toJson ⟨texts⟩

/-- A request can be written if its directories are texts. -/
theorem toJson?_eq {texts : List (String × String)}
    (h : r.localDirs = texts.map fun e => (e.1, .ofString e.2)) :
      r.toJson? = some (r.jsonOf texts) := by
  unfold toJson?
  rw [h, dirsToJson_map]
  rfl

/-- A request in order is read back from its JSON form. -/
theorem IsOrdered.ofJson?_jsonOf (hr : r.IsOrdered) {texts : List (String × String)}
    (h : r.localDirs = texts.map fun e => (e.1, .ofString e.2)) :
      ofJson? (r.jsonOf texts) = some r := by
  -- Directories are read as a map of texts, and as such they are in order.
  have hsorted : Attributes.IsSorted ⟨texts⟩ := by
    have hdirs := hr.localDirs
    rw [h, List.pairwise_map] at hdirs
    exact hdirs
  have hdirs : readDirs (Attributes.toJson ⟨texts⟩) = some r.localDirs := by
    unfold readDirs
    rw [hsorted.ofJson?_toJson, h]
    rfl
  have hfields : Progress.Fields.of?
      ["id", "session_id", "frontend", "frontend_attrs", "export", "local_dirs"]
        (r.jsonOf texts) = _ :=
    @Progress.Fields.of?_record [("id", .text r.id), ("session_id", .text r.sessionId),
      ("frontend", .text r.frontend), ("frontend_attrs", r.frontendAttrs.toJson),
      ("export", r.exportAs.toJson), ("local_dirs", Attributes.toJson ⟨texts⟩)] (by simp)
  unfold ofJson?
  rw [hfields]
  simp [Progress.Fields.required, Progress.Fields.value, Progress.readText, Json.text,
    hr.frontendAttrs.ofJson?_toJson, ExportDescriptor.ofJson?_toJson hr.exportAttrs, hdirs]

/-! ### The line -/

open Engine (lineBreak)

/-- A text without control characters has no line break among its bytes. -/
theorem lineBreak_notMem_encode {s : String} (h : ∀ c ∈ s.toList, 32 ≤ c.toNat) :
    lineBreak ∉ Utf8.encode s := by
  intro hmem
  have hc := h _ (Utf8.char_mem_of_mem_encode hmem (by decide))
  exact absurd hc (by decide)

/-- A request is put to the engine as one line, which is read as the request again. The texts in
it are any texts at all. Its maps are in the order of their keys, as those of every request are
that is made of accepted options (`isOrdered_solveRequest`).

* If all directories are text, the bytes that are written have one line break, and it is the last
  byte. Both the bytes before it and the whole line are read as the request.
* If one of the directories is no text, there is no line to write, and the engine sends nothing
  and returns with a breach of the protocol, whatever the program would do. -/
theorem line_framed (r : SolveRequest) (hordered : r.IsOrdered) :
    ((∀ e ∈ r.localDirs, Utf8.isValid e.2.bytes = true) →
      ∃ line bytes, r.line? = some line ∧ Utf8.encode line = bytes ++ [lineBreak] ∧
        lineBreak ∉ bytes ∧
        (Utf8.decode? bytes).bind ofLine? = some r ∧ ofLine? line = some r) ∧
    ((∃ e ∈ r.localDirs, Utf8.isValid e.2.bytes = false) →
      r.line? = none ∧ ∀ b : Engine.Behaviour, Engine.Program.engineScript r.line?.isSome b =
        { sendings := [], after := some 0, ends := .failed .protocol }) := by
  refine ⟨fun hvalid => ?_, fun hinvalid => ?_⟩
  · obtain ⟨texts, hdirs⟩ := exists_texts hvalid
    have htextual := r.isTextual_jsonOf texts
    have hline : r.line? = some ((r.jsonOf texts).render ++ "\n") := by
      unfold line?
      rw [toJson?_eq hdirs]
      rfl
    have hread := hordered.ofJson?_jsonOf hdirs
    refine ⟨_, Utf8.encode (r.jsonOf texts).render, hline, ?_, ?_, ?_, ?_⟩
    · unfold Utf8.encode
      rw [String.toList_append, List.flatMap_append]
      rfl
    · -- Control characters are escaped in the text, so the only break is the one at its end.
      refine lineBreak_notMem_encode fun c hc => htextual.printable c ?_
      rwa [Json.render, String.toList_ofList] at hc
    · rw [Utf8.decode?_encode, Option.bind_some, ofLine?, htextual.read?_render,
        Option.bind_some, hread]
    · have hblank : ∀ c ∈ "\n".toList, Json.isBlank c = true := List.forall_mem_singleton.mpr rfl
      rw [ofLine?, htextual.read?_render_append hblank, Option.bind_some, hread]
  · have hline : r.line? = none := by
      unfold line? toJson?
      rw [dirsToJson_eq_none hinvalid]
      rfl
    refine ⟨hline, fun b => ?_⟩
    rw [hline]
    rfl

/-- Options with line breaks, quotes, control characters and letters beyond ASCII in what the user
says. -/
def outspokenOptions : BuildOptions where
  contextDir := .ofString "a\nb"
  recipe := some (.ofString "\u00fc/r")
  tags := ["app"]
  target := some "\"stage\""
  platforms := []
  buildArgs := ["K\n=\\", "L=\x01\x7f"]
  labels := ["m=\u20ac\r\n"]
  noCache := false

/-- Options with quotation marks, line breaks and repeated entries make a line that is read back.
With a directory that is no text there is no line. -/
theorem outspokenOptions_framed :
    ∃ r, outspokenOptions.build ⟨[], []⟩ "linux/amd64" = .ok r ∧
      (∃ line bytes, (r.solveRequest "1" "2").line? = some line ∧
        Utf8.encode line = bytes ++ [lineBreak] ∧ lineBreak ∉ bytes ∧
        ofLine? line = some (r.solveRequest "1" "2")) ∧
      ({ r with contextDir := ⟨[0xFF]⟩ }.solveRequest "1" "2").line? = none := by
  have hvalid : (outspokenOptions.build ⟨[], []⟩ "linux/amd64").toOption.map (fun r =>
      (r.solveRequest "1" "2").localDirs.all fun e => Utf8.isValid e.2.bytes) = some true := by
    decide +kernel
  cases hr : outspokenOptions.build ⟨[], []⟩ "linux/amd64" with
  | error f =>
    rw [hr] at hvalid
    cases hvalid
  | ok r =>
    have hordered := isOrdered_solveRequest hr "1" "2"
    rw [hr] at hvalid
    have hdirs := List.all_eq_true.mp (Option.some.inj hvalid)
    obtain ⟨line, bytes, hline, hbytes, hnone, -, hread⟩ := (line_framed _ hordered).1 hdirs
    refine ⟨r, rfl, ⟨line, bytes, hline, hbytes, hnone, hread⟩, ?_⟩
    have hother : ({ r with contextDir := ⟨[0xFF]⟩ }.solveRequest "1" "2").IsOrdered :=
      ⟨hordered.frontendAttrs, hordered.exportAttrs, pairwise_localDirs _ "1" "2"⟩
    refine ((line_framed _ hother).2 ⟨("context", ⟨[0xFF]⟩), List.mem_cons_self, ?_⟩).1
    show Utf8.isValid [0xFF] = false
    decide +kernel

end SolveRequest
end ImageBuild
