import ImageBuild.Proofs.Reference.RoundTrip
import ImageBuild.Proofs.Request.FirstOffence

/-!
# `ImageBuild.Proofs.Request.Names`: the names an image is exported under

The engine is told all names of an image in one text, with commas between them.
`exportedNames_takenApart` says that the tags of the request can be read from it again. Two facts
carry this, and both are about references that were read from some text:

* Such a reference is displayed in the alphabet of its grammar, which has no comma
  (`Reference.IsRead.comma_notMem_display`). So the pieces between the commas are the displayed
  tags (`HasReadTags.commaPieces_eq`).
* What is displayed is read as the same reference again (`Reference.IsNormal.parse_display`).

Options that are accepted make a request with tags that were read (`hasReadTags_of_build`).
-/

set_option autoImplicit false

namespace ImageBuild

namespace BuildRequest

variable {t : FileTree} {hostPlatform : String} {o : BuildOptions} {r : BuildRequest}

/-- The parts of a text between commas. -/
def commaPieces (names : String) : List String := (names.toList.splitOn ',').map String.ofList

/-- What was put together with commas comes apart again, if none of it has a comma. -/
theorem commaPieces_commaList {xs : List String} (hne : xs ≠ []) (h : ∀ x ∈ xs, ',' ∉ x.toList) :
    commaPieces (commaList xs) = xs := by
  have hcomma : ",".toList = [','] := rfl
  have hfree : ∀ cs ∈ xs.map String.toList, ',' ∉ cs := by
    intro cs hcs
    obtain ⟨x, hx, rfl⟩ := List.mem_map.mp hcs
    exact h x hx
  unfold commaPieces commaList
  rw [String.toList_intercalate, hcomma, List.splitOn_intercalate ',' hfree (by simpa using hne),
    List.map_map]
  simp [Function.comp_def]

/-- The request has tags, and all of them were read from some text. -/
structure HasReadTags (r : BuildRequest) : Prop where
  ne_nil : r.tags ≠ []
  isRead : ∀ tag ∈ r.tags, tag.IsRead

/-- The requests that are made of accepted options are such, with one reference for each tag. -/
theorem hasReadTags_of_build (h : o.build t hostPlatform = .ok r) :
    r.HasReadTags ∧ r.tags.length = o.tags.length := by
  cases BuildOptions.build_eq_ok_iff_answers.mp h with
  | request htags _ _ hmade =>
    have hlength := hmade.tags.length_eq
    have hread : List.Forall₂ (fun (reference : Reference) tag =>
        reference.IsRead ∧ Reference.parseTagged tag = .ok reference) r.tags o.tags :=
      (hmade.tags.imp fun tag reference h => ⟨⟨tag, Or.inr h⟩, h⟩).flip
    refine ⟨⟨fun hnil => htags ?_, ((List.forall₂_and_left _ _).mp hread).1⟩, hlength.symm⟩
    rw [hnil] at hlength
    exact List.eq_nil_of_length_eq_zero hlength

/-- Between the commas of the exported names stand the full forms of the tags. -/
theorem HasReadTags.commaPieces_eq (h : r.HasReadTags) :
    commaPieces (commaList (r.tags.map Reference.display)) = r.tags.map Reference.display := by
  refine commaPieces_commaList (by simpa using h.ne_nil) fun x hx => ?_
  obtain ⟨tag, htag, rfl⟩ := List.mem_map.mp hx
  exact (h.isRead tag htag).comma_notMem_display

/-- The names under which an image is exported can be taken apart again. Between their commas are
as many pieces as there are tags, and each piece is read as the tag in its place. This holds of
every request with tags that were read, and requests that are made of accepted options are such.
It rests on the alphabet of references: none is written with a comma. -/
theorem exportedNames_takenApart :
    (∀ r : BuildRequest, r.HasReadTags →
      ∃ names, r.exportDescriptor.attrs.get? "name" = some names ∧
        (commaPieces names).length = r.tags.length ∧
        List.Forall₂ (fun piece tag => Reference.parse piece = .ok tag)
        (commaPieces names) r.tags) ∧
    (∀ (t : FileTree) (hostPlatform : String) (o : BuildOptions) (r : BuildRequest),
      o.build t hostPlatform = .ok r → r.HasReadTags ∧ r.tags.length = o.tags.length) ∧
    ∀ tag : Reference, tag.IsRead → ',' ∉ tag.display.toList := by
  refine ⟨fun r h => ⟨commaList (r.tags.map Reference.display), rfl, ?_, ?_⟩,
    fun t hostPlatform o r h => hasReadTags_of_build h, fun tag h => h.comma_notMem_display⟩
  · rw [h.commaPieces_eq, List.length_map]
  · rw [h.commaPieces_eq, List.forall₂_map_left_iff, List.forall₂_same]
    intro tag htag
    exact (h.isRead tag htag).isNormal.parse_display

/-- A request with two tags: the default tag of a short name, and a registry with a port. -/
def twoTags : BuildRequest where
  recipePath := .ofString "r"
  contextDir := .ofString "a"
  tags := [⟨"docker.io", "library/app", some "latest", none⟩,
    ⟨"localhost:5000", "my__app", some "1.2", none⟩]
  target := none
  platforms := ["linux/amd64"]
  buildArgs := .empty
  labels := .empty
  cacheDisabled := false

/-- Two tags are exported under one name and taken apart again. -/
theorem twoTags_takenApart :
    twoTags.HasReadTags ∧ twoTags.exportDescriptor.attrs.get? "name" =
        some "docker.io/library/app:latest,localhost:5000/my__app:1.2" ∧
      List.Forall₂ (fun piece tag => Reference.parse piece = .ok tag)
        (commaPieces "docker.io/library/app:latest,localhost:5000/my__app:1.2") twoTags.tags := by
  have happ : Reference.parseTagged "app" =
      .ok ⟨"docker.io", "library/app", some "latest", none⟩ :=
    Reference.eq_ok_of_toOption (by decide +kernel)
  have hport : Reference.parseTagged "localhost:5000/my__app:1.2" =
      .ok ⟨"localhost:5000", "my__app", some "1.2", none⟩ :=
    Reference.eq_ok_of_toOption (by decide +kernel)
  have hread : twoTags.HasReadTags := by
    refine ⟨by decide, fun tag htag => ?_⟩
    simp only [twoTags, List.mem_cons, List.not_mem_nil, or_false] at htag
    rcases htag with rfl | rfl
    · exact ⟨_, Or.inr happ⟩
    · exact ⟨_, Or.inr hport⟩
  have hname : twoTags.exportDescriptor.attrs.get? "name" =
      some "docker.io/library/app:latest,localhost:5000/my__app:1.2" := by decide +kernel
  obtain ⟨names, hnames, -, hpieces⟩ := exportedNames_takenApart.1 twoTags hread
  obtain rfl := Option.some.inj (hname.symm.trans hnames)
  exact ⟨hread, hname, hpieces⟩

end BuildRequest
end ImageBuild
