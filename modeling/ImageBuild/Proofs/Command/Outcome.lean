import ImageBuild.Proofs.Command.Cleanup
import ImageBuild.Proofs.Reference.Parsing
import ImageBuild.Proofs.Request.Options

/-!
# `ImageBuild.Proofs.Command.Outcome`: what a build says of itself

A build checks its sources, its request and the host before it says anything on standard output.
Once all of them are ready (`IsReady`) it announces the image, lets the engine solve, and tells
the success if and only if the solve ended well: `build_cases`, `solveWith_of_endsWell`,
`solveWith_of_not_endsWell`.

Three kinds of arguments are refused before anything is looked at (`IsRefused`), which shows in
that the world has no part in the outcome. `build_truthful` puts this together with the removal of
storage.
-/

set_option autoImplicit false

namespace ImageBuild.Command

open Context FileTree

variable {t t' : FileTree} {w : World} {config : EngineConfig} {args : BuildArguments}
  {r r' : BuildRequest} {o : BuildOptions}

/-! ### The primary tag -/

/-- The first of the references is read from the first of the texts. -/
theorem parseTags_cons {name : String} {rest : List String} {tags : List Reference}
    (h : BuildOptions.parseTags (name :: rest) = .ok tags) :
    ∃ tag more, Reference.parseTagged name = .ok tag ∧ tags = tag :: more := by
  rw [BuildOptions.parseTags] at h
  split at h
  · cases h
  · next tag htag =>
    cases hrest : BuildOptions.parseTags rest with
    | error f =>
      rw [hrest] at h
      cases h
    | ok more =>
      rw [hrest] at h
      cases h
      exact ⟨tag, more, htag, rfl⟩

/-- A request that passed its checks has a primary tag, read from the first tag that was asked
for. -/
theorem primaryTag_of_build {hostPlatform : String} (h : o.build t hostPlatform = .ok r) :
    ∃ name tag, o.tags.head? = some name ∧ Reference.parseTagged name = .ok tag ∧
      r.primaryTag? = some tag := by
  obtain ⟨hsome, tags, recipePath, buildArgs, labels, htags, -, -, -, rfl⟩ :=
    BuildOptions.build_eq_ok_iff.mp h
  obtain ⟨name, rest, hnames⟩ := List.exists_cons_of_ne_nil hsome
  rw [hnames] at htags ⊢
  obtain ⟨tag, more, htag, rfl⟩ := parseTags_cons htags
  exact ⟨name, tag, rfl, htag, rfl⟩

/-! ### Stages -/

/-- Sources, request and host are ready, and it is left to the engine to solve `r` in the tree
`t`. -/
def IsReady (w : World) (config : EngineConfig) (args : BuildArguments) (r : BuildRequest)
    (t : FileTree) : Prop :=
  ∃ sources t₁ ready, readSources w args = (.ok sources, t₁) ∧
    (optionsOf args sources).build t₁ w.hostPlatform = .ok r ∧
    preflight t₁ w.env config = (.ok ready, t)

/-- What the engine is to do is certain. -/
theorem IsReady.unique (h : IsReady w config args r t) (h' : IsReady w config args r' t') :
    r = r' ∧ t = t' := by
  obtain ⟨sources, t₁, ready, hsources, hbuild, hcheck⟩ := h
  obtain ⟨sources', t₁', ready', hsources', hbuild', hcheck'⟩ := h'
  cases hsources.symm.trans hsources'
  cases hbuild.symm.trans hbuild'
  cases hcheck.symm.trans hcheck'
  exact ⟨rfl, rfl⟩

/-- The primary tag of a build that is ready. -/
theorem IsReady.primaryTag (h : IsReady w config args r t) :
    ∃ name tag, args.tags.head? = some name ∧ Reference.parseTagged name = .ok tag ∧
      r.primaryTag? = some tag := by
  obtain ⟨sources, t₁, ready, -, hbuild, -⟩ := h
  exact primaryTag_of_build hbuild

/-- A build is ready and goes on as the engine does, or it is not ready, prints nothing and
fails. -/
theorem build_cases (w : World) (config : EngineConfig) (args : BuildArguments) :
    (∃ r t, IsReady w config args r t ∧
      (build w config args).printed = (solveWith w config t r).printed ∧
      (build w config args).result = (solveWith w config t r).result) ∨
    (∀ r t, ¬ IsReady w config args r t) ∧ (build w config args).printed = .nothing ∧
      ∃ failure, (build w config args).result = .error failure := by
  unfold build
  split
  · -- Whether there is a tag is asked first, but without one the checks would not pass either.
    next hnone =>
    refine Or.inr ⟨fun r t hready => ?_, rfl, _, rfl⟩
    obtain ⟨name, tag, hname, -⟩ := hready.primaryTag
    rw [List.isEmpty_iff.mp hnone] at hname
    cases hname
  · -- Of sources, request and host, the first that is not ready is the end of the build.
    rcases hsources : readSources w args with ⟨report | sources, t₁⟩
    · refine Or.inr ⟨?_, rfl, _, rfl⟩
      rintro r t ⟨sources, t₁, ready, hsources', -⟩
      cases hsources.symm.trans hsources'
    · dsimp only
      unfold solve
      rcases hbuild : (optionsOf args sources).build t₁ w.hostPlatform with f | r
      · refine Or.inr ⟨?_, rfl, _, rfl⟩
        rintro r t ⟨sources', t₁', ready, hsources', hbuild', -⟩
        cases hsources.symm.trans hsources'
        cases hbuild.symm.trans hbuild'
      · dsimp only
        rcases hcheck : preflight t₁ w.env config with ⟨f | ready, t₂⟩
        · refine Or.inr ⟨?_, rfl, _, rfl⟩
          rintro r t ⟨sources', t₁', ready, hsources', -, hcheck'⟩
          cases hsources.symm.trans hsources'
          cases hcheck.symm.trans hcheck'
        · exact Or.inl ⟨r, t₂, ⟨sources, t₁, ready, hsources, hbuild, hcheck⟩, rfl, rfl⟩

/-- The announcement of an image. -/
def announcement (tag : Reference) : String := s!"Building {tag.familiar}\n"

/-- The success for an image. -/
def successLine (tag : Reference) : String := s!"Successfully built {tag.familiar}\n"

/-- The engine is asked to solve, and the solve ends well. -/
def EndsWell (w : World) (config : EngineConfig) (t : FileTree) (r : BuildRequest) : Prop :=
  ∃ solve, orchestrate w config t r = some solve ∧ solve.result = some (.ok ())

/-- The tag that is shown is the first one, in its familiar form. -/
theorem shownTag_eq {tag : Reference} (htag : r.primaryTag? = some tag) :
    shownTag r = tag.familiar := by
  rw [shownTag, htag]
  rfl

/-- A solve that ends well is told as a success. -/
theorem solveWith_of_endsWell {tag : Reference} (htag : r.primaryTag? = some tag)
    (h : EndsWell w config t r) :
    (solveWith w config t r).printed.stdout = announcement tag ++ successLine tag ∧
      (solveWith w config t r).result = .ok () := by
  obtain ⟨solve, hsolve, hresult⟩ := h
  unfold solveWith
  rw [shownTag_eq htag, hsolve]
  dsimp only
  rw [hresult]
  exact ⟨rfl, rfl⟩

/-- A solve that ends otherwise is a failure, after the announcement. -/
theorem solveWith_of_not_endsWell {tag : Reference} (htag : r.primaryTag? = some tag)
    (h : ¬ EndsWell w config t r) :
    (solveWith w config t r).printed.stdout = announcement tag ∧
      ∃ failure, (solveWith w config t r).result = .error failure := by
  unfold solveWith
  rw [shownTag_eq htag]
  rcases hsolve : orchestrate w config t r with _ | solve
  · exact ⟨rfl, _, rfl⟩
  · dsimp only
    rcases hresult : solve.result with _ | f | _
    · exact ⟨rfl, _, rfl⟩
    · exact ⟨rfl, _, rfl⟩
    · exact absurd ⟨solve, hsolve, hresult⟩ h

/-- An announcement is not empty. -/
theorem announcement_ne (tag : Reference) : announcement tag ≠ "" := by
  intro heq
  have hchars := congrArg String.toList heq
  simp only [announcement, String.toList_append, String.toList_empty, List.append_eq_nil_iff]
    at hchars
  exact absurd hchars.1.1 (by decide)

/-- An announcement is no empty text, whatever follows it. -/
theorem announcement_append_ne (tag : Reference) (s : String) : announcement tag ++ s ≠ "" := by
  rw [ne_eq, String.append_eq_empty_iff]
  exact fun hempty => announcement_ne tag hempty.1

/-! ### Refusals -/

/-- Arguments without a tag, without a context, or with standard input for both sources. -/
def IsRefused (args : BuildArguments) : Prop :=
  args.tags = [] ∨ args.path = "" ∨ args.path = "-" ∧ args.file = "-"

/-- Refused arguments make no storage. -/
theorem IsRefused.not_makesStorage (h : IsRefused args) (w : World) (p : Path) :
    ¬ MakesStorage w args p := by
  rintro ⟨htags, context, staged, t, hcontext, hstage, -⟩
  obtain hnone | hpath | ⟨hpath, hfile⟩ := h
  · exact htags hnone
  · rw [hpath] at hcontext
    cases hcontext
  · rw [hpath] at hcontext
    rw [hfile] at hstage
    cases hcontext
    cases hstage

/-- What refused arguments are told. -/
def refusal (args : BuildArguments) : Report :=
  if args.tags = [] then .ofBuildFault .missingTags
  else if args.path = "" then .ofContextFault .missingContext
  else (Report.ofContextFault .stdinConflict).within "resolving build input failed"

/-- Refused arguments are refused at once: neither the tree nor standard input nor anything else
of the world has a part in it. -/
theorem IsRefused.build_eq (h : IsRefused args) (w : World) (config : EngineConfig) :
    build w config args = ⟨.nothing, w.tree, .error (refusal args).failure⟩ := by
  unfold build refusal
  by_cases hnone : args.tags = []
  · rw [if_pos hnone, if_pos (by simp [hnone])]
  · rw [if_neg hnone, if_neg (by simpa using hnone)]
    unfold readSources
    obtain hpath | ⟨hpath, hfile⟩ := h.resolve_left hnone
    · rw [hpath]
      rfl
    · rw [hpath, hfile]
      rfl

/-! ### The whole build -/

/-- What a build prints and answers is true. -/
structure IsTruthful (w : World) (config : EngineConfig) (args : BuildArguments)
    (stage : Stage Unit) :
    Prop where
  /-- Something is printed if and only if sources, request and host are ready. -/
  announced_iff : stage.printed.stdout ≠ "" ↔ ∃ r t, IsReady w config args r t
  /-- Then it is the announcement of the primary tag, with the success behind it if the solve
  ended well and nothing behind it else. -/
  stdout_eq : ∀ r t, IsReady w config args r t → ∃ name tag, args.tags.head? = some name ∧
    Reference.parseTagged name = .ok tag ∧
    (EndsWell w config t r → stage.printed.stdout = announcement tag ++ successLine tag) ∧
    (¬ EndsWell w config t r → stage.printed.stdout = announcement tag)
  /-- The build succeeds if and only if the solve ended well. -/
  ok_iff : stage.result = .ok () ↔ ∃ r t, IsReady w config args r t ∧ EndsWell w config t r
  /-- The command then exits with zero, and else it does not. -/
  exit_iff : (outcomeOf stage).exit = 0 ↔ stage.result = .ok ()

/-- The exit status is 0 exactly when the stage ends well. -/
theorem exit_outcomeOf_iff (stage : Stage Unit) :
    (outcomeOf stage).exit = 0 ↔ stage.result = .ok () := by
  unfold outcomeOf
  rcases stage.result with failure | _
  · have hexit : failure.exit ≠ 0 := by
      unfold Failure.exit
      split <;> decide
    simp [hexit]
  · simp

/-- There is one solve to end well. -/
theorem IsReady.exists_endsWell_iff (h : IsReady w config args r t) :
    (∃ r' t', IsReady w config args r' t' ∧ EndsWell w config t' r') ↔ EndsWell w config t r := by
  constructor
  · rintro ⟨r', t', hready', hgood⟩
    obtain ⟨rfl, rfl⟩ := h.unique hready'
    exact hgood
  · exact fun hgood => ⟨r, t, h, hgood⟩

/-- What the solve of a build that is ready prints and answers is true. -/
theorem IsReady.isTruthful {stage : Stage Unit} (h : IsReady w config args r t)
    (hprinted : stage.printed = (solveWith w config t r).printed)
    (hresult : stage.result = (solveWith w config t r).result) :
      IsTruthful w config args stage := by
  obtain ⟨name, tag, hname, hparsed, htag⟩ := h.primaryTag
  have hgood : EndsWell w config t r → stage.printed.stdout =
      announcement tag ++ successLine tag ∧
      stage.result = .ok () := by
    intro hends
    rw [hprinted, hresult]
    exact solveWith_of_endsWell htag hends
  have hbad : ¬ EndsWell w config t r → stage.printed.stdout = announcement tag ∧
      ∃ failure, stage.result = .error failure := by
    intro hends
    rw [hprinted, hresult]
    exact solveWith_of_not_endsWell htag hends
  -- All that is printed and answered turns on whether the solve ends well.
  refine ⟨⟨fun _ => ⟨r, t, h⟩, fun _ => ?_⟩, fun r' t' hready' => ?_, ?_,
    exit_outcomeOf_iff stage⟩
  · by_cases hends : EndsWell w config t r
    · rw [(hgood hends).1]
      exact announcement_append_ne tag _
    · rw [(hbad hends).1]
      exact announcement_ne tag
  · obtain ⟨rfl, rfl⟩ := h.unique hready'
    exact ⟨name, tag, hname, hparsed, fun hends => (hgood hends).1, fun hends => (hbad hends).1⟩
  · rw [h.exists_endsWell_iff]
    refine ⟨fun hok => ?_, fun hends => (hgood hends).2⟩
    by_contra hends
    obtain ⟨failure, hfailure⟩ := (hbad hends).2
    rw [hfailure] at hok
    cases hok

/-- A build that is not ready is truthful if it prints nothing and fails. -/
theorem isTruthful_of_not_ready {stage : Stage Unit} {failure : Failure}
    (hnot : ∀ r t, ¬ IsReady w config args r t) (hprinted : stage.printed = .nothing)
    (hresult : stage.result = .error failure) : IsTruthful w config args stage := by
  refine ⟨⟨fun hne => ?_, ?_⟩, fun r t hready => absurd hready (hnot r t), ⟨fun hok => ?_, ?_⟩,
    exit_outcomeOf_iff stage⟩
  · rw [hprinted] at hne
    exact absurd rfl hne
  · rintro ⟨r, t, hready⟩
    exact absurd hready (hnot r t)
  · rw [hresult] at hok
    cases hok
  · rintro ⟨r, t, hready, -⟩
    exact absurd hready (hnot r t)

/-- A build of any world is truthful. -/
theorem build_isTruthful (w : World) (config : EngineConfig) (args : BuildArguments) :
    IsTruthful w config args (build w config args) := by
  obtain ⟨r, t, hready, hprinted, hresult⟩ | ⟨hnot, hprinted, failure, hresult⟩ :=
    build_cases w config args
  · exact hready.isTruthful hprinted hresult
  · exact isTruthful_of_not_ready hnot hprinted hresult

/-- A build cleans up and tells the truth, for all arguments, settings, and engines, and all that
standard input may hold, unless it is interrupted while it reads that. When it returns, none of
the storage that it made is there, no file is new, and what was there is as it was. It announces
the image exactly if sources, request and host are ready, and tells and answers success exactly if
the solve then ends well. Arguments without a tag, without a context, or with standard input for
both sources are refused in every world alike, with no storage made. -/
theorem build_truthful (w : World) (config : EngineConfig) (args : BuildArguments)
    (hwf : w.tree.WellFormed) (hread : w.interrupt ≠ some .reading) :
    CleansUp w args (build w config args).tree ∧
    IsTruthful w config args (build w config args) ∧
    (IsRefused args → ∀ (w' : World) (config' : EngineConfig),
      build w' config' args = ⟨.nothing, w'.tree, .error (refusal args).failure⟩ ∧
        ∀ p, ¬ MakesStorage w' args p) := by
  refine ⟨build_cleansUp hwf hread config args, build_isTruthful w config args, ?_⟩
  intro hrefused w' config'
  exact ⟨hrefused.build_eq w' config', hrefused.not_makesStorage w'⟩

/-! ### A build of a piped recipe -/

/-- The shortest native image. -/
def nativeImage : Bytes :=
  ProgramImage.nativeMark ++ List.replicate 12 0 ++ [2] ++ List.replicate 37 0 ++
    [ProgramImage.tableEntryLength]

/-- A tree with a directory `t` that everybody may use, and a directory `b` with a runtime helper
`r` and an engine `e`. -/
def hostTree : FileTree where
  nodes := [([[0x74]], .directory 0o1777), ([[0x62]], .directory 0o755),
    ([[0x62], [0x72]], .file 0o755 []), ([[0x62], [0x65]], .file 0o755 nativeImage)]
  workdir := []

/-- A world in which standard input brings a recipe and the engine is done at once. -/
def pipedWorld : World where
  tree := hostTree
  env := [("TMPDIR", "/t"), ("PATH", "/b")]
  stdin := ⟨[Utf8.encode "FROM base"], false⟩
  hostPlatform := "linux/amd64"
  engine := ⟨Utf8.encode "\x7b\"done\":\x7b\x7d\x7d\n", some (.code 0), none⟩
  interrupt := none
  requestId := "r"
  sessionId := "s"

def pipedConfig : EngineConfig := ⟨.ofString "/t", "auto", "e", "r", 64⟩

def pipedArguments : BuildArguments := ⟨"c", "-", ["app"], none, [], [], [], false⟩

/-- Where the recipe is stored. -/
def pipedRecipe : Path := .ofString "/t/kiln-build-recipe-000000"

/-- The tree while the recipe is stored. -/
def pipedTree : FileTree :=
  hostTree.set [[0x74], Utf8.encode "kiln-build-recipe-000000"]
    (.file 0o600 (Utf8.encode "FROM base"))

def pipedSources : BuildSources := ⟨⟨[0x63]⟩, some pipedRecipe, none, some pipedRecipe⟩

def pipedTag : Reference := ⟨"docker.io", "library/app", some "latest", none⟩

def pipedRequest : BuildRequest :=
  ⟨pipedRecipe, ⟨[0x63]⟩, [pipedTag], none, ["linux/amd64"], .ofList [], .ofList [], false⟩

/-- The recipe is stored, the request passes its checks, and the host has what is needed. -/
theorem isReady_piped : IsReady pipedWorld pipedConfig pipedArguments pipedRequest pipedTree := by
  have hsources : readSources pipedWorld pipedArguments = (.ok pipedSources, pipedTree) := by cbv
  have hbuild : ((optionsOf pipedArguments pipedSources).build pipedTree
      pipedWorld.hostPlatform).toOption = some pipedRequest := by decide +kernel
  have hcheck : preflight pipedTree pipedWorld.env pipedConfig =
      (.ok ⟨.ofString "/b/r", .ofString "/t"⟩, pipedTree) := by cbv
  exact ⟨_, _, _, hsources, Reference.eq_ok_of_toOption hbuild, hcheck⟩

/-- The engine says that it is done and exits well. -/
theorem endsWell_piped : EndsWell pipedWorld pipedConfig pipedTree pipedRequest := by
  have hroom : ¬ queueLimit < pipedConfig.eventBuffer := by decide
  have hstart : startFault? pipedWorld pipedConfig pipedTree = none := by cbv
  have hwritten : (handedRequest pipedWorld pipedRequest).line?.isSome = true := by decide +kernel
  have houtput : Engine.readOutput pipedWorld.engine.output = ([], .done) := by decide +kernel
  unfold EndsWell orchestrate Engine.Program.script Engine.Program.engineScript
  rw [if_neg hroom, hstart, hwritten, houtput]
  exact ⟨_, rfl, rfl⟩

/-- This build makes a file for the recipe it reads. -/
theorem makesStorage_piped : MakesStorage pipedWorld pipedArguments pipedRecipe := by
  have hstage : StagedSources.stage pipedWorld.tree (temporaryDirectory pipedWorld.env)
      (.ofString pipedArguments.file) (.directory ⟨[0x63]⟩) =
        (.ok ⟨.stdin, ⟨[0x63]⟩, none, some pipedRecipe⟩, pipedTree.set
          [[0x74], Utf8.encode "kiln-build-recipe-000000"] (.file 0o600 [])) := by cbv
  exact ⟨by decide, _, _, _, rfl, hstage, Or.inr rfl⟩

/-- The build of the piped recipe is announced and succeeds, and the recipe is gone afterwards. -/
theorem piped_truthful :
    (build pipedWorld pipedConfig pipedArguments).printed.stdout =
        "Building app:latest\nSuccessfully built app:latest\n" ∧
      (build pipedWorld pipedConfig pipedArguments).result = .ok () ∧
      (build pipedWorld pipedConfig pipedArguments).tree.find false pipedRecipe =
        .error .notFound := by
  obtain ⟨hclean, htrue, -⟩ :=
    build_truthful pipedWorld pipedConfig pipedArguments (by decide) (by decide)
  obtain ⟨name, tag, hname, hparsed, hstdout, -⟩ := htrue.stdout_eq _ _ isReady_piped
  have htag : Reference.parseTagged "app" = .ok pipedTag :=
    Reference.eq_ok_of_toOption (by decide +kernel)
  cases hname
  cases htag.symm.trans hparsed
  refine ⟨?_, htrue.ok_iff.mpr ⟨_, _, isReady_piped, endsWell_piped⟩,
    hclean.gone _ makesStorage_piped⟩
  rw [hstdout endsWell_piped]
  decide +kernel

end ImageBuild.Command
