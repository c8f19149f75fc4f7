import ImageBuild.Config.Settings
import ImageBuild.Proofs.Request.FirstOffence

/-!
# `ImageBuild.Proofs.Config.Layers`: which layer each setting comes from

`EngineConfig.load` reads the environment and the file as lists of entries and looks every setting
up in both. `Loads` says what it answers without these lists: each setting by itself is what the
last variable for it says, or else what the file says, or else the default (`IsSetting`). A value
of the wrong type counts only where it is looked at (`IsMistyped`), and a file has to be there
only if it was asked for.

Unknown settings of the file count for nothing, and those of the environment would too if every
variable could be read. A variable that is for some setting, known or not, and that cannot be read
(`IsUnreadable`) is the end of all of them.

* `lookup_settings_iff`: the entries of the environment hold what its variables say.
* `setting_eq_ok_iff`, `setting_eq_error_iff`: one setting in the two layers.
* `load_eq_iff_loads`: every load has exactly one answer, and that is what `load` returns.
-/

set_option autoImplicit false

namespace ImageBuild.Config

open BuildOptions (bind_eq_ok_iff bind_eq_error_iff)
open Toml (Entries Value)

variable {env : Environment} {entry : String × String} {entries : Entries} {key : String}
  {v : Value}
  {fault : BuildFault}

/-! ### One variable -/

/-- What a variable says of a setting: the value that it spells, or a table if it is for a part of
the setting only. -/
inductive Says (entry : String × String) (key : String) : Value → Prop
  | whole {v : Value} : settingName? entry.1 = some (key, false) → valueOf entry.2 = some v →
    Says entry key v
  | part {v : Value} : settingName? entry.1 = some (key, true) → valueOf entry.2 = some v →
    Says entry key (.table [])

/-- The variable is for a setting, known or not, and no value can be read from it. -/
def IsUnreadable (entry : String × String) : Prop :=
  settingName? entry.1 ≠ none ∧ valueOf entry.2 = none

/-- Reading a variable fails exactly on a value that cannot be read, and the fault names the
variable. -/
theorem settingOf?_eq_error_iff :
    settingOf? entry = .error fault ↔ IsUnreadable entry ∧
    fault = .unreadableVariable entry.1 := by
  unfold settingOf? IsUnreadable
  cases settingName? entry.1 with
  | none => simp
  | some name =>
    obtain ⟨key, part⟩ := name
    cases valueOf entry.2 with
    | none => simp [eq_comm]
    | some v => cases part <;> simp

/-- The same without the fault. -/
theorem exists_settingOf?_eq_error_iff :
    (∃ fault, settingOf? entry = .error fault) ↔ IsUnreadable entry := by
  simp [settingOf?_eq_error_iff]

/-- A variable is read as what it says. -/
theorem settingOf?_eq_some_iff : settingOf? entry = .ok (some (key, v)) ↔ Says entry key v := by
  constructor
  · intro h
    unfold settingOf? at h
    cases hname : settingName? entry.1 with
    | none => rw [hname] at h; cases h
    | some name =>
      obtain ⟨name, part⟩ := name
      cases hvalue : valueOf entry.2 with
      | none => rw [hname, hvalue] at h; cases h
      | some w =>
        rw [hname, hvalue] at h
        cases part with
        | true =>
          cases h
          exact .part hname hvalue
        | false =>
          cases h
          exact .whole hname hvalue
  · intro h
    unfold settingOf?
    cases h with
    | whole hname hvalue => rw [hname, hvalue]
    | part hname hvalue => rw [hname, hvalue]

/-! ### All variables -/

/-- What the variables say of a setting. Of those for one setting the last counts. -/
def Environment.Sets (env : Environment) (key : String) (v : Value) : Prop :=
  ∃ entry, IsFirst (fun entry => ∃ w, Says entry key w) env.reverse entry ∧ Says entry key v

/-- What is looked up in some settings is what the first variable for it says. -/
theorem lookup_filterMap_iff {vars : List (String × String)}
    {said : List (Option (String × Value))}
    (h : List.Forall₂ (fun entry one => settingOf? entry = .ok one) vars said) :
    (said.filterMap id).lookup key = some v ↔
      ∃ entry, IsFirst (fun entry => ∃ w, Says entry key w) vars entry ∧ Says entry key v := by
  induction h with
  | nil =>
    refine iff_of_false (by simp) ?_
    rintro ⟨entry, ⟨before, after, hnil, -⟩, -⟩
    simp at hnil
  | @cons first one rest more hone hmore ih =>
    simp only [isFirst_cons_iff]
    by_cases htold : ∃ w, Says first key w
    · -- The first variable decides.
      obtain ⟨w, hw⟩ := htold
      have hfirst : one = some (key, w) :=
        Except.ok.inj (hone.symm.trans (settingOf?_eq_some_iff.mpr hw))
      rw [hfirst]
      have hlookup : ((some (key, w) :: more).filterMap id).lookup key = some w :=
        List.lookup_cons_self
      rw [hlookup]
      constructor
      · intro hv
        cases hv
        exact ⟨first, .inl ⟨rfl, v, hw⟩, hw⟩
      · rintro ⟨entry, ⟨rfl, -⟩ | ⟨hnone, -⟩, hv⟩
        · have hsame := hone.symm.trans (settingOf?_eq_some_iff.mpr hv)
          rw [hfirst] at hsame
          cases hsame
          rfl
        · exact absurd ⟨w, hw⟩ hnone
    · -- It is about something else, and the others decide.
      have hskip : ((one :: more).filterMap id).lookup key = (more.filterMap id).lookup key := by
        cases one with
        | none => rfl
        | some setting =>
          obtain ⟨other, w⟩ := setting
          have hne : (key == other) = false := by
            refine beq_false_of_ne fun heq => htold ⟨w, ?_⟩
            subst heq
            exact settingOf?_eq_some_iff.mp hone
          show ((other, w) :: more.filterMap id).lookup key = _
          rw [List.lookup_cons, hne]
      rw [hskip, ih]
      constructor
      · rintro ⟨entry, hentry, hv⟩
        exact ⟨entry, .inr ⟨htold, hentry⟩, hv⟩
      · rintro ⟨entry, ⟨-, hfirst⟩ | ⟨-, hentry⟩, hv⟩
        · exact absurd hfirst htold
        · exact ⟨entry, hentry, hv⟩

/-- The first variable that cannot be read is reported, whatever it is for. -/
theorem settings_eq_error_iff : env.settings = .error fault ↔
    ∃ entry, IsFirst IsUnreadable env entry ∧ fault = .unreadableVariable entry.1 := by
  have hpure : ∀ said : List (Option (String × Value)),
      (pure (said.filterMap id).reverse : Except BuildFault Entries) ≠ .error fault :=
    fun _ h => by cases h
  unfold Environment.settings
  simp only [bind_eq_error_iff, hpure, and_false, exists_false, or_false, mapM_eq_error_iff,
    exists_settingOf?_eq_error_iff]
  constructor
  · rintro ⟨entry, hfirst, hentry⟩
    exact ⟨entry, hfirst, (settingOf?_eq_error_iff.mp hentry).2⟩
  · rintro ⟨entry, hfirst, hfault⟩
    obtain ⟨_, _, _, _, hentry⟩ := id hfirst
    exact ⟨entry, hfirst, settingOf?_eq_error_iff.mpr ⟨hentry, hfault⟩⟩

example : Environment.settings [("KILN_NOTE", "\"é\\n\"")] =
    .error (.unreadableVariable "KILN_NOTE") := by
  cbv

/-- The environment can be read if each of its variables can. -/
theorem exists_settings_iff :
    (∃ entries, env.settings = .ok entries) ↔ ∀ entry ∈ env, ¬ IsUnreadable entry := by
  simp only [← exists_settingOf?_eq_error_iff, ← exists_mapM_eq_ok_iff]
  unfold Environment.settings
  simp only [bind_eq_ok_iff]
  constructor
  · rintro ⟨_, said, hsaid, -⟩
    exact ⟨said, hsaid⟩
  · rintro ⟨said, hsaid⟩
    exact ⟨_, said, hsaid, rfl⟩

/-- The settings in the environment are those that its variables say. -/
theorem lookup_settings_iff (h : env.settings = .ok entries) :
    entries.lookup key = some v ↔ env.Sets key v := by
  unfold Environment.settings at h
  obtain ⟨said, hsaid, hentries⟩ := bind_eq_ok_iff.mp h
  cases hentries
  rw [← List.filterMap_reverse]
  exact lookup_filterMap_iff (List.rel_reverse (mapM_eq_ok_iff.mp hsaid))

end ImageBuild.Config

namespace ImageBuild.EngineConfig

open BuildOptions (bind_eq_ok_iff bind_eq_error_iff)
open Config (Environment IsUnreadable)
open Toml (Entries Value)

variable {α : Type} {t : FileTree} {env : Environment} {fromEnvironment fromFile : Entries}
  {key : String}
  {read : Value → Option α} {default a : α} {asked file : Option Path} {base c : EngineConfig}
  {fault : BuildFault}

/-! ### One setting -/

/-- What the layers give for a setting: what the environment says, and what the file says only
where the environment says nothing. -/
inductive Gives (env : Environment) (fromFile : Entries) (key : String) : Option Value → Prop
  | environment {v : Value} : env.Sets key v → Gives env fromFile key (some v)
  | file {v : Value} : (∀ w, ¬ env.Sets key w) → fromFile.lookup key = some v →
    Gives env fromFile key (some v)
  | neither : (∀ w, ¬ env.Sets key w) → fromFile.lookup key = none → Gives env fromFile key none

/-- A setting has the value that the layers give, or the default if they give none. -/
inductive IsSetting (env : Environment) (fromFile : Entries) (key : String)
    (read : Value → Option α) (default : α) : α → Prop
  | given {v : Value} {a : α} : Gives env fromFile key (some v) → read v = some a →
    IsSetting env fromFile key read default a
  | default : Gives env fromFile key none → IsSetting env fromFile key read default default

/-- The layers give a value of the wrong type. -/
def IsMistyped (env : Environment) (fromFile : Entries) (key : String) (read : Value → Option α) :
    Prop :=
  ∃ v, Gives env fromFile key (some v) ∧ read v = none

/-- Searching the two layers from the top finds what they give. -/
theorem findSome?_lookup_iff (h : env.settings = .ok fromEnvironment) {found : Option Value} :
    [fromEnvironment, fromFile].findSome? (·.lookup key) = found ↔
      Gives env fromFile key found := by
  have hnone : fromEnvironment.lookup key = none ↔ ∀ w, ¬ env.Sets key w := by
    simp only [Option.eq_none_iff_forall_ne_some, ne_eq, Config.lookup_settings_iff h]
  have hfind : [fromEnvironment, fromFile].findSome? (·.lookup key) =
      (fromEnvironment.lookup key).or (fromFile.lookup key) := by
    rw [List.findSome?_cons, List.findSome?_cons]
    cases fromEnvironment.lookup key <;> cases fromFile.lookup key <;> rfl
  rw [hfind]
  constructor
  · rintro rfl
    cases henv : fromEnvironment.lookup key with
    | some v => exact .environment ((Config.lookup_settings_iff h).mp henv)
    | none =>
      cases hfile : fromFile.lookup key with
      | some v => exact .file (hnone.mp henv) hfile
      | none => exact .neither (hnone.mp henv) hfile
  · intro hgives
    cases hgives with
    | environment hsets => rw [(Config.lookup_settings_iff h).mpr hsets, Option.some_or]
    | file hunset hfile => rw [hnone.mpr hunset, hfile, Option.none_or]
    | neither hunset hfile => rw [hnone.mpr hunset, hfile, Option.none_or]

/-- A setting is read from the layers as the specification has it. -/
theorem setting_eq_ok_iff (h : env.settings = .ok fromEnvironment) :
    setting [fromEnvironment, fromFile] key read default = .ok a ↔
      IsSetting env fromFile key read default a := by
  unfold setting
  constructor
  · intro hok
    cases hfound : [fromEnvironment, fromFile].findSome? (·.lookup key) with
    | none =>
      rw [hfound] at hok
      cases hok
      exact .default ((findSome?_lookup_iff h).mp hfound)
    | some v =>
      rw [hfound] at hok
      cases hread : read v with
      | none => simp [hread] at hok
      | some value =>
        obtain rfl : value = a := by simpa [hread] using hok
        exact .given ((findSome?_lookup_iff h).mp hfound) hread
  · intro hsetting
    cases hsetting with
    | given hgives hread =>
      rw [(findSome?_lookup_iff h).mpr hgives]
      dsimp only
      rw [hread]
    | default hgives => rw [(findSome?_lookup_iff h).mpr hgives]

/-- Reading a setting fails exactly if the layer that counts has a value of the wrong type. -/
theorem setting_eq_error_iff (h : env.settings = .ok fromEnvironment) :
    setting [fromEnvironment, fromFile] key read default = .error fault ↔
      IsMistyped env fromFile key read ∧ fault = .config := by
  unfold setting
  constructor
  · intro herror
    cases hfound : [fromEnvironment, fromFile].findSome? (·.lookup key) with
    | none => rw [hfound] at herror; cases herror
    | some v =>
      rw [hfound] at herror
      cases hread : read v with
      | none =>
        obtain rfl : BuildFault.config = fault := by simpa [hread] using herror
        exact ⟨⟨v, (findSome?_lookup_iff h).mp hfound, hread⟩, rfl⟩
      | some value => simp [hread] at herror
  · rintro ⟨⟨v, hgives, hread⟩, rfl⟩
    rw [(findSome?_lookup_iff h).mpr hgives]
    dsimp only
    rw [hread]

/-! ### All settings -/

/-- Every setting is what its own key is given, whatever the others are. -/
structure IsLoaded (env : Environment) (fromFile : Entries) (base c : EngineConfig) : Prop where
  stateDir : IsSetting env fromFile "state_dir" readPath base.stateDir c.stateDir
  backend : IsSetting env fromFile "backend" readText base.backend c.backend
  engineProgram : IsSetting env fromFile "engine_program" readText base.engineProgram
    c.engineProgram
  runtime : IsSetting env fromFile "runtime" readText base.runtime c.runtime
  eventBuffer : IsSetting env fromFile "event_buffer" readSize base.eventBuffer c.eventBuffer

/-- Some setting has the wrong type. -/
inductive SomeMistyped (env : Environment) (fromFile : Entries) : Prop
  | stateDir : IsMistyped env fromFile "state_dir" readPath → SomeMistyped env fromFile
  | backend : IsMistyped env fromFile "backend" readText → SomeMistyped env fromFile
  | engineProgram : IsMistyped env fromFile "engine_program" readText → SomeMistyped env fromFile
  | runtime : IsMistyped env fromFile "runtime" readText → SomeMistyped env fromFile
  | eventBuffer : IsMistyped env fromFile "event_buffer" readSize → SomeMistyped env fromFile

/-- All settings are read exactly if each of them is. -/
theorem ofLayers_eq_ok_iff (h : env.settings = .ok fromEnvironment) :
    ofLayers [fromEnvironment, fromFile] base = .ok c ↔ IsLoaded env fromFile base c := by
  unfold ofLayers
  simp only [bind_eq_ok_iff, setting_eq_ok_iff h, pure, Except.pure, Except.ok.injEq]
  constructor
  · rintro ⟨_, hstateDir, _, hbackend, _, hengineProgram, _, hruntime, _, heventBuffer, rfl⟩
    exact ⟨hstateDir, hbackend, hengineProgram, hruntime, heventBuffer⟩
  · intro hloaded
    exact ⟨_, hloaded.stateDir, _, hloaded.backend, _, hloaded.engineProgram, _,
      hloaded.runtime, _,
      hloaded.eventBuffer, rfl⟩

/-- A setting that has a value is not mistyped, for its reading has one answer. -/
theorem IsSetting.not_isMistyped (h : env.settings = .ok fromEnvironment)
    (hsetting : IsSetting env fromFile key read default a) :
      ¬ IsMistyped env fromFile key read := by
  intro hmistyped
  have hok := (setting_eq_ok_iff h).mpr hsetting
  have herror : setting [fromEnvironment, fromFile] key read default = .error .config :=
    (setting_eq_error_iff h).mpr ⟨hmistyped, rfl⟩
  rw [hok] at herror
  cases herror

/-- Reading all settings fails exactly if some setting is mistyped, whichever is found first. -/
theorem ofLayers_eq_error_iff (h : env.settings = .ok fromEnvironment) :
    ofLayers [fromEnvironment, fromFile] base = .error fault ↔
      SomeMistyped env fromFile ∧ fault = .config := by
  have hsome : ∀ {fault}, ofLayers [fromEnvironment, fromFile] base = .error fault →
      SomeMistyped env fromFile ∧ fault = .config := by
    intro fault herror
    unfold ofLayers at herror
    simp only [bind_eq_error_iff, setting_eq_error_iff h, pure, Except.pure, reduceCtorEq,
      and_false, exists_false, or_false] at herror
    rcases herror with ⟨hbad, hfault⟩ | ⟨_, -, ⟨hbad, hfault⟩ | ⟨_, -, ⟨hbad, hfault⟩ |
      ⟨_, -, ⟨hbad, hfault⟩ | ⟨_, -, hbad, hfault⟩⟩⟩⟩
    · exact ⟨.stateDir hbad, hfault⟩
    · exact ⟨.backend hbad, hfault⟩
    · exact ⟨.engineProgram hbad, hfault⟩
    · exact ⟨.runtime hbad, hfault⟩
    · exact ⟨.eventBuffer hbad, hfault⟩
  constructor
  · exact hsome
  · -- The reading goes through the settings in order, so another one may be what it stops at.
    rintro ⟨hmistyped, rfl⟩
    cases hlayers : ofLayers [fromEnvironment, fromFile] base with
    | error fault => rw [(hsome hlayers).2]
    | ok c =>
      have hloaded := (ofLayers_eq_ok_iff h).mp hlayers
      exfalso
      cases hmistyped with
      | stateDir hbad => exact hloaded.stateDir.not_isMistyped h hbad
      | backend hbad => exact hloaded.backend.not_isMistyped h hbad
      | engineProgram hbad => exact hloaded.engineProgram.not_isMistyped h hbad
      | runtime hbad => exact hloaded.runtime.not_isMistyped h hbad
      | eventBuffer hbad => exact hloaded.eventBuffer.not_isMistyped h hbad

/-! ### The file -/

/-- The settings file that is read: the one that was asked for, or the one at the usual place if
it is there. -/
inductive Chooses (t : FileTree) (env : Environment) : Option Path → Option Path → Prop
  | asked {p : Path} : t.isFile p = true → Chooses t env (some p) (some p)
  | usual : t.isFile (usualFile env) = true → Chooses t env none (some (usualFile env))
  | nowhere : t.isFile (usualFile env) = false → Chooses t env none none

/-- The settings that a file holds. No file holds none. -/
inductive Holds (t : FileTree) : Option Path → Entries → Prop
  | nothing : Holds t none []
  | document {p : Path} {bytes : Bytes} {text : String} {entries : Entries} :
    t.contents p = .ok bytes → Utf8.decode? bytes = some text → Toml.parse? text = some entries →
      Holds t (some p) entries

/-- The settings file is chosen as the specification chooses it. -/
theorem fileOf_eq_ok_iff : fileOf t env asked = .ok file ↔ Chooses t env asked file := by
  constructor
  · intro h
    cases asked with
    | some p =>
      change (if t.isFile p then _ else _) = _ at h
      cases hfile : t.isFile p with
      | true =>
        rw [if_pos hfile] at h
        cases h
        exact .asked hfile
      | false =>
        rw [if_neg (Bool.eq_false_iff.mp hfile)] at h
        cases h
    | none =>
      change Except.ok (if t.isFile (usualFile env) then _ else _) = _ at h
      cases hfile : t.isFile (usualFile env) with
      | true =>
        rw [if_pos hfile] at h
        cases h
        exact .usual hfile
      | false =>
        rw [if_neg (Bool.eq_false_iff.mp hfile)] at h
        cases h
        exact .nowhere hfile
  · intro h
    cases h with
    | asked hfile => exact if_pos hfile
    | usual hfile => exact congrArg Except.ok (if_pos hfile)
    | nowhere hfile => exact congrArg Except.ok (if_neg (Bool.eq_false_iff.mp hfile))

/-- There is no choice exactly if a file was asked for that is not there. -/
theorem fileOf_eq_error_iff : fileOf t env asked = .error fault ↔
    ∃ p, asked = some p ∧ t.isFile p = false ∧ fault = .configNotFound p := by
  unfold fileOf
  cases asked with
  | none => simp
  | some p =>
    cases hfile : t.isFile p with
    | false =>
      dsimp only
      rw [hfile, if_neg Bool.false_ne_true]
      constructor
      · intro h
        cases h
        exact ⟨p, rfl, hfile, rfl⟩
      · rintro ⟨_, ⟨rfl⟩, -, rfl⟩
        rfl
    | true =>
      dsimp only
      rw [hfile, if_pos rfl]
      refine iff_of_false (fun h => by cases h) ?_
      rintro ⟨_, ⟨rfl⟩, hmissing, -⟩
      rw [hfile] at hmissing
      cases hmissing

/-- The entries of the file that is read, if one is. -/
def fileEntries (t : FileTree) : Option Path → Except BuildFault Entries
  | some p => ofFile t p
  | none => .ok []

/-- Loading in the order in which it can fail: the choice of the file, the variables, the file,
the values. -/
theorem load_eq (t : FileTree) (env : Environment) (asked : Option Path) :
    load t env asked = (do
      let file ← fileOf t env asked
      let fromEnvironment ← env.settings
      let fromFile ← fileEntries t file
      ofLayers [fromEnvironment, fromFile] (defaults env)) := by
  unfold load
  refine bind_congr fun file => bind_congr fun fromEnvironment => ?_
  cases file <;> rfl

/-- A settings file is read as the entries that it holds. -/
theorem fileEntries_eq_ok_iff {entries : Entries} : fileEntries t file = .ok entries ↔
    Holds t file entries := by
  constructor
  · intro h
    cases file with
    | none =>
      cases h
      exact .nothing
    | some p =>
      change ofFile t p = .ok entries at h
      unfold ofFile at h
      split at h
      · next found hfound =>
        cases h
        -- The file is there, its bytes are text, and the text is a document.
        obtain ⟨bytes, hbytes, hread⟩ := Option.bind_eq_some_iff.mp hfound
        obtain ⟨text, htext, hentries⟩ := Option.bind_eq_some_iff.mp hread
        cases hcontents : t.contents p with
        | error f =>
          rw [hcontents] at hbytes
          cases hbytes
        | ok content =>
          rw [hcontents] at hbytes
          cases hbytes
          exact .document hcontents htext hentries
      · cases h
  · intro h
    cases h with
    | nothing => rfl
    | document hcontents htext hentries =>
      unfold fileEntries ofFile
      dsimp only
      rw [hcontents]
      dsimp only [Except.toOption]
      rw [Option.bind_some, htext, Option.bind_some, hentries]

/-- A file that holds no entries cannot be read. -/
theorem fileEntries_eq_error_iff : fileEntries t file = .error fault ↔
    (∀ entries, ¬ Holds t file entries) ∧ fault = .config := by
  simp only [← fileEntries_eq_ok_iff]
  unfold fileEntries
  cases file with
  | none => simp
  | some p =>
    dsimp only
    unfold ofFile
    split <;> simp [eq_comm]

/-! ### The answer -/

/-- What is answered to someone who reads the settings. -/
inductive Loads (t : FileTree) (env : Environment) (asked : Option Path) :
    Except BuildFault EngineConfig → Prop
  /-- The file that was asked for is not there. -/
  | missing {p : Path} : asked = some p → t.isFile p = false →
    Loads t env asked (.error (.configNotFound p))
  /-- A variable cannot be read. It need not be for any of the settings that there are. -/
  | unreadable {file : Option Path} {entry : String × String} : Chooses t env asked file →
    IsFirst IsUnreadable env entry → Loads t env asked (.error (.unreadableVariable entry.1))
  /-- The file holds no settings. -/
  | invalid {file : Option Path} : Chooses t env asked file →
    (∀ entry ∈ env, ¬ IsUnreadable entry) →
    (∀ fromFile, ¬ Holds t file fromFile) → Loads t env asked (.error .config)
  | mistyped {file : Option Path} {fromFile : Entries} : Chooses t env asked file →
    (∀ entry ∈ env, ¬ IsUnreadable entry) → Holds t file fromFile → SomeMistyped env fromFile →
    Loads t env asked (.error .config)
  | loaded {file : Option Path} {fromFile : Entries}
    {c : EngineConfig} : Chooses t env asked file →
    (∀ entry ∈ env, ¬ IsUnreadable entry) → Holds t file fromFile →
    IsLoaded env fromFile (defaults env) c → Loads t env asked (.ok c)

/-- Loading succeeds exactly as the specification says. -/
theorem load_eq_ok_iff : load t env asked = .ok c ↔ Loads t env asked (.ok c) := by
  rw [load_eq]
  simp only [bind_eq_ok_iff, fileOf_eq_ok_iff, fileEntries_eq_ok_iff]
  constructor
  · rintro ⟨file, hfile, fromEnvironment, henv, fromFile, hfromFile, hlayers⟩
    exact .loaded hfile (Config.exists_settings_iff.mp ⟨_, henv⟩) hfromFile
      ((ofLayers_eq_ok_iff henv).mp hlayers)
  · intro h
    cases h with
    | loaded hfile hreadable hfromFile hloaded =>
      obtain ⟨fromEnvironment, henv⟩ := Config.exists_settings_iff.mpr hreadable
      exact ⟨_, hfile, _, henv, _, hfromFile, (ofLayers_eq_ok_iff henv).mpr hloaded⟩

/-- Loading fails exactly as the specification says. -/
theorem load_eq_error_iff : load t env asked = .error fault ↔
    Loads t env asked (.error fault) := by
  rw [load_eq]
  simp only [bind_eq_error_iff, fileOf_eq_ok_iff, fileOf_eq_error_iff,
    Config.settings_eq_error_iff,
    fileEntries_eq_ok_iff, fileEntries_eq_error_iff]
  -- The faults are listed in the order in which loading meets them.
  constructor
  · rintro (⟨p, hasked, hmissing, rfl⟩ | ⟨file, hfile,
      ⟨entry, hfirst, rfl⟩ | ⟨fromEnvironment, henv,
      ⟨hinvalid, rfl⟩ | ⟨fromFile, hfromFile, hlayers⟩⟩⟩)
    · exact .missing hasked hmissing
    · exact .unreadable hfile hfirst
    · exact .invalid hfile (Config.exists_settings_iff.mp ⟨_, henv⟩) hinvalid
    · obtain ⟨hmistyped, rfl⟩ := (ofLayers_eq_error_iff henv).mp hlayers
      exact .mistyped hfile (Config.exists_settings_iff.mp ⟨_, henv⟩) hfromFile hmistyped
  · intro h
    cases h with
    | missing hasked hmissing => exact .inl ⟨_, hasked, hmissing, rfl⟩
    | unreadable hfile hfirst => exact .inr ⟨_, hfile, .inl ⟨_, hfirst, rfl⟩⟩
    | invalid hfile hreadable hinvalid =>
      obtain ⟨fromEnvironment, henv⟩ := Config.exists_settings_iff.mpr hreadable
      exact .inr ⟨_, hfile, .inr ⟨_, henv, .inl ⟨hinvalid, rfl⟩⟩⟩
    | mistyped hfile hreadable hfromFile hmistyped =>
      obtain ⟨fromEnvironment, henv⟩ := Config.exists_settings_iff.mpr hreadable
      exact .inr ⟨_, hfile, .inr ⟨_, henv, .inr ⟨_, hfromFile,
        (ofLayers_eq_error_iff henv).mpr ⟨hmistyped, rfl⟩⟩⟩⟩

/-- Reading the settings has exactly one answer. Each setting is what the last variable for it
says, or else what the file says, or else the default, whatever the other settings are; a value of
the wrong type is a fault exactly where no layer above it has the setting; and a file has to be
there only if it was asked for. All that holds as long as every variable for a setting, known or
not, can be read. -/
theorem load_eq_iff_loads (t : FileTree) (env : Environment) (asked : Option Path)
    (answer : Except BuildFault EngineConfig) :
    load t env asked = answer ↔ Loads t env asked answer := by
  cases answer with
  | ok c => exact load_eq_ok_iff
  | error fault => exact load_eq_error_iff

end ImageBuild.EngineConfig
