import ImageBuild.Command.Help

/-!
# `ImageBuild.Command.Arguments`: the command line

Options may come before the command and after it, in any order with the context path, until `--`.
An option's value is the rest of its word or the next word, which may not look like an option.
`Invocation.ofArguments` reads the words from the left, so help and version win over what comes
after them, and a mistake wins over what comes after it. A value in a word of its own is looked at
when the next option comes or, at the latest, when all words are read: help for the command wins
over a bad value right before the command.
-/

set_option autoImplicit false

namespace ImageBuild.Command

/-- An option without a value. -/
inductive Flag
  | debug
  | noCache
  | help
  | version
  deriving DecidableEq, Repr

/-- An option with a value. -/
inductive Setting
  | config
  | file
  | tag
  | target
  | platform
  | buildArg
  | label
  deriving DecidableEq, Repr

/-- Whether an option may come more than once. -/
def Setting.isList : Setting → Bool
  | .tag | .platform | .buildArg | .label => true
  | .config | .file | .target => false

/-- An option. -/
inductive Switch
  | flag (f : Flag)
  | setting (s : Setting)
  deriving DecidableEq, Repr

/-- Where on the command line a word stands. -/
inductive Level
  /-- Before the command. -/
  | top
  /-- After the command `build`. -/
  | build
  deriving DecidableEq, Repr

/-- The option with a long name. -/
def Level.long? : Level → String → Option Switch
  | _, "debug" => some (.flag .debug)
  | _, "help" => some (.flag .help)
  | _, "config" => some (.setting .config)
  | .top, "version" => some (.flag .version)
  | .build, "no-cache" => some (.flag .noCache)
  | .build, "file" => some (.setting .file)
  | .build, "tag" => some (.setting .tag)
  | .build, "target" => some (.setting .target)
  | .build, "platform" => some (.setting .platform)
  | .build, "build-arg" => some (.setting .buildArg)
  | .build, "label" => some (.setting .label)
  | _, _ => none

/-- The option with a letter. -/
def Level.short? : Level → Char → Option Switch
  | _, 'd' => some (.flag .debug)
  | _, 'h' => some (.flag .help)
  | .top, 'V' => some (.flag .version)
  | .build, 'f' => some (.setting .file)
  | .build, 't' => some (.setting .tag)
  | _, _ => none

/-- Why the words are not read to their end. -/
inductive Stop
  | help
  | version
  /-- The words are no command line. -/
  | misuse
  deriving DecidableEq, Repr

/-- What was read at one level. -/
structure Gathered where
  flags : List Flag
  /-- Options with their values, in order. -/
  settings : List (Setting × String)
  /-- The words that are no options, in order. -/
  words : List String
  deriving DecidableEq, Repr

namespace Gathered

/-- Nothing was read yet. -/
def empty : Gathered := ⟨[], [], []⟩

/-- Adds an option without a value, which may come once. -/
def addFlag (g : Gathered) : Flag → Except Stop Gathered
  | .help => .error .help
  | .version => .error .version
  | f => if g.flags.contains f then .error .misuse else .ok { g with flags := g.flags ++ [f] }

/-- The values of an option. -/
def valuesOf (g : Gathered) (s : Setting) : List String :=
  g.settings.filterMap fun (t, value) => if t = s then some value else none

/-- Adds an option with its value. -/
def addSetting (g : Gathered) (s : Setting) (value : String) : Gathered :=
  { g with settings := g.settings ++ [(s, value)] }

/-- Whether the values of an option may be as they are: no more than one if it is no list, and a
name for the settings file. -/
def allows (g : Gathered) (s : Setting) : Bool :=
  (s.isList || (g.valuesOf s).length ≤ 1) && (s != .config || (g.valuesOf s).all (!·.isEmpty))

/-- What was read, after a look at the values. -/
def checked (g : Gathered) : Except Stop Gathered :=
  if g.settings.all fun entry => g.allows entry.1 then .ok g else .error .misuse

end Gathered

/-- Whether a word looks like an option: `-` and something after it. -/
def looksLikeOption (word : String) : Bool :=
  match word.toList with
  | '-' :: _ :: _ => true
  | _ => false

/-- What a word with an option asks for. -/
inductive Demand
  /-- Nothing more. -/
  | nothing (g : Gathered)
  /-- The next word is the value. -/
  | value (g : Gathered) (s : Setting)

/-- A word `--name` or `--name=value`. -/
def readLong (level : Level) (g : Gathered) (cs : List Char) : Except Stop Demand :=
  let name := cs.takeWhile (· != '=')
  match level.long? (String.ofList name), cs.drop name.length with
  | some (.flag f), [] => (g.addFlag f).map .nothing
  | some (.setting s), [] => .ok (.value g s)
  | some (.setting s), _ :: value => (g.addSetting s (String.ofList value)).checked.map .nothing
  | _, _ => .error .misuse

/-- The value that the rest of a word is; a `=` in front does not belong to it. -/
def attachedValue : List Char → String
  | '=' :: rest => String.ofList rest
  | cs => String.ofList cs

/-- The letters after a `-`: options without values, and then perhaps one with a value. -/
def readShort (level : Level) (g : Gathered) : List Char → Except Stop Demand
  | [] => .ok (.nothing g)
  | c :: rest =>
    match level.short? c with
    | some (.flag f) => do readShort level (← g.addFlag f) rest
    | some (.setting s) =>
      if rest.isEmpty then .ok (.value g s)
      else (g.addSetting s (attachedValue rest)).checked.map .nothing
    | none => .error .misuse

/-- Reads words up to the first that is no option; answers what is left, and whether `--` came
first. The last value may still have to be looked at. -/
def readOptions (level : Level) (g : Gathered) :
    List String → Except Stop (Gathered × Bool × List String)
  | [] => .ok (g, false, [])
  | word :: rest =>
    let demand : Option (Except Stop Demand) :=
      match word.toList with
      | '-' :: '-' :: [] => none
      | '-' :: '-' :: cs => some (g.checked.bind fun g => readLong level g cs)
      | '-' :: c :: cs => some (g.checked.bind fun g => readShort level g (c :: cs))
      | _ => none
    match demand with
    | none => if word = "--" then .ok (g, true, rest) else .ok (g, false, word :: rest)
    | some (.error stop) => .error stop
    | some (.ok (.nothing g)) => readOptions level g rest
    | some (.ok (.value g s)) =>
      match rest with
      | [] => .error .misuse
      | value :: rest =>
        if looksLikeOption value then .error .misuse
        else readOptions level (g.addSetting s value) rest

/-- Reads the words after the command. -/
def readBuild (g : Gathered) : (fuel : Nat) → List String → Except Stop Gathered
  | 0, _ => .ok g
  | fuel + 1, words =>
    match readOptions .build g words with
    | .error stop => .error stop
    | .ok (g, true, rest) => { g with words := g.words ++ rest }.checked
    | .ok (g, false, []) => g.checked
    | .ok (g, false, word :: rest) =>
      if g.words.isEmpty then readBuild { g with words := [word] } fuel rest else .error .misuse

/-- What the command `build` is told. -/
structure BuildArguments where
  path : String
  file : String
  tags : List String
  target : Option String
  platforms : List String
  buildArgs : List String
  labels : List String
  noCache : Bool
  deriving DecidableEq, Repr

/-- What a command line asks for. -/
inductive Invocation
  | build (debug : Bool) (config : Option String) (args : BuildArguments)
  | help (topic : HelpTopic)
  | version
  | misuse
  deriving DecidableEq, Repr

namespace Invocation

/-- The invocation that a stop stands for, where help would be on a topic. -/
def ofStop (topic : HelpTopic) : Stop → Invocation
  | .help => .help topic
  | .version => .version
  | .misuse => .misuse

/-- The invocation of the command, given what was read before it and after it. -/
def ofGathered (top told : Gathered) : Invocation :=
  match told.words with
  | [path] =>
    .build (top.flags.contains .debug || told.flags.contains .debug)
      ((told.valuesOf .config).head? <|> (top.valuesOf .config).head?)
      { path
        file := (told.valuesOf .file).headD ""
        tags := told.valuesOf .tag
        target := (told.valuesOf .target).head?
        platforms := told.valuesOf .platform
        buildArgs := told.valuesOf .buildArg
        labels := told.valuesOf .label
        noCache := told.flags.contains .noCache }
  | _ => .misuse

/-- What the words of a command line ask for. -/
def ofArguments (words : List String) : Invocation :=
  match readOptions .top .empty words with
  | .error stop => ofStop .overview stop
  | .ok (top, false, "build" :: rest) =>
    match readBuild .empty (rest.length + 1) rest, top.checked with
    | .error stop, _ => ofStop .build stop
    | .ok _, .error stop => ofStop .overview stop
    | .ok told, .ok top => ofGathered top told
  | .ok (_, false, ["help"]) => .help .overview
  | .ok (_, false, ["help", "build"]) => .help .build
  | .ok (_, false, ["help", "help"]) => .help .help
  | .ok _ => .misuse

end Invocation
end ImageBuild.Command
