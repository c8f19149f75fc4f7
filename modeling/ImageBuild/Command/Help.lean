/-!
# `ImageBuild.Command.Help`: the help texts

A page says what a command is for and how it is called, and lists subcommands, arguments and
options in tables. In a table the explanations start in one column, two blanks after the longest
term.
-/

set_option autoImplicit false

namespace ImageBuild.Command

/-- What help is asked for. -/
inductive HelpTopic
  /-- The command as a whole. -/
  | overview
  /-- The command `build`. -/
  | build
  /-- The command `help`. -/
  | help
  deriving DecidableEq, Repr

/-- A row of a table: a term and the lines that explain it. -/
structure HelpRow where
  term : String
  lines : List String
  deriving DecidableEq, Repr

/-- A table with its heading. -/
structure HelpTable where
  heading : String
  rows : List HelpRow
  deriving DecidableEq, Repr

/-- A page of help. -/
structure HelpPage where
  purpose : String
  usage : String
  tables : List HelpTable
  deriving DecidableEq, Repr

/-- The row as text, with its explanation after so many characters for the term. -/
def HelpRow.text (width : Nat) (r : HelpRow) : String :=
  let gap := "".pushn ' ' (width + 2 - r.term.length)
  let newLine := "\n" ++ "".pushn ' ' (width + 4)
  "  " ++ r.term ++ gap ++ newLine.intercalate r.lines ++ "\n"

/-- The length of the longest term. -/
def HelpTable.width (t : HelpTable) : Nat := (t.rows.map (·.term.length)).foldl max 0

/-- The table as text, after an empty line. -/
def HelpTable.text (t : HelpTable) : String :=
  "\n" ++ t.heading ++ ":\n" ++ String.join (t.rows.map (·.text t.width))

/-- The page as text. -/
def HelpPage.text (p : HelpPage) : String :=
  p.purpose ++ "\n\nUsage: " ++ p.usage ++ "\n" ++ String.join (p.tables.map (·.text))

/-- The option for more logging, which every command has. -/
def debugRow : HelpRow := ⟨"-d, --debug", ["Enable debug logging"]⟩

/-- The option for the settings file, which every command has. -/
def configRow : HelpRow := ⟨"    --config <FILE>", ["Engine configuration file"]⟩

/-- The option for help, which every command has. -/
def helpRow : HelpRow := ⟨"-h, --help", ["Print help"]⟩

/-- What `build` is for. -/
def buildPurpose : String := "Build an image from a Dockerfile and a context"

/-- What `help` is for. -/
def helpPurpose : String := "Print this message or the help of the given subcommand(s)"

/-- The page on a topic. -/
def HelpTopic.page : HelpTopic → HelpPage
  | .overview =>
    { purpose := "Build container images without a daemon"
      usage := "kiln [OPTIONS] <COMMAND>"
      tables :=
        [⟨"Commands", [⟨"build", [buildPurpose]⟩, ⟨"help", [helpPurpose]⟩]⟩,
          ⟨"Options", [debugRow, configRow, helpRow, ⟨"-V, --version", ["Print version"]⟩]⟩] }
  | .build =>
    { purpose := buildPurpose
      usage := "kiln build [OPTIONS] <PATH>"
      tables :=
        [⟨"Arguments", [⟨"<PATH>", ["Build context directory, or `-` to read it from stdin"]⟩]⟩,
          ⟨"Options",
            [debugRow,
              ⟨"-f, --file <FILE>",
                ["Name of the Dockerfile (default is 'PATH/Dockerfile'), `-` reads",
                  "stdin [default: ]"]⟩,
              configRow,
              ⟨"-t, --tag <NAME>", ["Name and optionally a tag in the 'name:tag' format"]⟩,
              ⟨"    --target <TARGET>", ["Set the target build stage"]⟩,
              ⟨"    --platform <PLATFORM>", ["Target platform, e.g. linux/arm64 (repeatable)"]⟩,
              ⟨"    --build-arg <KEY=VALUE>", ["Build-time variable (KEY=VALUE)"]⟩,
              ⟨"    --label <KEY=VALUE>", ["Image metadata label (KEY=VALUE)"]⟩,
              ⟨"    --no-cache", ["Do not use cache when building the image"]⟩,
              helpRow]⟩] }
  | .help =>
    { purpose := helpPurpose
      usage := "kiln help [COMMAND]..."
      tables := [⟨"Arguments", [⟨"[COMMAND]...", ["Print help for the subcommand(s)"]⟩]⟩] }

end ImageBuild.Command
