import ImageBuild.Progress.Message
import ImageBuild.Request.Fault
import ImageBuild.Text.Blank
import ImageBuild.Text.Utf8Fault

/-!
# `ImageBuild.Engine.Output`: what the output of a solver program says

A solver program writes one message a line. Blank lines count for nothing. Status lines bring
batches, and the first line that is not a status line is terminal: it says how the solve ended, or
is no message at all. What comes after it is not looked at. `readOutput` is the batches before the
terminal line, and the verdict.
-/

set_option autoImplicit false

namespace ImageBuild.Engine

open Progress (EngineMessage StatusResponse)

/-- How the output of a solver program ends. -/
inductive Verdict
  | done
  /-- The program reports a failure. -/
  | failed (text : String)
  /-- A line that is no message. -/
  | malformed
  /-- A line that is no text. -/
  | notText (fault : Utf8.Fault)
  /-- No line is terminal. -/
  | silent
  deriving DecidableEq, Repr

/-- What one line says. -/
inductive LineMeaning
  | blank
  | status (batch : StatusResponse)
  | terminal (verdict : Verdict)
  deriving DecidableEq, Repr

/-- What a line of text says. -/
def meaningOfText (line : String) : LineMeaning :=
  if (Text.trim line).isEmpty then .blank
  else
    match EngineMessage.ofLine? line with
    | some (.status batch) => .status batch
    | some .done => .terminal .done
    | some (.error text) => .terminal (.failed text)
    | none => .terminal .malformed

/-- The byte that ends a line. -/
def lineBreak : UInt8 := 0x0A

/-- The byte that may stand before the end of a line. -/
def carriageReturn : UInt8 := 0x0D

/-- A line without what ends it. -/
def withoutEnd (line : Bytes) : Bytes :=
  match line.reverse with
  | b :: c :: rest =>
    if b == lineBreak then (if c == carriageReturn then rest else c :: rest).reverse else line
  | [b] => if b == lineBreak then [] else line
  | [] => []

/-- What a line says; its end is no part of the text. -/
def meaning (line : Bytes) : LineMeaning :=
  let line := withoutEnd line
  match Utf8.fault? line, Utf8.decode? line with
  | some fault, _ => .terminal (.notText fault)
  | none, some text => meaningOfText text
  | none, none => .terminal .malformed

/-- The lines of a byte list, each with its line break; the last one may have none. -/
def outputLines (bytes : Bytes) : List Bytes :=
  let parts := bytes.splitOn lineBreak
  let whole := parts.dropLast.map (· ++ [lineBreak])
  match parts.getLast? with
  | some [] | none => whole
  | some rest => whole ++ [rest]

/-- The batches before the first terminal line, and the verdict. -/
def readLines : List Bytes → List StatusResponse × Verdict
  | [] => ([], .silent)
  | line :: rest =>
    match meaning line with
    | .blank => readLines rest
    | .status batch =>
      let (batches, verdict) := readLines rest
      (batch :: batches, verdict)
    | .terminal verdict => ([], verdict)

/-- The batches before the first terminal line of some output, and the verdict. -/
def readOutput (bytes : Bytes) : List StatusResponse × Verdict := readLines (outputLines bytes)

end ImageBuild.Engine
