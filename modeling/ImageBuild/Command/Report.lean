import ImageBuild.Context.Source
import ImageBuild.Request.Fault

/-!
# `ImageBuild.Command.Report`: how a failure is told

A report is what was being done, followed by the causes, each the cause of the one before it. A
cause on several lines is indented as a whole.
-/

set_option autoImplicit false

namespace ImageBuild

/-- The causes of a fault, each the cause of the one before it. -/
def Archive.Fault.causes : Archive.Fault → List String
  | .corrupted f => [f.message]
  | .extraction _ cause => [cause.message]
  | .directoryCreation _ cause => [cause.message]
  | .unsupported _ | .escape _ | .unreadable _ => []

/-- The causes of a fault, each the cause of the one before it. -/
def Context.Fault.causes : Context.Fault → List String
  | .tempStorage _ path cause => [s!"{cause.message} at path {path.quoted}"]
  | .peek cause => [cause.message]
  | .read cause => [cause.message]
  | .write _ cause => [cause.message]
  | .archive cause => cause.message :: cause.causes
  | .missingContext | .stdinConflict | .notAnArchive => []

/-- The causes of a fault, each the cause of the one before it. -/
def BuildFault.causes : BuildFault → List String
  | .recipePath cause => cause.message :: cause.causes
  | .runtimeNotFound _ => ["cannot find binary path"]
  | .stateDir _ cause => [cause.message]
  | _ => []

namespace Command

/-- A failure and its causes. -/
structure Report where
  top : String
  causes : List String
  deriving DecidableEq, Repr

namespace Report

/-- The report of a fault itself. -/
def ofContextFault (f : Context.Fault) : Report := ⟨f.message, f.causes⟩

/-- The report of a fault itself. -/
def ofBuildFault (f : BuildFault) : Report := ⟨f.message, f.causes⟩

/-- The report of something that failed for the reason of another report. -/
def within (r : Report) (doing : String) : Report := ⟨doing, r.top :: r.causes⟩

/-- A text whose lines after the first start with blanks. -/
def indented (blanks : String) (s : String) : String := s.replace "\n" ("\n" ++ blanks)

/-- A number in front of a cause. -/
def numbered (n : Nat) : String := "".pushn ' ' (5 - (toString n).length) ++ toString n ++ ": "

/-- The causes, numbered if there are several. -/
def causeLines : List String → String
  | [] => ""
  | [cause] => "\n\nCaused by:\n    " ++ indented "    " cause
  | causes =>
    "\n\nCaused by:" ++ String.join (causes.zipIdx.map fun (cause, n) =>
      "\n" ++ numbered n ++ indented "       " cause)

/-- The report as text. -/
def text (r : Report) : String := "Error: " ++ r.top ++ causeLines r.causes ++ "\n"

end Report
end Command
end ImageBuild
