import SourceDiagnostics.Log.Entry
import SourceDiagnostics.Log.CodeFrame

/-!
Log entries as text: location, level, code and message on one line, and a code frame after it if
one is asked for and the location is real.
-/

namespace SourceDiagnostics

/-- How to write a log entry. -/
inductive LogStyle where
  | plain
  /-- With a code frame. -/
  | framed
  deriving DecidableEq, Repr

namespace LogEntry

/-- The location with what parts it from the rest of the line, or nothing. -/
def origin (e : LogEntry) : Except Fault String :=
  match e.location with
  | none => .ok ""
  | some location => do return (← location.text) ++ " - "

/-- Level, code and message. -/
def label (e : LogEntry) : String :=
  let code := match e.code with
    | none => ""
    | some code => " " ++ code.text
  e.level.text ++ code ++ ": " ++ e.message

/-- The line that says it all: where there is a location, it comes first. -/
def header (e : LogEntry) : Except Fault String := do return (← e.origin) ++ e.label

/-- The code frame of an entry, or nothing where the entry has no real location. -/
def frame (e : LogEntry) : Except Fault String :=
  match e.location with
  | none => return ""
  | some location =>
    if location.isSynthetic then return ""
    else do
      match ← CodeFrame.ofLocation location with
      | none => return ""
      | some frame => return frame.render

def render (style : LogStyle) (e : LogEntry) : Except Fault String := do
  let header ← e.header
  match style with
  | .plain => return header
  | .framed => return header ++ (← e.frame)

end LogEntry

end SourceDiagnostics
