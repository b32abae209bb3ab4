import SourceDiagnostics.Report.Diagnostic

/-!
Log entries: what leaves the program, with a location that is already resolved.
-/

namespace SourceDiagnostics

inductive LogLevel where
  | trace | warning | error
  deriving DecidableEq, Repr

namespace LogLevel

/-- The level as users see it. -/
def text : LogLevel → String
  | .trace => "trace"
  | .warning => "warning"
  | .error => "error"

def inspect : LogLevel → String
  | .trace => "Trace"
  | .warning => "Warning"
  | .error => "Error"

def ofSeverity : Severity → LogLevel
  | .error => .error
  | .warning => .warning

end LogLevel

structure LogEntry where
  level : LogLevel
  message : String
  code : Option DiagnosticCode := none
  location : Option SourceLocation := none
  deriving BEq, Repr

end SourceDiagnostics
