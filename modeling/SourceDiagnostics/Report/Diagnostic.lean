import SourceDiagnostics.Resolution.Target

/-!
Diagnostics: problems in the code that is being compiled.

A diagnostic is a value. It has a code to search for, a severity, a message, and a target if there
is something to point at.
-/

namespace SourceDiagnostics

inductive Severity where
  | error | warning
  deriving DecidableEq, Repr

/-- The severity as users see it. -/
def Severity.text : Severity → String
  | .error => "error"
  | .warning => "warning"

def Severity.inspect : Severity → String
  | .error => "Error"
  | .warning => "Warning"

/-- The name of a kind of diagnostic. Any text will do. -/
structure DiagnosticCode where
  text : String
  deriving DecidableEq, Repr

namespace DiagnosticCode

/-- The code of warnings about the use of deprecated declarations. -/
def deprecated : DiagnosticCode := ⟨"deprecated"⟩

def inspect (c : DiagnosticCode) : String := Text.applied "DiagnosticCode" (Text.quote c.text)

end DiagnosticCode

structure Diagnostic where
  code : DiagnosticCode
  severity : Severity
  message : String := ""
  target : Option Target := none
  deriving BEq, Repr

namespace Diagnostic

def error (code : DiagnosticCode) : Diagnostic := { code, severity := .error }

def warning (code : DiagnosticCode) : Diagnostic := { code, severity := .warning }

def withMessage (d : Diagnostic) (message : String) : Diagnostic := { d with message }

def withTarget (d : Diagnostic) (target : Target) : Diagnostic := { d with target := some target }

/-- Replace the target, or clear it. -/
def withOptionalTarget (d : Diagnostic) (target : Option Target) : Diagnostic := { d with target }

/-- A warning that a declaration is deprecated, with the notice that came with it. -/
def deprecation (notice : String) (target : Option Target) : Diagnostic :=
  ((warning .deprecated).withMessage ("Deprecated: " ++ notice)).withOptionalTarget target

def isError (d : Diagnostic) : Bool := d.severity == .error

/-- Severity, code and message, without the target. -/
def text (d : Diagnostic) : String := d.severity.text ++ " " ++ d.code.text ++ ": " ++ d.message

def inspect (d : Diagnostic) : String :=
  Text.record "Diagnostic"
    [("code", d.code.inspect), ("severity", d.severity.inspect),
      ("message", Text.quote d.message),
      ("target", match d.target with
        | none => "None"
        | some target => Text.applied "Some" target.inspect)]

end Diagnostic

end SourceDiagnostics
