import SourceDiagnostics.Text.Quoted

/-!
Verbose output: details that are printed only on demand.

A setting that is not empty turns it on. While it is off, callbacks that would print do not run.
-/

namespace SourceDiagnostics

structure Verbosity where
  enabled : Bool := false
  deriving DecidableEq, Repr

namespace Verbosity

/-- The verbosity that a setting asks for, which may be missing. -/
def ofSetting (value : Option String) : Verbosity := ⟨value.any fun v => !v.isEmpty⟩

variable {m : Type → Type} [Monad m]

/-- Run `callback` with a printer of lines, if enabled. -/
def logWith (v : Verbosity) (print : String → m Unit) (callback : (String → m Unit) → m Unit) :
    m Unit :=
  if v.enabled then callback fun message => print (message ++ "\n") else pure ()

/-- Print a message, if enabled. -/
def log (v : Verbosity) (print : String → m Unit) (message : String) : m Unit :=
  v.logWith print fun printLine => printLine message

def inspect (v : Verbosity) : String :=
  Text.record "VerboseConfig" [("enabled", toString v.enabled)]

end Verbosity

end SourceDiagnostics
