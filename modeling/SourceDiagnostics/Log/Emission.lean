import SourceDiagnostics.Log.Sink
import SourceDiagnostics.Resolution.Resolve

/-!
Diagnostics as log entries.

Each diagnostic becomes one entry with the location of its target. Declarations are reported at
their names.
-/

namespace SourceDiagnostics

namespace Diagnostic

/-- The entry of a diagnostic whose target has been resolved to `location`. -/
def toEntry (d : Diagnostic) (location : Option SourceLocation) : LogEntry where
  level := .ofSeverity d.severity
  message := d.message
  code := some d.code
  location := location

/-- Resolve the target of a diagnostic and make its entry. -/
def entry (m : Lookup) (d : Diagnostic) : Journaled LogEntry := do
  return d.toEntry (← m.resolve .name d.target)

/-- A diagnostic on one line, with the location of its target. -/
def format (m : Lookup) (d : Diagnostic) : Checked String := do
  let entry ← d.entry m
  entry.render .plain

end Diagnostic

/-- Log entries in order. -/
def logEntries {σ : Type} [LogSink σ] (sink : σ) (entries : List LogEntry) : Checked σ :=
  entries.foldlM LogSink.log sink

/-- Log diagnostics in order. Each target is resolved right before its entry is logged. -/
def logDiagnostics {σ : Type} [LogSink σ] (m : Lookup) (sink : σ) (ds : List Diagnostic) :
    Checked σ :=
  ds.foldlM (fun sink d => do LogSink.log sink (← d.entry m)) sink

end SourceDiagnostics
