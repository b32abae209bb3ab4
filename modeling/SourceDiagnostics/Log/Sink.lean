import SourceDiagnostics.Journal
import SourceDiagnostics.Log.Rendering

/-!
Where log entries go.

A list captures the entries themselves, an `EventSink` announces them, and a `Writer` writes their
texts as bytes, line by line. What is written to can be full: the bytes that fit are written, the
rest is lost, and nobody is told.
-/

namespace SourceDiagnostics

class LogSink (σ : Type) where
  log : σ → LogEntry → Checked σ

instance : LogSink (List LogEntry) where
  log entries e := return entries ++ [e]

/-! ## Events -/

/-- Announces each entry as an event of its level. -/
inductive EventSink where
  | events
  deriving DecidableEq, Repr

def LogLevel.eventLevel : LogLevel → EventLevel
  | .trace => .trace
  | .warning => .warn
  | .error => .error

/-- The fields of the event of an entry whose location reads `location`. -/
def LogEntry.eventFields (e : LogEntry) (location : Option String) : List (String × String) :=
  (e.code.map fun code => ("code", code.text)).toList ++
    (location.map fun location => ("location", location)).toList

instance : LogSink EventSink where
  log sink e := do
    let location ← (e.location.mapM SourceLocation.text : Except Fault (Option String))
    announce e.level.eventLevel e.message (e.eventFields location)
    return sink

/-! ## Bytes -/

/-- Something that bytes are written to. -/
class ByteStore (β : Type) where
  /-- Write bytes as far as they fit, and say whether all of them did. -/
  write : β → List UInt8 → β × Bool

/-- Bytes without a limit. -/
structure Buffer where
  bytes : List UInt8 := []
  deriving DecidableEq, Repr

instance : ByteStore Buffer where
  write b bytes := (⟨b.bytes ++ bytes⟩, true)

/-- Bytes with a limit: `free` more of them fit. -/
structure BoundedBuffer where
  bytes : List UInt8 := []
  free : Nat
  deriving DecidableEq, Repr

instance : ByteStore BoundedBuffer where
  write b bytes :=
    (⟨b.bytes ++ bytes.take b.free, b.free - bytes.length⟩, decide (bytes.length ≤ b.free))

/-- Writes each entry as text and ends it with a line feed. -/
structure Writer (β : Type) where
  store : β
  style : LogStyle := .plain

/-- Write a text and a line feed. The line feed is not tried after a text that did not fit. -/
def ByteStore.writeLine {β : Type} [ByteStore β] (store : β) (text : String) : β :=
  let (store, fits) := write store (Text.utf8 text.toList)
  if fits then (write store (Text.utf8 ['\n'])).1 else store

instance {β : Type} [ByteStore β] : LogSink (Writer β) where
  log w e := do
    let text ← e.render w.style
    return { w with store := ByteStore.writeLine w.store text }

end SourceDiagnostics
