import SourceDiagnostics.Fault
import SourceDiagnostics.Text.Quoted

/-!
Spans of byte offsets.

`Span.new` refuses an inverted span; the plain constructor `⟨start, stop⟩` does not, and every
operation says what it does with one. `Span.ofRange` reads a range of unbounded offsets and names
the first thing that is wrong with it.
-/

namespace SourceDiagnostics

/-- The bytes from `start` up to, and without, `stop`. -/
structure Span where
  start : UInt32
  stop : UInt32
  deriving DecidableEq, Repr, Inhabited

/-- Why a range of offsets is not a span. -/
inductive SpanError where
  | startTooLarge (start : Nat)
  | endTooLarge (stop : Nat)
  | inverted (start stop : Nat)
  deriving DecidableEq, Repr

namespace Span

/-- The empty span at the start of a file. -/
def dummy : Span := ⟨0, 0⟩

def new (start stop : UInt32) : Except Fault Span :=
  if start ≤ stop then .ok ⟨start, stop⟩ else .error .invertedSpan

/-- The empty span at `offset`. -/
def point (offset : UInt32) : Span := ⟨offset, offset⟩

/-- The span of a range. An inverted range is reported as such even where an offset is too large
as well, and a start that is too large before an end that is. -/
def ofRange (start stop : Nat) : Except SpanError Span :=
  if stop < start then .error (.inverted start stop)
  else if maxWord < start then .error (.startTooLarge start)
  else if maxWord < stop then .error (.endTooLarge stop)
  else .ok ⟨UInt32.ofNat start, UInt32.ofNat stop⟩

/-- The number of bytes; a fault when the span is inverted. -/
def len (s : Span) : Except Fault UInt32 := checkedSub s.stop s.start

def isEmpty (s : Span) : Bool := s.start == s.stop

/-- Whether `inner` lies within `outer`. -/
def contains (outer inner : Span) : Bool := outer.start ≤ inner.start && inner.stop ≤ outer.stop

def text (s : Span) : String := toString s.start.toNat ++ ".." ++ toString s.stop.toNat

end Span

namespace SpanError

/-- An offset in decimal and in hexadecimal, with the bound it exceeds. -/
private def excess (offset : Nat) : String :=
  toString offset ++ " (0x" ++ String.ofList ((Text.hexDigits offset).map Char.toUpper) ++
    ") exceeds u32::MAX"

def message : SpanError → String
  | .startTooLarge start => "span start " ++ excess start
  | .endTooLarge stop => "span end " ++ excess stop
  | .inverted start stop =>
    "span end " ++ toString stop ++ " lies before its start " ++ toString start

def inspect : SpanError → String
  | .startTooLarge start => Text.applied "StartTooLarge" (toString start)
  | .endTooLarge stop => Text.applied "EndTooLarge" (toString stop)
  | .inverted start stop =>
    Text.record "Inverted" [("start", toString start), ("end", toString stop)]

example : (startTooLarge 4294967296).message =
    "span start 4294967296 (0x100000000) exceeds u32::MAX" := by decide +kernel

end SpanError

end SourceDiagnostics
