import SourceDiagnostics.Source.Span
import SourceDiagnostics.Source.File

/-!
Source locations: a span of a file.

A synthetic location stands in where there is no real one: it points at an empty file of its own,
whose path says why. So two synthetic locations are equal only if one is a copy of the other.
-/

namespace SourceDiagnostics

structure SourceLocation where
  file : SourceFile
  span : Span
  isSynthetic : Bool := false
  deriving BEq, Repr

namespace SourceLocation

/-- The path of a synthetic location that has nothing better to say. -/
def unknownPath : String := "<unknown location>"

/-- A synthetic location with a file of its own, whose path is `placeholder`. -/
def synthetic (placeholder : Option String) : Journaled SourceLocation := do
  return ⟨← SourceFile.create (placeholder.getD unknownPath) "", Span.dummy, true⟩

def path (l : SourceLocation) : String := l.file.path

/-- The position of the first byte. -/
def startPosition (l : SourceLocation) : Except Fault Position := l.file.position l.span.start

/-- The location as users see it: path, line and column, counted from one. -/
def text (l : SourceLocation) : Except Fault String := do
  let (line, column) ← (← l.startPosition).oneBased
  return l.path ++ ":" ++ toString line.toNat ++ ":" ++ toString column.toNat

def inspect (l : SourceLocation) : String :=
  l.path ++ "@" ++ l.span.text ++ (if l.isSynthetic then " (synthetic)" else "")

end SourceLocation

end SourceDiagnostics
