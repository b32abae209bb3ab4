import SourceDiagnostics.Journal
import SourceDiagnostics.Source.LineTable

/-!
Source files: a text with its path and an identity.

Two files are the same only if their identities are; equal paths and texts do not make them so.
`SourceFile.create` takes the identity from the journal, which never gives one twice.
-/

namespace SourceDiagnostics

structure SourceFile where
  id : FileId
  path : String
  content : String
  deriving Repr

instance : BEq SourceFile := ⟨fun a b => a.id == b.id⟩

namespace SourceFile

/-- A new file. -/
def create (path content : String) : Journaled SourceFile := do
  return ⟨← freshFileId, path, content⟩

/-- The number of bytes of the text. -/
def byteCount (f : SourceFile) : Nat := Text.byteLength f.content.toList

/-- The number of bytes of the text as a word. -/
def len (f : SourceFile) : UInt32 := clampWord f.byteCount

def isEmpty (f : SourceFile) : Bool := f.content.isEmpty

def lineTable (f : SourceFile) : LineTable := .ofText f.content.toList

def position (f : SourceFile) (offset : UInt32) : Except Fault Position :=
  f.lineTable.position offset

/-- Path and size; the text itself is left out. -/
def inspect (f : SourceFile) : String :=
  "SourceFile \x7b path: " ++ Text.quote f.path ++ ", len: " ++ toString f.byteCount ++ ", .. \x7d"

end SourceFile

end SourceDiagnostics
