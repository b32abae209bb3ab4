import SourceDiagnostics.Fault

/-!
The journal that a computation keeps: the events it announced, in order, and the supply of
identities for the files it makes.

`Journaled` computations always finish; `Checked` ones can stop with a fault, and what they had
announced by then stays in the journal.
-/

namespace SourceDiagnostics

inductive EventLevel where
  | trace | debug | warn | error
  deriving DecidableEq, Repr

def EventLevel.label : EventLevel → String
  | .trace => "TRACE"
  | .debug => "DEBUG"
  | .warn => "WARN"
  | .error => "ERROR"

/-- Something announced to whoever watches the program: a level, and named texts in order. -/
structure Event where
  level : EventLevel
  fields : List (String × String)
  deriving DecidableEq, Repr

/-- The identity of a source file. -/
structure FileId where
  serial : Nat
  deriving DecidableEq, Repr

structure Journal where
  /-- The serial number of the next file. -/
  nextFile : Nat := 0
  events : List Event := []
  deriving DecidableEq, Repr

abbrev Journaled := StateM Journal

abbrev Checked := ExceptT Fault Journaled

/-- Append an event, whose first field is always its message. -/
def announce (level : EventLevel) (message : String) (fields : List (String × String)) :
    Journaled Unit :=
  modify fun j => { j with events := j.events ++ [⟨level, ("message", message) :: fields⟩] }

/-- An identity that no other file of this journal has. -/
def freshFileId : Journaled FileId :=
  modifyGet fun j => (⟨j.nextFile⟩, { j with nextFile := j.nextFile + 1 })

end SourceDiagnostics
