import SourceDiagnostics.Resolution.Resolve

/-!
Assertions about the compiler itself.

A failed assertion is no diagnostic: it announces its message as an error and ends the computation
with it. Where its target has a location, the message says so; a target that cannot be resolved
leaves the message as it is.
-/

namespace SourceDiagnostics

/-- End the computation over a bug of the compiler. -/
def bug {α : Type} (message : String) : Checked α := do
  announce .error "internal compiler error" [("message", message)]
  throw (.compilerBug message)

/-- The message of a bug at a location. -/
def messageNear (message : String) (location : SourceLocation) : Except Fault String := do
  let (line, column) ← (← location.startPosition).oneBased
  return message ++ "\nOccurred while compiling code in " ++ location.path ++ " near line " ++
    toString line.toNat ++ ", column " ++ toString column.toNat

namespace Lookup

/-- The message of a bug, with the position of its target if it can be resolved. -/
def bugMessage (m : Lookup) (message : String) (target : Option Target) : Checked String :=
  match target with
  | none => return message
  | some target => do
    match ← m.tryResolve .whole target with
    | .error _ => return message
    | .ok location => messageNear message location

/-- End the computation over a bug of the compiler at `target`. -/
def bugAt {α : Type} (m : Lookup) (message : String) (target : Option Target) : Checked α := do
  bug (← m.bugMessage message target)

/-- Go on if `condition` holds; else it is a bug of the compiler. -/
def ensure (m : Lookup) (condition : Bool) (message : String) (target : Option Target) :
    Checked Unit :=
  if condition then pure () else m.bugAt message target

end Lookup

end SourceDiagnostics
