import SourceDiagnostics.Resolution.Whereabouts

/-!
Resolving targets to locations.

A target without a real location gets a synthetic one, and that is announced: as a detail if the
model only has nothing to point at, as a warning if it contradicts the target. `Lookup.tryResolve`
hands the second kind to the caller as an error, without announcing it.
-/

namespace SourceDiagnostics

namespace Fallback

/-- The path of a node that no file is known for. -/
def unboundPath : String :=
  "<unknown location - cannot obtain source location of unbound node" ++
    " - please report a compiler bug>"

/-- What the synthetic location says instead of a path. Only a node that should have had a file is
worth more than the usual text. -/
def placeholder : Fallback → Option String
  | .unboundNode _ _ false => some unboundPath
  | _ => none

/-- Say that a target has no real location. -/
def announce : Fallback → Journaled Unit
  | .unboundNode id rootKind _ =>
    SourceDiagnostics.announce .debug "node is not bound to a source file"
      [("id", id.inspect), ("root_kind", rootKind.name)]
  | .undeclaredSymbol id name =>
    SourceDiagnostics.announce .debug "symbol has no declarations"
      [("id", id.inspect), ("name", name)]
  | .nodelessType id kind =>
    SourceDiagnostics.announce .debug "type has no node" [("id", id.inspect), ("kind", kind.name)]

/-- Announce the fallback and make the location that stands in. -/
def settle (f : Fallback) : Journaled SourceLocation := do
  f.announce
  SourceLocation.synthetic f.placeholder

end Fallback

namespace LocationError

/-- The path of the location that stands in for a target in error. -/
def path (e : LocationError) : String := "<unknown location - " ++ e.message ++ ">"

/-- Announce that `target` cannot be resolved and make the location that stands in. -/
def settle (e : LocationError) (target : Target) : Journaled SourceLocation := do
  announce .warn "cannot resolve diagnostic target"
    [("err", e.message), ("target", target.inspect)]
  SourceLocation.synthetic (some e.path)

end LocationError

namespace Lookup

/-- The location of a target, or how the model contradicts it. -/
def tryResolve (m : Lookup) (focus : Focus) (target : Target) :
    Journaled (Except LocationError SourceLocation) :=
  match m.locate focus target with
  | .error e => return .error e
  | .ok (.found location) => return .ok location
  | .ok (.missing fallback) => return .ok (← fallback.settle)

/-- The location of a target, real or not; none only where there is no target. -/
def resolve (m : Lookup) (focus : Focus) (target : Option Target) :
    Journaled (Option SourceLocation) :=
  match target with
  | none => return none
  | some target => do
    match ← m.tryResolve focus target with
    | .ok location => return some location
    | .error e => return some (← e.settle target)

end Lookup

end SourceDiagnostics
