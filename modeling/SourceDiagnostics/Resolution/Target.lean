import SourceDiagnostics.Source.Location
import SourceDiagnostics.Program.Model

/-!
Targets: what a report about a program can point at.

A target is a location that is known already, or a symbol, node or type of the program. `Focus`
says which part of a declaration to point at, `LocationError` why a target has no location.
-/

namespace SourceDiagnostics

inductive Target where
  | location (location : SourceLocation)
  | symbol (id : SymbolId)
  | node (id : NodeId)
  | type (id : TypeId)
  deriving BEq, Repr

def Target.inspect : Target → String
  | .location l => Text.applied "Location" l.inspect
  | .symbol id => Text.applied "Symbol" id.inspect
  | .node id => Text.applied "Node" id.inspect
  | .type id => Text.applied "Type" id.inspect

/-- The part of a declaration to point at. -/
inductive Focus where
  /-- All of it. -/
  | whole
  /-- Its name, where it has one. -/
  | name
  deriving DecidableEq, Repr

/-- How a model contradicts a target. -/
inductive LocationError where
  | unknownNode (id : NodeId)
  | unknownSymbol (id : SymbolId)
  | unknownType (id : TypeId)
  /-- An alias does not say what it stands for. -/
  | missingUsingSource (id : SymbolId)
  /-- There are more parents above the node than there can be. -/
  | parentCycle (id : NodeId)
  deriving DecidableEq, Repr

namespace LocationError

def message : LocationError → String
  | .unknownNode id => "node " ++ id.inspect ++ " is not part of the model"
  | .unknownSymbol id => "symbol " ++ id.inspect ++ " is not part of the model"
  | .unknownType id => "type " ++ id.inspect ++ " is not part of the model"
  | .missingUsingSource id => "using symbol " ++ id.inspect ++ " has no source symbol"
  | .parentCycle id => "parent chain of node " ++ id.inspect ++ " does not terminate"

/-- The name of the error. -/
def name : LocationError → String
  | .unknownNode _ => "UnknownNode"
  | .unknownSymbol _ => "UnknownSymbol"
  | .unknownType _ => "UnknownType"
  | .missingUsingSource _ => "MissingUsingSource"
  | .parentCycle _ => "ParentCycle"

def inspect (e : LocationError) : String :=
  Text.applied e.name <|
    match e with
    | .unknownNode id | .parentCycle id => id.inspect
    | .unknownSymbol id | .missingUsingSource id => id.inspect
    | .unknownType id => id.inspect

end LocationError

end SourceDiagnostics
