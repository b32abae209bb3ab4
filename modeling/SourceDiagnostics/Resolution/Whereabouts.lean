import SourceDiagnostics.Resolution.Target

/-!
Where a target is, as far as the model says.

A node is in the file of the root above it, a symbol is where its first declaration is, a type is
where its node is. `Lookup.locate` answers with a location, or with the reason why there is none
(`Fallback`), or with an error where the model contradicts the target. It changes nothing and
announces nothing. What a climb from parent to parent costs depends on how nodes are found, so the
climb is written for any way to find them (`Lookup.climbVia`, `Lookup.locateNodeVia`).
-/

namespace SourceDiagnostics

/-- Why a target that the model knows has no real location. -/
inductive Fallback where
  /-- The root above the node does not stand for a file. -/
  | unboundNode (id : NodeId) (rootKind : NodeKind) (isSynthetic : Bool)
  | undeclaredSymbol (id : SymbolId) (name : String)
  | nodelessType (id : TypeId) (kind : TypeKind)
  deriving DecidableEq, Repr

inductive Whereabouts where
  | found (location : SourceLocation)
  | missing (fallback : Fallback)
  deriving Repr

namespace Lookup

/-- The root above `node`: follow at most `bound` links to a node without a parent, each of which is
looked up through `find`. The errors name the node that the climb began with. -/
def climbVia {μ : Type → Type} [Monad μ] (find : NodeId → μ (Option Node)) (start : NodeId)
    (bound : Nat) (node : Node) : μ (Except LocationError Node) :=
  match node.parent, bound with
  | none, _ => return .ok node
  | some _, 0 => return .error (.parentCycle start)
  | some parent, bound + 1 => do
    match ← find parent with
    | none => return .error (.unknownNode parent)
    | some next => climbVia find start bound next

/-- The root above `node`, from the nodes of the model. -/
def climb (m : Lookup) (start : NodeId) (bound : Nat) (node : Node) : Except LocationError Node :=
  Id.run (climbVia (fun id => pure (m.node id)) start bound node)

/-- The span of a node, or that of its name if the focus is on it and there is one. -/
def focusedSpan (m : Lookup) (focus : Focus) (node : Node) : Except LocationError Span :=
  match focus, node.identifier with
  | .name, some id =>
    match m.node id with
    | none => .error (.unknownNode id)
    | some name => .ok name.span
  | _, _ => .ok node.span

/-- The location of a node whose root is climbed to through `find`. The file comes from the root.
The name is looked up only if there is a file. -/
def locateNodeVia {μ : Type → Type} [Monad μ] (find : NodeId → μ (Option Node)) (m : Lookup)
    (focus : Focus) (id : NodeId) : μ (Except LocationError Whereabouts) :=
  match m.node id with
  | none => return .error (.unknownNode id)
  | some node => do
    match ← climbVia find id m.nodeCount node with
    | .error e => return .error e
    | .ok root =>
      match root.anchor? with
      | none => return .ok (.missing (.unboundNode id root.kind node.isSynthetic))
      | some file => return (m.focusedSpan focus node).map fun span => .found ⟨file, span, false⟩

def locateNode (m : Lookup) (focus : Focus) (id : NodeId) : Except LocationError Whereabouts :=
  Id.run (locateNodeVia (fun id => pure (m.node id)) m focus id)

/-- The symbol whose declarations count: an alias leads to its source, once. -/
def declaringSymbol (m : Lookup) (id : SymbolId) : Except LocationError Symbol :=
  match m.symbol id with
  | none => .error (.unknownSymbol id)
  | some symbol =>
    if symbol.isUsing then
      match symbol.source with
      | none => .error (.missingUsingSource id)
      | some source =>
        match m.symbol source with
        | none => .error (.unknownSymbol source)
        | some declaring => .ok declaring
    else .ok symbol

def locateSymbol (m : Lookup) (focus : Focus) (id : SymbolId) :
    Except LocationError Whereabouts := do
  let symbol ← m.declaringSymbol id
  match symbol.declarations with
  | [] => return .missing (.undeclaredSymbol id symbol.name)
  | declaration :: _ => m.locateNode focus declaration

def locateType (m : Lookup) (focus : Focus) (id : TypeId) : Except LocationError Whereabouts :=
  match m.type id with
  | none => .error (.unknownType id)
  | some type =>
    match type.node with
    | none => .ok (.missing (.nodelessType id type.kind))
    | some node => m.locateNode focus node

def locate (m : Lookup) (focus : Focus) : Target → Except LocationError Whereabouts
  | .location l => .ok (.found l)
  | .symbol id => m.locateSymbol focus id
  | .node id => m.locateNode focus id
  | .type id => m.locateType focus id

end Lookup

end SourceDiagnostics
