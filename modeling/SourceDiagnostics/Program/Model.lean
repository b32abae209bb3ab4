import SourceDiagnostics.Program.Node
import SourceDiagnostics.Program.Symbol
import SourceDiagnostics.Program.SemanticType

/-!
The model of a program: its nodes, symbols and types.

Who only reads a model sees it as a `Lookup`, which also says how many links a chain of parents
may have. A model answers from its tables and allows as many links as it has nodes
(`Model.lookup`).
-/

namespace SourceDiagnostics

structure Model where
  nodes : NodeTable := {}
  symbols : SymbolTable := {}
  types : TypeTable := {}

/-- One change of a model. -/
inductive ModelEdit where
  | node (edit : NodeEdit)
  | symbol (symbol : Symbol)
  | type (type : SemanticType)

/-- The entity that a change of a model is about. -/
inductive EntityId where
  | node (id : NodeId)
  | symbol (id : SymbolId)
  | type (id : TypeId)
  deriving DecidableEq, Repr

def EntityId.index : EntityId → Nat
  | .node id => id.index
  | .symbol id => id.index
  | .type id => id.index

def Model.apply (m : Model) : ModelEdit → Except Fault (Model × EntityId)
  | .node edit => do
    let (nodes, id) ← m.nodes.apply edit
    return ({ m with nodes }, .node id)
  | .symbol symbol =>
    .ok ({ m with symbols := m.symbols.push symbol }, .symbol m.symbols.nextId)
  | .type type => .ok ({ m with types := m.types.push type }, .type m.types.nextId)

/-- Reading access to the entities of a program. -/
structure Lookup where
  node : NodeId → Option Node
  symbol : SymbolId → Option Symbol
  type : TypeId → Option SemanticType
  /-- A bound on the links of any chain of parents. -/
  nodeCount : Nat

def Model.lookup (m : Model) : Lookup where
  node := m.nodes.get?
  symbol := m.symbols.get?
  type := m.types.get?
  nodeCount := m.nodes.size

end SourceDiagnostics
