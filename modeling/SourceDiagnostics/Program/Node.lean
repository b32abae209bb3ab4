import SourceDiagnostics.Source.File
import SourceDiagnostics.Source.Span
import SourceDiagnostics.Program.Flags
import SourceDiagnostics.Program.Table

/-!
The nodes of a program's trees.

Nodes do not hold each other. A node names its parent and its identifier by id, and only the roots
that stand for a whole file carry that file. `NodeEdit.perform` makes the one change that a
`NodeEdit` describes; links may name nodes that do not exist, or lead in a circle.
-/

namespace SourceDiagnostics

/-! ## Kinds and flags -/

inductive NodeKind where
  | typeSpecScript | jsSourceFile
  | namespaceStatement | modelStatement | modelProperty | scalarStatement | interfaceStatement
  | operationStatement | enumStatement | enumMember | unionStatement | aliasStatement
  | usingStatement | templateParameterDeclaration
  | identifier | typeReference | memberExpression | stringLiteral | numericLiteral
  | booleanLiteral | decoratorExpression
  | jsNamespaceDeclaration
  deriving DecidableEq, Repr

namespace NodeKind

def name : NodeKind → String
  | typeSpecScript => "TypeSpecScript"
  | jsSourceFile => "JsSourceFile"
  | namespaceStatement => "NamespaceStatement"
  | modelStatement => "ModelStatement"
  | modelProperty => "ModelProperty"
  | scalarStatement => "ScalarStatement"
  | interfaceStatement => "InterfaceStatement"
  | operationStatement => "OperationStatement"
  | enumStatement => "EnumStatement"
  | enumMember => "EnumMember"
  | unionStatement => "UnionStatement"
  | aliasStatement => "AliasStatement"
  | usingStatement => "UsingStatement"
  | templateParameterDeclaration => "TemplateParameterDeclaration"
  | identifier => "Identifier"
  | typeReference => "TypeReference"
  | memberExpression => "MemberExpression"
  | stringLiteral => "StringLiteral"
  | numericLiteral => "NumericLiteral"
  | booleanLiteral => "BooleanLiteral"
  | decoratorExpression => "DecoratorExpression"
  | jsNamespaceDeclaration => "JsNamespaceDeclaration"

def all : List NodeKind :=
  [typeSpecScript, jsSourceFile, namespaceStatement, modelStatement, modelProperty,
    scalarStatement, interfaceStatement, operationStatement, enumStatement, enumMember,
    unionStatement, aliasStatement, usingStatement, templateParameterDeclaration, identifier,
    typeReference, memberExpression, stringLiteral, numericLiteral, booleanLiteral,
    decoratorExpression, jsNamespaceDeclaration]

def ofName? (s : String) : Option NodeKind := all.find? fun k => k.name == s

/-- Whether nodes of this kind stand for a whole file. -/
def isSourceRoot : NodeKind → Bool
  | typeSpecScript | jsSourceFile => true
  | _ => false

end NodeKind

/-- The flags that reading a file and later passes set on nodes. -/
def nodeVocabulary : Vocabulary where
  title := "NodeFlags"
  entries := [("THIS_NODE_HAS_ERROR", 1), ("DESCENDANT_HAS_ERROR", 2), ("SYNTHETIC", 8)]

abbrev NodeFlags := Flags nodeVocabulary

/-- Set on nodes that were made up and have no text. -/
def NodeFlags.synthetic : NodeFlags := ⟨8⟩

/-! ## Nodes -/

structure Node where
  kind : NodeKind
  span : Span
  flags : NodeFlags := .empty
  /-- The enclosing node, if there is one. -/
  parent : Option NodeId := none
  /-- The node of the declared name, on named declarations. -/
  identifier : Option NodeId := none
  /-- The file that a source root stands for. -/
  file : Option SourceFile := none
  deriving Repr

namespace Node

/-- Set more flags. -/
def withFlags (n : Node) (flags : NodeFlags) : Node := { n with flags := n.flags.union flags }

def withParent (n : Node) (parent : NodeId) : Node := { n with parent := some parent }

def isSynthetic (n : Node) : Bool := n.flags.contains NodeFlags.synthetic

/-- The file that a node anchors its tree in: only source roots do. -/
def anchor? (n : Node) : Option SourceFile := if n.kind.isSourceRoot then n.file else none

end Node

/-- New values for some fields of a node. A field that is `none` stays as it is, so the optional
fields can be cleared too. -/
structure NodePatch where
  kind : Option NodeKind := none
  span : Option Span := none
  flags : Option NodeFlags := none
  parent : Option (Option NodeId) := none
  identifier : Option (Option NodeId) := none
  file : Option (Option SourceFile) := none

def NodePatch.apply (p : NodePatch) (n : Node) : Node where
  kind := p.kind.getD n.kind
  span := p.span.getD n.span
  flags := p.flags.getD n.flags
  parent := p.parent.getD n.parent
  identifier := p.identifier.getD n.identifier
  file := p.file.getD n.file

/-! ## The table of nodes -/

abbrev NodeTable := Table .node Node

/-- One change of a table of nodes. -/
inductive NodeEdit where
  | add (node : Node)
  /-- A root that spans the whole of `file`. -/
  | root (kind : NodeKind) (file : SourceFile)
  | child (parent : NodeId) (kind : NodeKind) (span : Span)
  /-- A declaration together with the node of its name. -/
  | named (parent : NodeId) (kind : NodeKind) (span nameSpan : Span)
  | patch (id : NodeId) (patch : NodePatch)

/-- A node on its own, put under a parent. -/
def NodeTable.child (parent : NodeId) (kind : NodeKind) (span : Span) : Node :=
  ({ kind, span } : Node).withParent parent

theorem NodeTable.child_eq (parent : NodeId) (kind : NodeKind) (span : Span) :
    child parent kind span = { kind, span, parent := some parent } := rfl

/-! ## Changes in place -/

/-- Changes of a table in place. What was done before a fault stays done. -/
abbrev InPlace := ExceptT Fault (StateM NodeTable)

namespace InPlace

def alloc (node : Node) : InPlace NodeId := do
  let t ← get
  set (t.push node)
  return t.nextId

/-- Change a node that has to be in the table. -/
def update (id : NodeId) (f : Node → Node) : InPlace Unit := do
  let t ← get
  if id.index < t.size then set (t.modify id f) else throw (.outOfRange t.size id.index)

end InPlace

/-- Make a change step by step; the id is that of the node it is about. A root of a kind that is not
a source root is refused. A declaration is there before its name, and named last. -/
def NodeEdit.perform : NodeEdit → InPlace NodeId
  | .add node => InPlace.alloc node
  | .root kind file => do
    unless kind.isSourceRoot do throw .notSourceRoot
    let span ← (Span.new 0 file.len : Except Fault Span)
    InPlace.alloc { kind, span, file := some file }
  | .child parent kind span => InPlace.alloc (NodeTable.child parent kind span)
  | .named parent kind span nameSpan => do
    let declaration ← InPlace.alloc (NodeTable.child parent kind span)
    let name ← InPlace.alloc (NodeTable.child declaration .identifier nameSpan)
    InPlace.update declaration fun node => { node with identifier := some name }
    return declaration
  | .patch id change => do
    modify fun t => t.modify id change.apply
    return id

/-- Make changes one after the other. A change that is refused does not keep the next one from
being made. -/
def performAll (edits : List NodeEdit) : StateM NodeTable (List (Except Fault NodeId)) :=
  edits.mapM fun e => e.perform.run

/-- The table after a change, and the id of the node that it is about. Of a change that is refused
nothing is kept but the fault. -/
def NodeTable.apply (t : NodeTable) (e : NodeEdit) : Except Fault (NodeTable × NodeId) :=
  match e.perform.run.run t with
  | (.ok id, changed) => .ok (changed, id)
  | (.error fault, _) => .error fault

end SourceDiagnostics
