import SourceDiagnostics.Program.Table

/-!
Semantic types: the kind of a type and the node it comes from, if it comes from one.

`SemanticType.expectKind` checks a type against a list of kinds. Its error names all of them in
order (`KindMismatch.message`).
-/

namespace SourceDiagnostics

inductive TypeKind where
  | model | modelProperty | scalar | interface | enum | enumMember | union | unionVariant
  | operation | namespaceType | tuple | string | number | boolean | intrinsic | templateParameter
  deriving DecidableEq, Repr

namespace TypeKind

def name : TypeKind → String
  | .model => "Model"
  | .modelProperty => "ModelProperty"
  | .scalar => "Scalar"
  | .interface => "Interface"
  | .enum => "Enum"
  | .enumMember => "EnumMember"
  | .union => "Union"
  | .unionVariant => "UnionVariant"
  | .operation => "Operation"
  | .namespaceType => "Namespace"
  | .tuple => "Tuple"
  | .string => "String"
  | .number => "Number"
  | .boolean => "Boolean"
  | .intrinsic => "Intrinsic"
  | .templateParameter => "TemplateParameter"

def all : List TypeKind :=
  [.model, .modelProperty, .scalar, .interface, .enum, .enumMember, .union, .unionVariant,
    .operation, .namespaceType, .tuple, .string, .number, .boolean, .intrinsic, .templateParameter]

def ofName? (s : String) : Option TypeKind := all.find? fun k => k.name == s

end TypeKind

structure SemanticType where
  kind : TypeKind
  /-- The node that declared or produced the type. -/
  node : Option NodeId := none
  deriving DecidableEq, Repr

abbrev TypeTable := Table .type SemanticType

/-! ## Expected kinds -/

/-- A value is of none of the kinds that were expected of it. -/
structure KindMismatch where
  /-- What the value is called. -/
  description : String
  expected : List TypeKind
  deriving DecidableEq, Repr

def KindMismatch.message (e : KindMismatch) : String :=
  "Expected " ++ e.description ++ " to be type " ++
    ", ".intercalate (e.expected.map TypeKind.name)

/-- Check that a type is of one of `kinds`. -/
def SemanticType.expectKind (description : String) (t : SemanticType) (kinds : List TypeKind) :
    Except KindMismatch Unit :=
  if kinds.contains t.kind then .ok () else .error ⟨description, kinds⟩

end SourceDiagnostics
