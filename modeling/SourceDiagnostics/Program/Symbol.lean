import SourceDiagnostics.Program.Flags
import SourceDiagnostics.Program.Table

/-!
Symbols: the names that a program binds.

A symbol made by a `using` statement is an alias. It names the symbol it stands for, and its own
declarations do not count.
-/

namespace SourceDiagnostics

/-- The flags that say what a symbol is bound to. -/
def symbolVocabulary : Vocabulary where
  title := "SymbolFlags"
  entries := [("MODEL", 0x2), ("SCALAR", 0x4), ("OPERATION", 0x8), ("ENUM", 0x10),
    ("INTERFACE", 0x20), ("UNION", 0x40), ("ALIAS", 0x80), ("NAMESPACE", 0x100),
    ("DECORATOR", 0x200), ("TEMPLATE_PARAMETER", 0x400), ("FUNCTION", 0x800), ("USING", 0x1000)]

abbrev SymbolFlags := Flags symbolVocabulary

/-- Set on the aliases that `using` statements make. -/
def SymbolFlags.usingAlias : SymbolFlags := ⟨0x1000⟩

structure Symbol where
  name : String
  flags : SymbolFlags
  /-- The declaring nodes in order; the first one gives the location. -/
  declarations : List NodeId := []
  /-- The symbol that an alias stands for. -/
  source : Option SymbolId := none
  deriving Repr

namespace Symbol

/-- An alias of `source`. -/
def aliasOf (name : String) (source : SymbolId) : Symbol :=
  { name, flags := SymbolFlags.usingAlias, source := some source }

def withDeclaration (s : Symbol) (declaration : NodeId) : Symbol :=
  { s with declarations := s.declarations ++ [declaration] }

def isUsing (s : Symbol) : Bool := s.flags.contains SymbolFlags.usingAlias

end Symbol

abbrev SymbolTable := Table .symbol Symbol

end SourceDiagnostics
