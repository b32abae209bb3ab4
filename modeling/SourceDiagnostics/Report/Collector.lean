import SourceDiagnostics.Journal
import SourceDiagnostics.Report.Diagnostic

/-!
Collecting diagnostics while a value is computed.

An `Outcome` is a value with the diagnostics found on the way to it. A `Collector` gathers
diagnostics in the order in which they come: `add` records one and announces it, `pipe`, `absorb`
and `extend` take over what was recorded before, and `wrap` makes an outcome of all of it.
-/

namespace SourceDiagnostics

structure Outcome (ν : Type) where
  value : ν
  diagnostics : List Diagnostic := []
  deriving BEq, Repr

namespace Outcome

variable {ν μ : Type}

/-- An outcome without diagnostics. -/
def ok (value : ν) : Outcome ν := { value }

def parts (o : Outcome ν) : ν × List Diagnostic := (o.value, o.diagnostics)

def ofParts (p : ν × List Diagnostic) : Outcome ν := ⟨p.1, p.2⟩

/-- Change the value and keep the diagnostics. -/
def map (f : ν → μ) (o : Outcome ν) : Outcome μ := ⟨f o.value, o.diagnostics⟩

/-- The value alone, where the diagnostics do not matter. -/
def ignore (o : Outcome ν) : ν := o.value

def hasErrors (o : Outcome ν) : Bool := o.diagnostics.any Diagnostic.isError

end Outcome

/-- Something that diagnostics can be reported to one by one. -/
class Reporter (ρ : Type) where
  report : ρ → Diagnostic → Journaled ρ

instance : Reporter (List Diagnostic) where
  report ds d := return ds ++ [d]

/-- Report the use of a deprecated declaration. -/
def reportDeprecated {ρ : Type} [Reporter ρ] (reporter : ρ) (notice : String)
    (target : Option Target) : Journaled ρ :=
  Reporter.report reporter (.deprecation notice target)

structure Collector where
  diagnostics : List Diagnostic := []
  deriving BEq, Repr, Inhabited

namespace Collector

variable {ν : Type}

/-- Record a diagnostic. -/
def add (c : Collector) (d : Diagnostic) : Journaled Collector := do
  announce .trace "diagnostic collected" [("code", d.code.text), ("severity", d.severity.text)]
  return ⟨c.diagnostics ++ [d]⟩

/-- Take over several diagnostics. -/
def extend (c : Collector) (ds : List Diagnostic) : Collector := ⟨c.diagnostics ++ ds⟩

/-- Take over the diagnostics of an outcome and return its value. -/
def pipe (c : Collector) (o : Outcome ν) : ν × Collector := (o.value, c.extend o.diagnostics)

/-- Take over what another collector recorded. -/
def absorb (c other : Collector) : Collector := c.extend other.diagnostics

/-- An outcome of `value` and everything recorded. -/
def wrap (c : Collector) (value : ν) : Outcome ν := ⟨value, c.diagnostics⟩

def len (c : Collector) : Nat := c.diagnostics.length

def isEmpty (c : Collector) : Bool := c.diagnostics.isEmpty

def hasErrors (c : Collector) : Bool := c.diagnostics.any Diagnostic.isError

end Collector

instance : Reporter Collector where
  report c d := c.add d

end SourceDiagnostics
