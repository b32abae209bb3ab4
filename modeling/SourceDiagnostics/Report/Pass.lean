import SourceDiagnostics.Report.Collector

/-!
Passes: computations that collect diagnostics of their own and run other passes on the way.

A `Pass` is what one pass does, step by step, and `Pass.run` does it, with a new collector for every
pass. Whichever way a pass takes over the diagnostics of another one (`Merge`), they come out in
the order in which the passes found them.
-/

namespace SourceDiagnostics

/-- What becomes of the diagnostics of a pass that another pass has run. -/
inductive Merge (ν : Type) where
  /-- Its outcome is piped, after its value went through `change`. -/
  | pipe (change : ν → ν)
  /-- Its collector is absorbed. -/
  | absorb
  /-- They are taken over as a list. -/
  | extend
  /-- They are dropped. -/
  | ignore

/-- The steps of a pass. `δ` stands for diagnostics that are made when their turn comes, `ν` for
the values of passes. -/
inductive Pass (δ ν : Type) where
  /-- The end; the value follows from those of the passes run, in order. -/
  | finish (value : List ν → ν)
  | add (diagnostic : δ) (rest : Pass δ ν)
  | report (diagnostic : δ) (rest : Pass δ ν)
  | deprecated (notice : String) (target : Option Target) (rest : Pass δ ν)
  | extend (diagnostics : List δ) (rest : Pass δ ν)
  | nested (inner : Pass δ ν) (merge : Merge ν) (rest : Pass δ ν)

namespace Pass

variable {δ ν : Type}

/-- Take over the diagnostics of a pass that ended with `inner` and `value`. -/
def merged (c : Collector) (inner : Collector) (value : ν) : Merge ν → ν × Collector
  | .pipe change => c.pipe ((inner.wrap value).map change)
  | .absorb => (value, c.absorb inner)
  | .extend => (value, c.extend inner.diagnostics)
  | .ignore => ((inner.wrap value).ignore, c)

/-- Do the steps of a pass with collector `c`, where `values` are those of the passes run so far. -/
def collect (make : δ → Checked Diagnostic) :
    Pass δ ν → Collector → List ν → Checked (ν × Collector)
  | .finish value, c, values => return (value values, c)
  | .add d rest, c, values => do
    let d ← make d
    collect make rest (← c.add d) values
  | .report d rest, c, values => do
    let d ← make d
    collect make rest (← (Reporter.report c d : Journaled Collector)) values
  | .deprecated notice target rest, c, values => do
    collect make rest (← (reportDeprecated c notice target : Journaled Collector)) values
  | .extend ds rest, c, values => do
    collect make rest (c.extend (← ds.mapM make)) values
  | .nested inner merge rest, c, values => do
    let (value, found) ← collect make inner {} []
    let (value, c) := merged c found value merge
    collect make rest c (values ++ [value])

/-- Do a pass and wrap its value. -/
def run (make : δ → Checked Diagnostic) (p : Pass δ ν) : Checked (Outcome ν) := do
  let (value, c) ← p.collect make {} []
  return c.wrap value

end Pass

end SourceDiagnostics
