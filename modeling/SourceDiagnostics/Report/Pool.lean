import SourceDiagnostics.Report.Collector

/-!
Pools: several collectors, outcomes and lists of diagnostics at once.

Each holder has an index that it keeps. A step that hands over what a collector or an outcome
holds empties its place, and a step that names an empty place or none at all is refused
(`Pool.step`).
-/

namespace SourceDiagnostics

structure Pool (ν : Type) where
  collectors : Array (Option Collector) := #[]
  outcomes : Array (Option (Outcome ν)) := #[]
  lists : Array (List Diagnostic) := #[]

/-- What diagnostics are reported to in a pool. -/
inductive Place where
  | collector (index : Nat)
  | list (index : Nat)
  deriving DecidableEq, Repr

/-- One step on a pool. Collectors and outcomes are named by index. -/
inductive PoolStep (ν : Type) where
  | newCollector
  | copy (c : Nat)
  | add (c : Nat) (diagnostic : Diagnostic)
  | report (place : Place) (diagnostic : Diagnostic)
  | deprecated (place : Place) (notice : String) (target : Option Target)
  | extend (c : Nat) (diagnostics : List Diagnostic)
  | absorb (c other : Nat)
  | pipe (c o : Nat)
  /-- Pipe an outcome that has no place in the pool. -/
  | pipeOutcome (c : Nat) (outcome : Outcome ν)
  | wrap (c : Nat) (value : ν)
  /-- Make a list of what a collector holds. -/
  | unload (c : Nat)
  | newList (diagnostics : List Diagnostic)
  | newOutcome (outcome : Outcome ν)
  | mapOutcome (o : Nat) (change : ν → ν)
  /-- Hand an outcome out of the pool. -/
  | release (o : Nat)

namespace Pool

variable {ν : Type}

/-! ## Places -/

def collector? (p : Pool ν) (c : Nat) : Option Collector := p.collectors[c]?.join

def outcome? (p : Pool ν) (o : Nat) : Option (Outcome ν) := p.outcomes[o]?.join

def list? (p : Pool ν) (l : Nat) : Option (List Diagnostic) := p.lists[l]?

def setCollector (p : Pool ν) (c : Nat) (collector : Option Collector) : Pool ν :=
  { p with collectors := p.collectors.setIfInBounds c collector }

def setOutcome (p : Pool ν) (o : Nat) (outcome : Option (Outcome ν)) : Pool ν :=
  { p with outcomes := p.outcomes.setIfInBounds o outcome }

def setList (p : Pool ν) (l : Nat) (diagnostics : List Diagnostic) : Pool ν :=
  { p with lists := p.lists.setIfInBounds l diagnostics }

def pushCollector (p : Pool ν) (c : Collector) : Pool ν :=
  { p with collectors := p.collectors.push (some c) }

def pushOutcome (p : Pool ν) (o : Outcome ν) : Pool ν :=
  { p with outcomes := p.outcomes.push (some o) }

def pushList (p : Pool ν) (ds : List Diagnostic) : Pool ν := { p with lists := p.lists.push ds }

/-- Take what a collector holds and leave its place empty. -/
def takeCollector (p : Pool ν) (c : Nat) : Option (Collector × Pool ν) :=
  (p.collector? c).map fun collector => (collector, p.setCollector c none)

def takeOutcome (p : Pool ν) (o : Nat) : Option (Outcome ν × Pool ν) :=
  (p.outcome? o).map fun outcome => (outcome, p.setOutcome o none)

/-! ## Steps -/

/-- Change a collector in its place. -/
def updateCollector (p : Pool ν) (c : Nat) (f : Collector → Journaled Collector) :
    Journaled (Option (Pool ν)) :=
  match p.collector? c with
  | none => return none
  | some collector => return some (p.setCollector c (some (← f collector)))

/-- Change a list in its place. -/
def updateList (p : Pool ν) (l : Nat) (f : List Diagnostic → Journaled (List Diagnostic)) :
    Journaled (Option (Pool ν)) :=
  match p.list? l with
  | none => return none
  | some diagnostics => return some (p.setList l (← f diagnostics))

/-- Do one step. What a step hands over is taken out of its place before anything else is looked
up, so that nothing can be handed over to itself. -/
def step (p : Pool ν) : PoolStep ν → Journaled (Option (Pool ν))
  | .newCollector => return some (p.pushCollector {})
  | .copy c => return (p.collector? c).map p.pushCollector
  | .add c d => p.updateCollector c fun collector => collector.add d
  | .report (.collector c) d => p.updateCollector c fun collector => Reporter.report collector d
  | .report (.list l) d => p.updateList l fun ds => Reporter.report ds d
  | .deprecated (.collector c) notice target =>
    p.updateCollector c fun collector => reportDeprecated collector notice target
  | .deprecated (.list l) notice target =>
    p.updateList l fun ds => reportDeprecated ds notice target
  | .extend c ds => p.updateCollector c fun collector => return collector.extend ds
  | .absorb c other =>
    match p.takeCollector other with
    | none => return none
    | some (taken, p) => p.updateCollector c fun collector => return collector.absorb taken
  | .pipe c o =>
    match p.takeOutcome o with
    | none => return none
    | some (taken, p) => p.updateCollector c fun collector => return (collector.pipe taken).2
  | .pipeOutcome c outcome =>
    p.updateCollector c fun collector => return (collector.pipe outcome).2
  | .wrap c value =>
    return (p.takeCollector c).map fun (taken, p) => p.pushOutcome (taken.wrap value)
  | .unload c => return (p.takeCollector c).map fun (taken, p) => p.pushList taken.diagnostics
  | .newList ds => return some (p.pushList ds)
  | .newOutcome outcome => return some (p.pushOutcome outcome)
  | .mapOutcome o change =>
    return (p.outcome? o).map fun outcome => p.setOutcome o (some (outcome.map change))
  | .release o => return (p.takeOutcome o).map Prod.snd

end Pool

end SourceDiagnostics
