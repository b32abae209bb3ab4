import SourceDiagnostics.Report.Pass
import SourceDiagnostics.Proofs.CheckedRun

/-!
What a pass collects, whichever way it takes over what the passes under it collected.

`Pass.flatten` lists the diagnostics of a tree of passes depth first and from left to right, and
`Pass.value` follows the values up the tree. Neither runs anything or knows of collectors.

* `collect_eq`: a pass adds its flattening to what its collector held before;
* `flatten_of_sameTree`: the flattening does not depend on how the passes are merged;
* `run_depth_first`: a pass returns its flattening and its value, and reporting the flattening to a
  list gives the same list.
-/

namespace SourceDiagnostics

/-! ## Flattening -/

/-- Whether the diagnostics of the pass are taken over. -/
def Merge.keeps {ν : Type} : Merge ν → Bool
  | .ignore => false
  | _ => true

/-- What comes of the value of the pass. -/
def Merge.returned {ν : Type} (value : ν) : Merge ν → ν
  | .pipe change => change value
  | _ => value

namespace Pass

variable {δ ν : Type} {p q : Pass Diagnostic ν}

/-- The diagnostics of a pass and the passes under it, depth first and from left to right. -/
def flatten : Pass Diagnostic ν → List Diagnostic
  | .finish _ => []
  | .add d rest => d :: rest.flatten
  | .report d rest => d :: rest.flatten
  | .deprecated notice target rest =>
    { code := ⟨"deprecated"⟩, severity := .warning, message := "Deprecated: " ++ notice, target } ::
      rest.flatten
  | .extend ds rest => ds ++ rest.flatten
  | .nested inner merge rest => (if merge.keeps then inner.flatten else []) ++ rest.flatten

/-- The value of a pass after the passes run so far have returned `values`. -/
def valueAfter : Pass δ ν → List ν → ν
  | .finish value, values => value values
  | .add _ rest, values => rest.valueAfter values
  | .report _ rest, values => rest.valueAfter values
  | .deprecated _ _ rest, values => rest.valueAfter values
  | .extend _ rest, values => rest.valueAfter values
  | .nested inner merge rest, values =>
    rest.valueAfter (values ++ [merge.returned (inner.valueAfter [])])

def value (p : Pass δ ν) : ν := p.valueAfter []

/-- The two passes record the same and run the same passes. They may differ in how they take over
what those passes recorded, and in their values. -/
inductive SameTree : Pass δ ν → Pass δ ν → Prop
  | finish (f g : List ν → ν) : SameTree (.finish f) (.finish g)
  | add {p q : Pass δ ν} (d : δ) : SameTree p q → SameTree (.add d p) (.add d q)
  | report {p q : Pass δ ν} (d : δ) : SameTree p q → SameTree (.report d p) (.report d q)
  | deprecated {p q : Pass δ ν} (notice : String) (target : Option Target) :
      SameTree p q → SameTree (.deprecated notice target p) (.deprecated notice target q)
  | extend {p q : Pass δ ν} (ds : List δ) : SameTree p q → SameTree (.extend ds p) (.extend ds q)
  | nested {inner inner' p q : Pass δ ν} {merge merge' : Merge ν} :
      SameTree inner inner' → merge.keeps = merge'.keeps → SameTree p q →
        SameTree (.nested inner merge p) (.nested inner' merge' q)

theorem flatten_of_sameTree (h : SameTree p q) : q.flatten = p.flatten := by
  induction h with
  | finish f g => rfl
  | add d _ ih => rw [flatten, flatten, ih]
  | report d _ ih => rw [flatten, flatten, ih]
  | deprecated notice target _ ih => rw [flatten, flatten, ih]
  | extend ds _ ih => rw [flatten, flatten, ih]
  | nested _ hmerge _ ihInner ih => rw [flatten, flatten, ihInner, ih, hmerge]

end Pass

/-! ## Collecting -/

namespace Collector

theorem extend_nil (c : Collector) : c.extend [] = c := by
  simp [extend]

theorem extend_extend (c : Collector) (ds es : List Diagnostic) :
    (c.extend ds).extend es = c.extend (ds ++ es) := by
  simp [extend]

theorem hasErrors_iff (c : Collector) :
    c.hasErrors = true ↔ ∃ d ∈ c.diagnostics, d.severity = .error := by
  simp [hasErrors, Diagnostic.isError]

end Collector

/-- Reporting diagnostics to a list one by one gives that list. -/
theorem report_list (ds es : List Diagnostic) (j : Journal) :
    (es.foldlM Reporter.report ds : Journaled (List Diagnostic)).run j = (ds ++ es, j) := by
  induction es generalizing ds with
  | nil => rw [List.append_nil]; rfl
  | cons e es ih =>
    have := ih (ds ++ [e])
    rw [List.append_assoc] at this
    exact this

namespace Pass

variable {ν : Type}

theorem merged_eq (c inner : Collector) (value : ν) (merge : Merge ν) :
    merged c inner value merge =
      (merge.returned value, c.extend (if merge.keeps then inner.diagnostics else [])) := by
  cases merge with
  | ignore => simp [merged, Merge.keeps, Merge.returned, Collector.extend_nil]; rfl
  | pipe change => rfl
  | absorb => rfl
  | extend => rfl

theorem mapM_pure (ds : List Diagnostic) : (ds.mapM pure : Checked (List Diagnostic)) = pure ds :=
  (List.mapM_pure (f := id)).trans (congrArg pure (List.map_id ds))

/-- A pass that has run another one goes on with the value and the diagnostics that are taken over
from it. -/
theorem collect_nested {inner rest : Pass Diagnostic ν} {merge : Merge ν} {c found : Collector}
    {values : List ν} {value : ν} {j i : Journal}
    (h : (inner.collect pure {} []).run.run j = (.ok (value, found), i)) :
    (collect pure (.nested inner merge rest) c values).run.run j =
      (collect pure rest (c.extend (if merge.keeps then found.diagnostics else []))
        (values ++ [merge.returned value])).run.run i := by
  rw [collect, run_bind_of_ok h]
  dsimp only
  rw [merged_eq]

/-- **A pass adds its flattening to what its collector held before.** -/
theorem collect_eq (p : Pass Diagnostic ν) (c : Collector) (values : List ν) (j : Journal) :
    ∃ i, (p.collect pure c values).run.run j =
      (.ok (p.valueAfter values, c.extend p.flatten), i) := by
  induction p generalizing c values j with
  | finish value => exact ⟨j, by rw [flatten, Collector.extend_nil]; rfl⟩
  | add d rest ih =>
    rw [flatten, ← List.singleton_append, ← Collector.extend_extend]
    exact ih (c.extend [d]) values _
  | report d rest ih =>
    rw [flatten, ← List.singleton_append, ← Collector.extend_extend]
    exact ih (c.extend [d]) values _
  | deprecated notice target rest ih =>
    rw [flatten, ← List.singleton_append, ← Collector.extend_extend]
    exact ih (c.extend [_]) values _
  | extend ds rest ih =>
    rw [collect, mapM_pure, flatten, ← Collector.extend_extend]
    exact ih (c.extend ds) values j
  | nested inner merge rest ihInner ih =>
    obtain ⟨i, hinner⟩ := ihInner {} [] j
    rw [collect_nested hinner, flatten, ← Collector.extend_extend]
    exact ih _ _ i

/-- **Diagnostics come out depth first and from left to right.** A pass with a collector of its own
ends with its value and its flattening, however the passes under it are merged, and has errors if
one of these diagnostics is an error. Piped by another pass, it returns its value changed and adds
its flattening to what was collected there before. Reporting the flattening one by one gives it
once more. All of this holds of each pass under it as well, which is a pass in its turn. -/
theorem run_depth_first (p : Pass Diagnostic ν) (j : Journal) :
    (∃ c i,
      (p.collect pure {} []).run.run j = (.ok (p.value, c), i) ∧
      (p.run pure).run.run j = (.ok (c.wrap p.value), i) ∧
      c.diagnostics = p.flatten ∧
      (c.wrap p.value).diagnostics = p.flatten ∧
      (c.wrap p.value).ignore = p.value ∧
      (c.hasErrors = true ↔ ∃ d ∈ p.flatten, d.severity = .error) ∧
      ((c.wrap p.value).hasErrors = true ↔ ∃ d ∈ p.flatten, d.severity = .error)) ∧
    (∀ q, SameTree p q → ∃ o i, (q.run pure).run.run j = (.ok o, i) ∧
      o.diagnostics = p.flatten) ∧
    (∀ change rest c values, ∃ i,
      (collect pure (.nested p (.pipe change) rest) c values).run.run j =
        (collect pure rest (c.extend p.flatten) (values ++ [change p.value])).run.run i) ∧
    (p.flatten.foldlM Reporter.report [] : Journaled (List Diagnostic)).run j = (p.flatten, j) := by
  have own : ∀ q : Pass Diagnostic ν, ∃ i,
      (q.collect pure {} []).run.run j = (.ok (q.value, ⟨q.flatten⟩), i) ∧
      (q.run pure).run.run j = (.ok ⟨q.value, q.flatten⟩, i) := by
    intro q
    obtain ⟨i, h⟩ := collect_eq q {} [] j
    exact ⟨i, h, run_bind_of_ok h⟩
  obtain ⟨i, hcollect, hrun⟩ := own p
  refine ⟨⟨⟨p.flatten⟩, i, hcollect, hrun, rfl, rfl, rfl, ?_, ?_⟩, ?_, ?_, ?_⟩
  · exact Collector.hasErrors_iff ⟨p.flatten⟩
  · exact Collector.hasErrors_iff ⟨p.flatten⟩
  · intro q hq
    obtain ⟨i, _, hq'⟩ := own q
    exact ⟨_, i, hq', flatten_of_sameTree hq⟩
  · intro change rest c values
    exact ⟨i, collect_nested hcollect⟩
  · exact report_list [] p.flatten j

/-- The same tree of passes, with two choices of how they are merged. -/
theorem run_depth_first_samples :
    let leaf (d : Diagnostic) : Pass Diagnostic Nat := .add d (.finish fun _ => 1)
    let tree (first last : Merge Nat) : Pass Diagnostic Nat :=
      .nested (leaf (.warning ⟨"a"⟩)) first
        (.deprecated "b" none (.nested (leaf (.error ⟨"c"⟩)) last (.finish (List.foldl Nat.add 0))))
    let found : List Diagnostic := [.warning ⟨"a"⟩,
      { code := ⟨"deprecated"⟩, severity := .warning, message := "Deprecated: b" }, .error ⟨"c"⟩]
    (∃ o i, ((tree (.pipe Nat.succ) .absorb).run pure).run.run {} = (.ok o, i) ∧
      o.ignore = 3 ∧ o.diagnostics = found ∧ o.hasErrors = true) ∧
    ∃ o i, ((tree .extend (.pipe id)).run pure).run.run {} = (.ok o, i) ∧
      o.diagnostics = found := by
  intro leaf tree found
  have hsame : SameTree (tree (.pipe Nat.succ) .absorb) (tree .extend (.pipe id)) :=
    .nested (.add _ (.finish _ _)) rfl
      (.deprecated _ _ (.nested (.add _ (.finish _ _)) rfl (.finish _ _)))
  obtain ⟨⟨c, i, _, hrun, _, hfound, hvalue, _, herrors⟩, hother, _⟩ :=
    run_depth_first (tree (.pipe Nat.succ) .absorb) {}
  refine ⟨⟨_, i, hrun, hvalue, hfound, herrors.mpr ⟨.error ⟨"c"⟩, ?_, rfl⟩⟩, hother _ hsame⟩
  exact List.mem_append_right _ (List.mem_cons_of_mem _ List.mem_cons_self)

end Pass

end SourceDiagnostics
