import SourceDiagnostics.Proofs.ParentChain
import SourceDiagnostics.Resolution.Resolve

/-!
What the resolver answers for a node, by the chain of parents above the node.

* `Lookup.answer_eq`: what `tryResolve` answers is what `locate` says, with a stand-in location in
  a new file where there is no real one;
* `Model.parent_walk_exact`: a node of a model is answered with a cycle, a missing node or its root
  exactly as its chain is endless, dangles or ends, however long the chain is;
* `Model.exists_longest_chain`: a chain can pass every node of a model, so the walk needs all the
  links that it is allowed.
-/

namespace SourceDiagnostics

/-! ## Answers -/

/-- The location that stands in for a target without a real one, in a file with identity `id`. -/
def Fallback.standIn (f : Fallback) (id : FileId) : SourceLocation :=
  ⟨⟨id, f.placeholder.getD SourceLocation.unknownPath, ""⟩, Span.dummy, true⟩

/-- The location that is found, or the one that stands in. -/
def Whereabouts.location (id : FileId) : Whereabouts → SourceLocation
  | .found location => location
  | .missing fallback => fallback.standIn id

/-- The location that stands in for a target in error, in a file with identity `id`. -/
def LocationError.standIn (e : LocationError) (id : FileId) : SourceLocation :=
  ⟨⟨id, e.path, ""⟩, Span.dummy, true⟩

/-- The journal after a file was made and announced. -/
def Journal.withStandIn (j : Journal) (event : Event) : Journal where
  nextFile := j.nextFile + 1
  events := j.events ++ [event]

theorem Fallback.run_settle (f : Fallback) : ∃ fields, ∀ j : Journal,
    f.settle.run j = (f.standIn ⟨j.nextFile⟩, j.withStandIn ⟨.debug, fields⟩) := by
  cases f <;> exact ⟨_, fun _ => rfl⟩

theorem LocationError.run_settle (e : LocationError) (target : Target) : ∃ fields, ∀ j : Journal,
    (e.settle target).run j = (e.standIn ⟨j.nextFile⟩, j.withStandIn ⟨.warn, fields⟩) :=
  ⟨_, fun _ => rfl⟩

namespace Lookup

variable {m : Lookup} {focus : Focus} {id : NodeId} {node root : Node} {j : Journal}

/-! ### Runs -/

section Runs

variable {target : Target} {i : Journal}

theorem run_tryResolve_of_error {e : LocationError} (h : m.locate focus target = .error e) :
    (m.tryResolve focus target).run j = (.error e, j) := by
  unfold tryResolve
  rw [h]
  rfl

theorem run_tryResolve_of_found {l : SourceLocation} (h : m.locate focus target = .ok (.found l)) :
    (m.tryResolve focus target).run j = (.ok l, j) := by
  unfold tryResolve
  rw [h]
  rfl

theorem run_tryResolve_of_missing {f : Fallback} (h : m.locate focus target = .ok (.missing f)) :
    (m.tryResolve focus target).run j = (.ok (f.settle.run j).1, (f.settle.run j).2) := by
  unfold tryResolve
  rw [h]
  rfl

/-- What can be resolved without an error is resolved in the same way either time. -/
theorem run_resolve_of_ok {l : SourceLocation}
    (h : (m.tryResolve focus target).run j = (.ok l, i)) :
    (m.resolve focus (some target)).run j = (some l, i) := by
  simp only [resolve, StateT.run_bind, h]
  rfl

theorem run_resolve_of_error {e : LocationError} (h : m.locate focus target = .error e) :
    (m.resolve focus (some target)).run j =
      (some ((e.settle target).run j).1, ((e.settle target).run j).2) := by
  simp only [resolve, StateT.run_bind, run_tryResolve_of_error h]
  rfl

theorem run_resolve_of_found {l : SourceLocation} (h : m.locate focus target = .ok (.found l))
    (j : Journal) : (m.resolve focus (some target)).run j = (some l, j) :=
  run_resolve_of_ok (run_tryResolve_of_found h)

theorem run_resolve_of_missing {f : Fallback} (h : m.locate focus target = .ok (.missing f))
    (j : Journal) : (m.resolve focus (some target)).run j =
      (some (f.settle.run j).1, (f.settle.run j).2) :=
  run_resolve_of_ok (run_tryResolve_of_missing h)

/-- The three ways in which a target gets a location. -/
theorem resolve_cases (m : Lookup) (focus : Focus) (target : Target) (j : Journal) :
    (∃ e, m.locate focus target = .error e ∧ (m.resolve focus (some target)).run j =
      (some ((e.settle target).run j).1, ((e.settle target).run j).2)) ∨
    (∃ l, m.locate focus target = .ok (.found l) ∧
      (m.resolve focus (some target)).run j = (some l, j)) ∨
    ∃ f, m.locate focus target = .ok (.missing f) ∧ (m.resolve focus (some target)).run j =
      (some (f.settle.run j).1, (f.settle.run j).2) := by
  cases h : m.locate focus target with
  | error e => exact Or.inl ⟨e, rfl, run_resolve_of_error h⟩
  | ok w =>
    cases w with
    | found l => exact Or.inr (Or.inl ⟨l, rfl, run_resolve_of_found h j⟩)
    | missing f => exact Or.inr (Or.inr ⟨f, rfl, run_resolve_of_missing h j⟩)

theorem exists_run_resolve (m : Lookup) (focus : Focus) (target : Target) (j : Journal) :
    ∃ l i, (m.resolve focus (some target)).run j = (some l, i) := by
  rcases m.resolve_cases focus target j with ⟨e, _, h⟩ | ⟨l, _, h⟩ | ⟨f, _, h⟩
  · exact ⟨_, _, h⟩
  · exact ⟨l, j, h⟩
  · exact ⟨_, _, h⟩

end Runs

/-! ### Answers -/

/-- What `tryResolve` answers while the journal is `j`. -/
def answer (m : Lookup) (focus : Focus) (target : Target) (j : Journal) :
    Except LocationError SourceLocation :=
  ((m.tryResolve focus target).run j).1

theorem answer_eq (m : Lookup) (focus : Focus) (target : Target) (j : Journal) :
    m.answer focus target j =
      (m.locate focus target).map (Whereabouts.location ⟨j.nextFile⟩) := by
  unfold answer tryResolve
  cases m.locate focus target with
  | error e => rfl
  | ok w =>
    cases w with
    | found location => rfl
    | missing fallback => cases fallback <;> rfl

theorem answer_eq_error_iff {target : Target} {e : LocationError} :
    m.answer focus target j = .error e ↔ m.locate focus target = .error e := by
  rw [answer_eq]
  cases m.locate focus target with
  | error e' => constructor <;> intro h <;> cases h <;> rfl
  | ok w => constructor <;> intro h <;> cases h

/-- Two answers that say the same, given while the journals were `j` and `i`. A stand-in is in a new
file each time. -/
inductive Alike (j i : Journal) :
    Except LocationError SourceLocation → Except LocationError SourceLocation → Prop
  | error (e : LocationError) : Alike j i (.error e) (.error e)
  | found (l : SourceLocation) : Alike j i (.ok l) (.ok l)
  | standIn (path : String) :
      Alike j i (.ok ⟨⟨⟨j.nextFile⟩, path, ""⟩, Span.dummy, true⟩)
        (.ok ⟨⟨⟨i.nextFile⟩, path, ""⟩, Span.dummy, true⟩)

theorem alike_of_locate {n : Lookup} {target : Target} {i : Journal}
    (h : n.locate focus target = m.locate focus target) :
    Alike j i (m.answer focus target j) (n.answer focus target i) := by
  rw [answer_eq, answer_eq, h]
  cases m.locate focus target with
  | error e => exact .error e
  | ok w =>
    cases w with
    | found l => exact .found l
    | missing f => exact .standIn (f.placeholder.getD SourceLocation.unknownPath)

theorem locateNode_of_missing (hn : m.node id = none) :
    m.locateNode focus id = .error (.unknownNode id) := by
  rw [locateNode, locateNodeVia, hn]
  rfl

/-- What is made of the root that the climb arrives at. -/
theorem locateNode_of_node (hn : m.node id = some node) :
    m.locateNode focus id = m.climb id m.nodeCount node >>= fun root =>
      match root.anchor? with
      | none => .ok (.missing (.unboundNode id root.kind node.isSynthetic))
      | some file => (m.focusedSpan focus node).map fun span => .found ⟨file, span, false⟩ := by
  rw [locateNode, locateNodeVia, hn, climb]
  simp only [Id.run_bind]
  cases Id.run (climbVia (fun id => pure (m.node id)) id m.nodeCount node) with
  | error e => rfl
  | ok root => cases root.anchor? <;> rfl

theorem locateNode_of_climb_error {e : LocationError} (hn : m.node id = some node)
    (h : m.climb id m.nodeCount node = .error e) : m.locateNode focus id = .error e := by
  rw [locateNode_of_node hn, h]
  rfl

theorem locateNode_of_anchor_none (hn : m.node id = some node)
    (h : m.climb id m.nodeCount node = .ok root) (ha : root.anchor? = none) :
    m.locateNode focus id = .ok (.missing (.unboundNode id root.kind node.isSynthetic)) := by
  rw [locateNode_of_node hn, h]
  simp only [bind, Except.bind, ha]

theorem locateNode_of_anchor {file : SourceFile} (hn : m.node id = some node)
    (h : m.climb id m.nodeCount node = .ok root) (ha : root.anchor? = some file) :
    m.locateNode focus id =
      (m.focusedSpan focus node).map fun span => .found ⟨file, span, false⟩ := by
  rw [locateNode_of_node hn, h]
  simp only [bind, Except.bind, ha]

/-- The name of a node can be missing; nothing else goes wrong with its span. -/
theorem focusedSpan_eq_error {e : LocationError} (h : m.focusedSpan focus node = .error e) :
    ∃ name, node.identifier = some name ∧ m.node name = none ∧ e = .unknownNode name := by
  unfold focusedSpan at h
  split at h
  · next name hname =>
    cases hn : m.node name with
    | none =>
      rw [hn] at h
      cases h
      exact ⟨name, hname, hn, rfl⟩
    | some n =>
      rw [hn] at h
      cases h
  · cases h

/-- Only the climb can find a cycle. -/
theorem locateNode_eq_parentCycle_iff {q : NodeId} (hn : m.node id = some node) :
    m.locateNode focus id = .error (.parentCycle q) ↔
      m.climb id m.nodeCount node = .error (.parentCycle q) := by
  constructor
  · intro h
    cases hc : m.climb id m.nodeCount node with
    | error e =>
      rw [locateNode_of_climb_error hn hc] at h
      rw [Except.error.inj h]
    | ok root =>
      cases ha : root.anchor? with
      | none =>
        rw [locateNode_of_anchor_none hn hc ha] at h
        cases h
      | some file =>
        rw [locateNode_of_anchor hn hc ha] at h
        cases hs : m.focusedSpan focus node with
        | ok span =>
          rw [hs] at h
          cases h
        | error e =>
          rw [hs] at h
          obtain ⟨name, _, _, rfl⟩ := focusedSpan_eq_error hs
          cases h
  · exact locateNode_of_climb_error hn

end Lookup

/-! ## The parent walk in a model -/

namespace Model

variable {m : Model} {id : NodeId} {node root : Node} {k : Nat}

theorem climb_of_endless (hn : m.lookup.node id = some node) (h : m.lookup.Endless id) :
    m.lookup.climb id m.lookup.nodeCount node = .error (.parentCycle id) := by
  obtain ⟨p, hp⟩ := endless_iff_long.mp h
  exact Lookup.climb_of_long hn hp

theorem climb_of_endsAt (hn : m.lookup.node id = some node) (h : m.lookup.EndsAt id k root) :
    m.lookup.climb id m.lookup.nodeCount node = .ok root :=
  Lookup.climb_of_endsAt hn h (Nat.le_of_lt (lt_size_of_endsAt h))

theorem climb_of_dangles {p : NodeId} (hn : m.lookup.node id = some node)
    (h : m.lookup.Dangles id k p) :
    m.lookup.climb id m.lookup.nodeCount node = .error (.unknownNode p) :=
  Lookup.climb_of_dangles hn h (le_size_of_dangles h)

/-- Every chain of a model is of one of the three kinds. -/
theorem chain_kinds (m : Model) (id : NodeId) :
    m.lookup.Endless id ∨ (∃ k p, m.lookup.Dangles id k p) ∨
      ∃ k root, m.lookup.EndsAt id k root := by
  rcases m.lookup.chain_cases id m.lookup.nodeCount with ⟨k, root, _, h⟩ | ⟨k, p, _, h⟩ | h
  · exact Or.inr (Or.inr ⟨k, root, h⟩)
  · exact Or.inr (Or.inl ⟨k, p, h⟩)
  · exact Or.inl (endless_iff_long.mpr h)

/-- **The parent walk is exact.** A node whose chain never ends is answered with a cycle, and no
other node is; a chain that leads out of the model is answered with the id that it leads to; and
where a chain ends, after any number of links that a chain can have, its last node is the root
that decides about the file. -/
theorem parent_walk_exact (m : Model) (focus : Focus) (id : NodeId) (node : Node) (j : Journal)
    (hn : m.lookup.node id = some node) :
    (m.lookup.answer focus (.node id) j = .error (.parentCycle id) ↔ m.lookup.Endless id) ∧
    (m.lookup.Endless id ↔ m.lookup.Revisits id) ∧
    (∀ k p, m.lookup.Dangles id k p →
      m.lookup.answer focus (.node id) j = .error (.unknownNode p)) ∧
    (∀ k root, m.lookup.EndsAt id k root →
      k < m.nodes.size ∧
      m.lookup.climb id m.lookup.nodeCount node = .ok root ∧
      (root.anchor? = none → m.lookup.answer focus (.node id) j =
        .ok ((Fallback.unboundNode id root.kind node.isSynthetic).standIn ⟨j.nextFile⟩)) ∧
      ∀ file, root.anchor? = some file → m.lookup.answer focus (.node id) j =
        (m.lookup.focusedSpan focus node).map fun span => ⟨file, span, false⟩) ∧
    (m.lookup.Endless id ∨ (∃ k p, m.lookup.Dangles id k p) ∨
      ∃ k root, m.lookup.EndsAt id k root) := by
  refine ⟨⟨?_, ?_⟩, endless_iff_revisits, ?_, ?_, m.chain_kinds id⟩
  · intro h
    have hl := Lookup.answer_eq_error_iff.mp h
    have hc := (Lookup.locateNode_eq_parentCycle_iff hn).mp hl
    exact endless_iff_long.mpr ((Lookup.climb_eq_parentCycle_iff hn).mp hc).2
  · intro h
    exact Lookup.answer_eq_error_iff.mpr
      (Lookup.locateNode_of_climb_error hn (climb_of_endless hn h))
  · intro k p h
    exact Lookup.answer_eq_error_iff.mpr
      (Lookup.locateNode_of_climb_error hn (climb_of_dangles hn h))
  · intro k root h
    have hc := climb_of_endsAt hn h
    refine ⟨lt_size_of_endsAt h, hc, ?_, ?_⟩
    · intro ha
      rw [Lookup.answer_eq, Lookup.locate, Lookup.locateNode_of_anchor_none hn hc ha]
      rfl
    · intro file ha
      rw [Lookup.answer_eq, Lookup.locate, Lookup.locateNode_of_anchor hn hc ha]
      cases m.lookup.focusedSpan focus node <;> rfl

/-! ## Chains of any shape -/

/-- A model of nodes without a file, given by the indices of their parents. -/
def ofParents (parents : List (Option Nat)) : Model where
  nodes := ⟨(parents.map fun p =>
    { kind := .modelStatement, span := Span.dummy, parent := p.map Id.mk }).toArray⟩

theorem node_ofParents (parents : List (Option Nat)) (i : Nat) :
    (ofParents parents).lookup.node ⟨i⟩ = parents[i]?.map fun p =>
      { kind := .modelStatement, span := Span.dummy, parent := p.map Id.mk } := by
  simp [ofParents, lookup, Table.get?]

/-- Whatever the number of nodes, a chain can pass all of them. -/
theorem exists_longest_chain (n : Nat) :
    ∃ (m : Model) (id : NodeId) (root : Node), m.nodes.size = n + 1 ∧ m.lookup.EndsAt id n root := by
  let m := ofParents (none :: (List.range n).map some)
  have below : ∀ i, i < n → m.lookup.link ⟨i + 1⟩ = some ⟨i⟩ := by
    intro i hi
    simp [m, Lookup.link, node_ofParents, hi]
  have down : ∀ i, i ≤ n → m.lookup.ancestor? i ⟨i⟩ = some ⟨0⟩ := by
    intro i
    induction i with
    | zero => intro _; rfl
    | succ i ih =>
      intro hi
      rw [Lookup.ancestor?, below i hi]
      exact ih (Nat.le_of_succ_le hi)
  refine ⟨m, ⟨n⟩, _, ?_, ⟨0⟩, down n (Nat.le_refl n), rfl, rfl⟩
  simp [m, ofParents, Table.size]

/-- The walk on three models: from the far end of a chain through every node, into a circle that
does not come back to where it began, and out of the model. -/
theorem parent_walk_exact_samples :
    (ofParents [none, some 0, some 1]).lookup.answer .name (.node ⟨2⟩) {} =
      .ok ⟨⟨⟨0⟩, Fallback.unboundPath, ""⟩, Span.dummy, true⟩ ∧
    (ofParents [some 1, some 2, some 1]).lookup.answer .whole (.node ⟨0⟩) {} =
      .error (.parentCycle ⟨0⟩) ∧
    (ofParents [some 9, some 0, some 1]).lookup.answer .name (.node ⟨2⟩) {} =
      .error (.unknownNode ⟨9⟩) := by
  refine ⟨?_, ?_, ?_⟩
  · exact ((parent_walk_exact (ofParents [none, some 0, some 1]) .name ⟨2⟩ _ {} rfl).2.2.2.1
      2 _ ⟨⟨0⟩, rfl, rfl, rfl⟩).2.2.1 rfl
  · have h := parent_walk_exact (ofParents [some 1, some 2, some 1]) .whole ⟨0⟩ _ {} rfl
    exact h.1.mpr (h.2.1.mpr ⟨1, 3, ⟨1⟩, by decide, rfl, rfl⟩)
  · exact (parent_walk_exact (ofParents [some 9, some 0, some 1]) .name ⟨2⟩ _ {} rfl).2.2.1
      3 ⟨9⟩ ⟨rfl, rfl⟩

end Model

end SourceDiagnostics
