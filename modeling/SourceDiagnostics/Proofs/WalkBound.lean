import SourceDiagnostics.Proofs.NodeResolution

/-!
The walk to the root of a node under any bound, in any lookup.

A lookup may report any bound for its chains, and its nodes may form chains of any kind. To count
the parents that are looked up, the climb is run so that it notes every one of them
(`Lookup.noting`).

* `run_locateNodeVia`: it answers the same, and notes the ancestors in order, no more than the
  bound;
* `locateNode_eq_parentCycle_iff_long`: it finds a cycle where the chain is longer than the bound;
* `locateNode_allowing`: where it finds none, no larger bound makes a difference;
* `walk_bounded`: all of it for what the resolver answers.
-/

namespace SourceDiagnostics

namespace Lookup

variable {m n : Lookup} {focus : Focus} {id p q start : NodeId} {node root : Node} {b c k : Nat}
  {log : List NodeId}

/-! ## Parents looked up one by one -/

/-- Look up a node and write down its id. -/
def noting (m : Lookup) (id : NodeId) : StateM (List NodeId) (Option Node) := do
  modify (· ++ [id])
  return m.node id

theorem run_noting (m : Lookup) (id : NodeId) (log : List NodeId) :
    (m.noting id).run log = (m.node id, log ++ [id]) := rfl

theorem run_climbVia_of_missing (h : node.parent = some p) (hp : m.node p = none) :
    (climbVia m.noting start (b + 1) node).run log =
      (.error (.unknownNode p), log ++ [p]) := by
  rw [climbVia_succ h, StateT.run_bind, run_noting, hp]
  rfl

theorem run_climbVia_succ {next : Node} (h : node.parent = some p) (hp : m.node p = some next) :
    (climbVia m.noting start (b + 1) node).run log =
      (climbVia m.noting start b next).run (log ++ [p]) := by
  rw [climbVia_succ h, StateT.run_bind, run_noting, hp]
  rfl

/-- Ids noted one by one after a link are ancestors one link further. -/
theorem ancestor?_of_seen_cons {seen : List NodeId} (hlink : m.link id = some p)
    (h : ∀ i q, seen[i]? = some q → m.ancestor? (i + 1) p = some q) {i : Nat}
    (hq : (p :: seen)[i]? = some q) : m.ancestor? (i + 1) id = some q := by
  cases i with
  | zero =>
    rw [ancestor?_one, hlink]
    exact hq
  | succ i =>
    rw [ancestor?, hlink]
    exact h i q hq

/-- A climb notes the ancestors on its way, in order and at most as many as its bound. -/
theorem run_climbVia (start : NodeId) (b : Nat) (log : List NodeId) (hn : m.node id = some node) :
    ∃ seen, (climbVia m.noting start b node).run log = (m.climb start b node, log ++ seen) ∧
      seen.length ≤ b ∧ ∀ i q, seen[i]? = some q → m.ancestor? (i + 1) id = some q := by
  induction b generalizing id node log with
  | zero =>
    refine ⟨[], ?_, Nat.le_refl 0, by simp⟩
    rw [List.append_nil]
    cases hparent : node.parent with
    | none =>
      rw [climbVia_of_parent_none hparent, climb_of_parent_none hparent]
      rfl
    | some p =>
      rw [climbVia_zero hparent, climb_zero hparent]
      rfl
  | succ b ih =>
    cases hparent : node.parent with
    | none =>
      refine ⟨[], ?_, Nat.zero_le _, by simp⟩
      rw [List.append_nil, climbVia_of_parent_none hparent, climb_of_parent_none hparent]
      rfl
    | some p =>
      have hlink : m.link id = some p := link_eq_some_iff.mpr ⟨node, hn, hparent⟩
      cases hp : m.node p with
      | none =>
        refine ⟨[p], ?_, Nat.succ_le_succ (Nat.zero_le b), fun i q hq => ?_⟩
        · rw [run_climbVia_of_missing hparent hp, climb_of_missing hparent hp]
        · exact ancestor?_of_seen_cons hlink (by simp) hq
      | some next =>
        obtain ⟨seen, hrun, hlength, hseen⟩ := ih (log ++ [p]) hp
        refine ⟨p :: seen, ?_, Nat.succ_le_succ hlength, fun i q hq => ?_⟩
        · rw [run_climbVia_succ hparent hp, climb_succ hparent hp, hrun, List.append_assoc]
          rfl
        · exact ancestor?_of_seen_cons hlink hseen hq

/-- Resolution notes no other parents than its climb. -/
theorem run_locateNodeVia (focus : Focus) (hn : m.node id = some node) : ∃ seen,
    (locateNodeVia m.noting m focus id).run [] = (m.locateNode focus id, seen) ∧
      seen.length ≤ m.nodeCount ∧ ∀ i q, seen[i]? = some q → m.ancestor? (i + 1) id = some q := by
  obtain ⟨seen, hrun, hlength, hseen⟩ := run_climbVia id m.nodeCount [] hn
  refine ⟨seen, ?_, hlength, hseen⟩
  rw [locateNodeVia, hn, locateNode_of_node hn]
  simp only [StateT.run_bind, hrun, List.nil_append]
  cases m.climb id m.nodeCount node with
  | error e => rfl
  | ok root => cases ha : root.anchor? <;> simp only [bind, Except.bind, ha] <;> rfl

/-! ## Chains longer than the bound -/

/-- A chain with a link past the bound leads to nodes all along. -/
theorem exists_nodes_of_long (h : ∃ q, m.ancestor? (k + 1) id = some q) {i : Nat} (hi : i ≤ k) :
    ∃ p n, m.ancestor? i id = some p ∧ m.node p = some n := by
  obtain ⟨q, hq⟩ := h
  obtain ⟨p, n, _, hp, hn, _⟩ :=
    exists_ancestor_succ_iff.mp (exists_ancestor_of_le hq (Nat.succ_le_succ hi))
  exact ⟨p, n, hp, hn⟩

/-- There is a cycle for the resolver where all links up to the bound lead to nodes and the last of
these has a parent still. -/
theorem locateNode_eq_parentCycle_iff_long (hn : m.node id = some node) :
    m.locateNode focus id = .error (.parentCycle id) ↔
      (∀ i ≤ m.nodeCount, ∃ p n, m.ancestor? i id = some p ∧ m.node p = some n) ∧
        ∃ p n q, m.ancestor? m.nodeCount id = some p ∧ m.node p = some n ∧ n.parent = some q := by
  rw [locateNode_eq_parentCycle_iff hn, climb_eq_parentCycle_iff hn]
  constructor
  · rintro ⟨_, hlong⟩
    exact ⟨fun i hi => exists_nodes_of_long hlong hi, exists_ancestor_succ_iff.mp hlong⟩
  · rintro ⟨_, hlast⟩
    exact ⟨rfl, exists_ancestor_succ_iff.mpr hlast⟩

/-! ## Larger bounds -/

/-- The same lookup with another bound. -/
def allowing (m : Lookup) (bound : Nat) : Lookup := { m with nodeCount := bound }

theorem climb_allowing (m : Lookup) (bound : Nat) (start : NodeId) (b : Nat) (node : Node) :
    (m.allowing bound).climb start b node = m.climb start b node := rfl

/-- A climb that comes to an end within its bound is not changed by a larger one. -/
theorem climb_eq_of_le (hn : m.node id = some node) (hb : b ≤ c)
    (h : m.climb start b node ≠ .error (.parentCycle start)) :
    m.climb start c node = m.climb start b node := by
  rcases m.chain_cases id b with ⟨k, root, hk, he⟩ | ⟨k, p, hk, hd⟩ | ⟨q, hq⟩
  · rw [climb_of_endsAt hn he hk, climb_of_endsAt hn he (Nat.le_trans hk hb)]
  · rw [climb_of_dangles hn hd hk, climb_of_dangles hn hd (Nat.le_trans hk hb)]
  · exact absurd (climb_of_long hn hq) h

theorem locateNode_allowing (hn : m.node id = some node) (hb : m.nodeCount ≤ c)
    (h : m.locateNode focus id ≠ .error (.parentCycle id)) :
    (m.allowing c).locateNode focus id = m.locateNode focus id := by
  have hclimb : (m.allowing c).climb id c node = m.climb id m.nodeCount node := by
    rw [climb_allowing]
    exact climb_eq_of_le hn hb fun hcycle => h (locateNode_of_climb_error hn hcycle)
  have hn' : (m.allowing c).node id = some node := hn
  -- What is made of the root depends on the nodes alone.
  rw [locateNode_of_node hn, locateNode_of_node hn']
  exact congrArg (· >>= _) hclimb

/-- **The walk keeps to any bound, and needs no more of it than its chain is long.** For an existing
node in any lookup, resolution looks up no more parents than the bound, which are the ancestors of
the node in order. It answers with a cycle exactly if the links up to the bound lead to nodes and
there is one more. And whatever else it answers, it answers under every larger bound as well. -/
theorem walk_bounded (m : Lookup) (focus : Focus) (id : NodeId) (node : Node) (j : Journal)
    (hn : m.node id = some node) :
    (∃ seen, (locateNodeVia m.noting m focus id).run [] = (m.locateNode focus id, seen) ∧
      seen.length ≤ m.nodeCount ∧ ∀ i q, seen[i]? = some q → m.ancestor? (i + 1) id = some q) ∧
    (m.answer focus (.node id) j = .error (.parentCycle id) ↔
      (∀ i ≤ m.nodeCount, ∃ p n, m.ancestor? i id = some p ∧ m.node p = some n) ∧
        ∃ p n q, m.ancestor? m.nodeCount id = some p ∧ m.node p = some n ∧ n.parent = some q) ∧
    ∀ bound i, m.nodeCount ≤ bound → m.answer focus (.node id) j ≠ .error (.parentCycle id) →
      Alike j i (m.answer focus (.node id) j) ((m.allowing bound).answer focus (.node id) i) := by
  refine ⟨run_locateNodeVia focus hn, ?_, ?_⟩
  · rw [answer_eq_error_iff]
    exact locateNode_eq_parentCycle_iff_long hn
  · intro bound i hb h
    rw [ne_eq, answer_eq_error_iff] at h
    exact alike_of_locate (locateNode_allowing hn hb h)

/-- Above each node stands the next one, without an end: under any bound all the allowed parents are
looked up. A chain of two links is answered in the same way under its own bound and a larger one,
and with a cycle under a smaller one. -/
theorem walk_bounded_samples :
    let stairs : Lookup := {
      node := fun id => some
        { kind := .modelStatement, span := Span.dummy, parent := some ⟨id.index + 1⟩ }
      symbol := fun _ => none
      type := fun _ => none
      nodeCount := 3 }
    let chain : Lookup := (Model.ofParents [none, some 0, some 1]).lookup
    (stairs.answer .whole (.node ⟨0⟩) {} = .error (.parentCycle ⟨0⟩) ∧
      ∃ seen, (locateNodeVia stairs.noting stairs .whole ⟨0⟩).run [] =
        (.error (.parentCycle ⟨0⟩), seen) ∧ seen.length ≤ 3) ∧
    Alike {} {} ((chain.allowing 2).answer .name (.node ⟨2⟩) {})
      ((chain.allowing 7).answer .name (.node ⟨2⟩) {}) ∧
    (chain.allowing 1).answer .name (.node ⟨2⟩) {} = .error (.parentCycle ⟨2⟩) := by
  intro stairs chain
  have hstairs := walk_bounded stairs .whole ⟨0⟩ _ {} rfl
  have hwithin : (chain.allowing 2).answer .name (.node ⟨2⟩) {} ≠ .error (.parentCycle ⟨2⟩) := by
    intro h
    cases h
  refine ⟨⟨?_, ?_⟩, ?_, ?_⟩
  · exact hstairs.2.1.mpr
      ⟨fun _ => exists_nodes_of_long ⟨⟨4⟩, rfl⟩, ⟨3⟩, _, _, rfl, rfl, rfl⟩
  · obtain ⟨seen, hrun, hlength, _⟩ := hstairs.1
    exact ⟨seen, hrun, hlength⟩
  · exact (walk_bounded (chain.allowing 2) .name ⟨2⟩ _ {} rfl).2.2 7 {} (by decide) hwithin
  · exact (walk_bounded (chain.allowing 1) .name ⟨2⟩ _ {} rfl).2.1.mpr
      ⟨fun _ => exists_nodes_of_long ⟨⟨0⟩, rfl⟩, ⟨1⟩, _, _, rfl, rfl, rfl⟩

end Lookup

end SourceDiagnostics
