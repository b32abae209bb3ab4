import Mathlib.Data.Fintype.Pigeonhole
import SourceDiagnostics.Resolution.Whereabouts

/-!
Chains of parents, and what a climb along one finds.

`Lookup.ancestor?` follows parent links without a bound. A chain can end at a node without a parent
(`EndsAt`), lead to an id that the model does not have (`Dangles`), or go on for ever (`Endless`).

* `chain_cases`: within any bound a chain ends, dangles or goes on past the bound;
* `climb_eq_ok_iff`, `climb_eq_unknownNode_iff`, `climb_eq_parentCycle_iff`: which of the three it
  is decides the climb with that bound, whatever the model;
* `Model.revisits_of_size_le`: in a model, a chain with as many links as there are nodes comes back
  to a node, hence `endless_iff_revisits`, `endless_iff_long` and `lt_size_of_endsAt`.
-/

namespace SourceDiagnostics

namespace Lookup

variable {m : Lookup} {id p q start : NodeId} {node root : Node} {j k b : Nat}

/-! ## Ancestors -/

/-- Where the parent link of a node leads. -/
def link (m : Lookup) (id : NodeId) : Option NodeId := (m.node id).bind Node.parent

/-- Where `k` parent links lead from `id`, if there are that many. The last of them may lead to an
id that the model does not have. -/
def ancestor? (m : Lookup) : Nat → NodeId → Option NodeId
  | 0, id => some id
  | k + 1, id => (m.link id).bind (m.ancestor? k)

/-- The chain above `id` ends after `k` links, at `root`. -/
def EndsAt (m : Lookup) (id : NodeId) (k : Nat) (root : Node) : Prop :=
  ∃ p, m.ancestor? k id = some p ∧ m.node p = some root ∧ root.parent = none

/-- The chain above `id` ends at the node `top`. -/
def IsTop (m : Lookup) (top id : NodeId) : Prop :=
  ∃ k root, m.ancestor? k id = some top ∧ m.node top = some root ∧ root.parent = none

/-- Link `k` of the chain above `id` leads to `p`, which the model does not have. -/
def Dangles (m : Lookup) (id : NodeId) (k : Nat) (p : NodeId) : Prop :=
  m.ancestor? k id = some p ∧ m.node p = none

/-- Every link of the chain above `id` leads to a node that has a parent in turn. -/
def Endless (m : Lookup) (id : NodeId) : Prop :=
  ∀ k, ∃ p n q, m.ancestor? k id = some p ∧ m.node p = some n ∧ n.parent = some q

/-- The chain above `id` comes back to a node. -/
def Revisits (m : Lookup) (id : NodeId) : Prop :=
  ∃ j k p, j < k ∧ m.ancestor? j id = some p ∧ m.ancestor? k id = some p

theorem link_eq_some_iff : m.link id = some q ↔ ∃ n, m.node id = some n ∧ n.parent = some q := by
  simp [link, Option.bind_eq_some_iff]

theorem ancestor?_one (id : NodeId) : m.ancestor? 1 id = m.link id := by
  cases h : m.link id <;> simp [ancestor?, h]

theorem ancestor?_add (j k : Nat) (id : NodeId) :
    m.ancestor? (j + k) id = (m.ancestor? j id).bind (m.ancestor? k) := by
  induction j generalizing id with
  | zero => simp [ancestor?]
  | succ j ih =>
    rw [Nat.add_right_comm, ancestor?, ancestor?, Option.bind_assoc]
    congr 1
    funext q
    exact ih q

theorem ancestor?_succ (k : Nat) (id : NodeId) :
    m.ancestor? (k + 1) id = (m.ancestor? k id).bind m.link := by
  rw [ancestor?_add]
  congr 1
  funext q
  exact ancestor?_one q

/-- A chain that has `k` links has every smaller number of them. -/
theorem exists_ancestor_of_le (h : m.ancestor? k id = some p) (hj : j ≤ k) :
    ∃ q, m.ancestor? j id = some q := by
  obtain ⟨d, rfl⟩ := Nat.exists_eq_add_of_le hj
  rw [ancestor?_add] at h
  obtain ⟨q, hq, _⟩ := Option.bind_eq_some_iff.mp h
  exact ⟨q, hq⟩

/-- What one more link means: the node is there and has a parent. -/
theorem exists_ancestor_succ_iff :
    (∃ q, m.ancestor? (k + 1) id = some q) ↔
      ∃ p n q, m.ancestor? k id = some p ∧ m.node p = some n ∧ n.parent = some q := by
  simp only [ancestor?_succ, Option.bind_eq_some_iff, link_eq_some_iff]
  constructor
  · rintro ⟨q, p, hp, n, hn, hq⟩
    exact ⟨p, n, q, hp, hn, hq⟩
  · rintro ⟨p, n, q, hp, hn, hq⟩
    exact ⟨q, p, hp, n, hn, hq⟩

theorem endless_iff : m.Endless id ↔ ∀ k, ∃ p, m.ancestor? k id = some p := by
  constructor
  · intro h k
    obtain ⟨p, _, _, hp, _⟩ := h k
    exact ⟨p, hp⟩
  · intro h k
    exact exists_ancestor_succ_iff.mp (h (k + 1))

/-- A chain ends where the chain above its first link does. -/
theorem EndsAt.succ (hn : m.node id = some node) (hp : node.parent = some p)
    (h : m.EndsAt p k root) : m.EndsAt id (k + 1) root := by
  obtain ⟨q, hq, hr⟩ := h
  refine ⟨q, ?_, hr⟩
  rw [ancestor?, link_eq_some_iff.mpr ⟨node, hn, hp⟩]
  exact hq

theorem not_endless_of_endsAt (h : m.EndsAt id k root) : ¬ m.Endless id := by
  obtain ⟨p, hp, hn, hnone⟩ := h
  intro he
  obtain ⟨p', n, q, hp', hn', hq⟩ := he k
  rw [hp] at hp'
  cases hp'
  rw [hn] at hn'
  cases hn'
  rw [hnone] at hq
  cases hq

theorem not_endless_of_dangles (h : m.Dangles id k p) : ¬ m.Endless id := by
  intro he
  obtain ⟨p', n, q, hp', hn, _⟩ := he k
  rw [h.1] at hp'
  cases hp'
  rw [h.2] at hn
  cases hn

/-- Within any bound a chain ends, dangles, or goes on past the bound. -/
theorem chain_cases (m : Lookup) (id : NodeId) (b : Nat) :
    (∃ k root, k ≤ b ∧ m.EndsAt id k root) ∨ (∃ k p, k ≤ b ∧ m.Dangles id k p) ∨
      ∃ q, m.ancestor? (b + 1) id = some q := by
  have last : ∀ b p, m.ancestor? b id = some p →
      (∃ k root, k ≤ b ∧ m.EndsAt id k root) ∨ (∃ k p, k ≤ b ∧ m.Dangles id k p) ∨
        ∃ q, m.ancestor? (b + 1) id = some q := by
    intro b p hp
    cases hn : m.node p with
    | none => exact Or.inr (Or.inl ⟨b, p, Nat.le_refl b, hp, hn⟩)
    | some n =>
      cases hq : n.parent with
      | none => exact Or.inl ⟨b, n, Nat.le_refl b, p, hp, hn, hq⟩
      | some q => exact Or.inr (Or.inr (exists_ancestor_succ_iff.mpr ⟨p, n, q, hp, hn, hq⟩))
  induction b with
  | zero => exact last 0 id rfl
  | succ b ih =>
    rcases ih with ⟨k, root, hk, h⟩ | ⟨k, p, hk, h⟩ | ⟨p, hp⟩
    · exact Or.inl ⟨k, root, Nat.le_succ_of_le hk, h⟩
    · exact Or.inr (Or.inl ⟨k, p, Nat.le_succ_of_le hk, h⟩)
    · exact last (b + 1) p hp

/-! ## Climbing -/

section Via

variable {μ : Type → Type} [Monad μ] {find : NodeId → μ (Option Node)}

theorem climbVia_of_parent_none (h : node.parent = none) :
    climbVia find start b node = pure (.ok node) := by
  unfold climbVia
  simp only [h]

theorem climbVia_zero (h : node.parent = some p) :
    climbVia find start 0 node = pure (.error (.parentCycle start)) := by
  unfold climbVia
  simp only [h]

theorem climbVia_succ (h : node.parent = some p) :
    climbVia find start (b + 1) node = find p >>= fun
      | none => pure (.error (.unknownNode p))
      | some next => climbVia find start b next := by
  obtain ⟨kind, span, flags, parent, identifier, file⟩ := node
  obtain rfl : parent = some p := h
  rfl

end Via

theorem climb_of_parent_none (h : node.parent = none) : m.climb start b node = .ok node := by
  rw [climb, climbVia_of_parent_none h]
  rfl

theorem climb_zero (h : node.parent = some p) :
    m.climb start 0 node = .error (.parentCycle start) := by
  rw [climb, climbVia_zero h]
  rfl

theorem climb_of_missing (h : node.parent = some p) (hp : m.node p = none) :
    m.climb start (b + 1) node = .error (.unknownNode p) := by
  rw [climb, climbVia_succ h, hp]
  rfl

theorem climb_succ {next : Node} (h : node.parent = some p) (hp : m.node p = some next) :
    m.climb start (b + 1) node = m.climb start b next := by
  rw [climb, climbVia_succ h, hp]
  rfl

/-- The first link of a longer chain, and the chain above it. -/
theorem exists_parent_of_ancestor (hn : m.node id = some node)
    (h : m.ancestor? (k + 1) id = some p) :
    ∃ q, node.parent = some q ∧ m.ancestor? k q = some p := by
  obtain ⟨q, hq, hp⟩ := Option.bind_eq_some_iff.mp h
  obtain ⟨n, hn', hq⟩ := link_eq_some_iff.mp hq
  rw [hn] at hn'
  cases hn'
  exact ⟨q, hq, hp⟩

/-- Only an existing node has a link above it. -/
theorem exists_node_of_ancestor (h : m.ancestor? (k + 1) id = some p) :
    ∃ n, m.node id = some n := by
  obtain ⟨q, hq, _⟩ := Option.bind_eq_some_iff.mp h
  obtain ⟨n, hn, _⟩ := link_eq_some_iff.mp hq
  exact ⟨n, hn⟩

theorem climb_of_endsAt (hn : m.node id = some node) (h : m.EndsAt id k root) (hk : k ≤ b) :
    m.climb start b node = .ok root := by
  induction k generalizing id node b with
  | zero =>
    obtain ⟨p, hp, hr, hnone⟩ := h
    cases hp
    rw [hn] at hr
    cases hr
    exact climb_of_parent_none hnone
  | succ k ih =>
    obtain ⟨p, hp, hr, hnone⟩ := h
    obtain ⟨q, hq, hp⟩ := exists_parent_of_ancestor hn hp
    obtain ⟨next, hnext⟩ : ∃ next, m.node q = some next := by
      cases k with
      | zero => cases hp; exact ⟨root, hr⟩
      | succ k => exact exists_node_of_ancestor hp
    obtain ⟨b, rfl⟩ := Nat.exists_eq_add_of_le' (Nat.le_trans (Nat.succ_pos k) hk)
    rw [climb_succ hq hnext]
    exact ih hnext ⟨p, hp, hr, hnone⟩ (by omega)

theorem climb_of_dangles (hn : m.node id = some node) (h : m.Dangles id k p) (hk : k ≤ b) :
    m.climb start b node = .error (.unknownNode p) := by
  induction k generalizing id node b with
  | zero =>
    obtain ⟨hp, hnone⟩ := h
    cases hp
    rw [hn] at hnone
    cases hnone
  | succ k ih =>
    obtain ⟨hp, hnone⟩ := h
    obtain ⟨q, hq, hp⟩ := exists_parent_of_ancestor hn hp
    obtain ⟨b, rfl⟩ := Nat.exists_eq_add_of_le' (Nat.le_trans (Nat.succ_pos k) hk)
    cases hnext : m.node q with
    | none =>
      -- Nothing is above a missing node, so it is the one that the chain leads to.
      cases k with
      | zero => cases hp; exact climb_of_missing hq hnone
      | succ k =>
        obtain ⟨n, hn'⟩ := exists_node_of_ancestor hp
        rw [hnext] at hn'
        cases hn'
    | some next =>
      rw [climb_succ hq hnext]
      exact ih hnext ⟨hp, hnone⟩ (by omega)

theorem climb_of_long (hn : m.node id = some node) (h : m.ancestor? (b + 1) id = some p) :
    m.climb start b node = .error (.parentCycle start) := by
  induction b generalizing id node with
  | zero =>
    obtain ⟨q, hq, _⟩ := exists_parent_of_ancestor hn h
    exact climb_zero hq
  | succ b ih =>
    obtain ⟨q, hq, hp⟩ := exists_parent_of_ancestor hn h
    obtain ⟨next, hnext⟩ := exists_node_of_ancestor hp
    rw [climb_succ hq hnext]
    exact ih hnext hp

theorem climb_eq_ok_iff (hn : m.node id = some node) :
    m.climb start b node = .ok root ↔ ∃ k ≤ b, m.EndsAt id k root := by
  constructor
  · intro h
    rcases chain_cases m id b with ⟨k, root', hk, he⟩ | ⟨k, p, hk, hd⟩ | ⟨q, hq⟩
    · rw [climb_of_endsAt hn he hk] at h
      cases h
      exact ⟨k, hk, he⟩
    · rw [climb_of_dangles hn hd hk] at h
      cases h
    · rw [climb_of_long hn hq] at h
      cases h
  · rintro ⟨k, hk, he⟩
    exact climb_of_endsAt hn he hk

/-- A chain ends at one node only. -/
theorem EndsAt.unique {root' : Node} (hn : m.node id = some node) (h : m.EndsAt id k root)
    (h' : m.EndsAt id j root') : root = root' := by
  have hroot : m.climb id (max k j) node = .ok root := climb_of_endsAt hn h (Nat.le_max_left k j)
  have hroot' : m.climb id (max k j) node = .ok root' :=
    climb_of_endsAt hn h' (Nat.le_max_right k j)
  exact Except.ok.inj (hroot.symm.trans hroot')

theorem climb_eq_unknownNode_iff (hn : m.node id = some node) :
    m.climb start b node = .error (.unknownNode p) ↔ ∃ k ≤ b, m.Dangles id k p := by
  constructor
  · intro h
    rcases chain_cases m id b with ⟨k, root, hk, he⟩ | ⟨k, p', hk, hd⟩ | ⟨q, hq⟩
    · rw [climb_of_endsAt hn he hk] at h
      cases h
    · rw [climb_of_dangles hn hd hk] at h
      cases h
      exact ⟨k, hk, hd⟩
    · rw [climb_of_long hn hq] at h
      cases h
  · rintro ⟨k, hk, hd⟩
    exact climb_of_dangles hn hd hk

theorem climb_eq_parentCycle_iff (hn : m.node id = some node) :
    m.climb start b node = .error (.parentCycle q) ↔
      q = start ∧ ∃ p, m.ancestor? (b + 1) id = some p := by
  constructor
  · intro h
    rcases chain_cases m id b with ⟨k, root, hk, he⟩ | ⟨k, p, hk, hd⟩ | ⟨p, hp⟩
    · rw [climb_of_endsAt hn he hk] at h
      cases h
    · rw [climb_of_dangles hn hd hk] at h
      cases h
    · rw [climb_of_long hn hp] at h
      cases h
      exact ⟨rfl, p, hp⟩
  · rintro ⟨rfl, p, hp⟩
    exact climb_of_long hn hp

/-! ## Coming back -/

/-- A way back can be walked any number of times. -/
theorem ancestor?_mul_of_loop (h : m.ancestor? k p = some p) (n : Nat) :
    m.ancestor? (n * k) p = some p := by
  induction n with
  | zero => simp [ancestor?]
  | succ n ih => rw [Nat.succ_mul, ancestor?_add, ih, Option.bind_some, h]

theorem endless_of_revisits (h : m.Revisits id) : m.Endless id := by
  obtain ⟨j, k, p, hjk, hj, hk⟩ := h
  obtain ⟨d, rfl⟩ := Nat.exists_eq_add_of_lt hjk
  have loop : m.ancestor? (d + 1) p = some p := by
    rw [Nat.add_assoc, ancestor?_add, hj, Option.bind_some] at hk
    exact hk
  refine endless_iff.mpr fun n => ?_
  have far : m.ancestor? (j + n * (d + 1)) id = some p := by
    rw [ancestor?_add, hj, Option.bind_some, ancestor?_mul_of_loop loop]
  refine exists_ancestor_of_le far ?_
  have : n * 1 ≤ n * (d + 1) := Nat.mul_le_mul_left n (Nat.succ_pos d)
  omega

end Lookup

namespace Model

variable {m : Model} {id : NodeId} {k : Nat}

theorem index_lt_of_node {n : Node} (h : m.lookup.node id = some n) : id.index < m.nodes.size := by
  obtain ⟨hlt, _⟩ := Array.getElem?_eq_some_iff.mp h
  exact hlt

theorem exists_node_of_index_lt (h : id.index < m.nodes.size) :
    ∃ n, m.lookup.node id = some n := ⟨_, Array.getElem?_eq_getElem h⟩

/-- A node after at least as many links as there are nodes: by the pigeonhole principle two of the
nodes on the way are the same. -/
theorem revisits_of_size_le {p : NodeId} {n : Node} (hp : m.lookup.ancestor? k id = some p)
    (hn : m.lookup.node p = some n) (hk : m.nodes.size ≤ k) : m.lookup.Revisits id := by
  have inside : ∀ i : Fin (m.nodes.size + 1),
      ∃ q : Fin m.nodes.size, m.lookup.ancestor? i id = some ⟨q⟩ := by
    intro i
    rcases Nat.lt_or_eq_of_le (Nat.le_trans (Nat.le_of_lt_succ i.isLt) hk) with hi | hi
    · obtain ⟨q, n, _, hq, hn, _⟩ :=
        Lookup.exists_ancestor_succ_iff.mp (Lookup.exists_ancestor_of_le hp hi)
      exact ⟨⟨q.index, index_lt_of_node hn⟩, hq⟩
    · rw [hi]
      exact ⟨⟨p.index, index_lt_of_node hn⟩, hp⟩
  choose f hf using inside
  obtain ⟨i, j, hij, hfij⟩ := Fintype.exists_ne_map_eq_of_card_lt f (by simp)
  rcases Nat.lt_or_gt_of_ne (Fin.val_ne_of_ne hij) with h | h
  · exact ⟨i, j, ⟨f i⟩, h, hf i, hfij ▸ hf j⟩
  · exact ⟨j, i, ⟨f j⟩, h, hf j, hfij ▸ hf i⟩

theorem endless_iff_revisits : m.lookup.Endless id ↔ m.lookup.Revisits id := by
  constructor
  · intro h
    obtain ⟨p, n, _, hp, hn, _⟩ := h m.nodes.size
    exact revisits_of_size_le hp hn (Nat.le_refl _)
  · exact Lookup.endless_of_revisits

/-- One link more than there are nodes tells that a chain is endless. -/
theorem endless_iff_long :
    m.lookup.Endless id ↔ ∃ p, m.lookup.ancestor? (m.lookup.nodeCount + 1) id = some p := by
  constructor
  · exact fun h => Lookup.endless_iff.mp h _
  · intro h
    obtain ⟨p, n, _, hp, hn, _⟩ := Lookup.exists_ancestor_succ_iff.mp h
    exact Lookup.endless_of_revisits (revisits_of_size_le hp hn (Nat.le_refl _))

/-- A chain that ends passes every node at most once. -/
theorem lt_size_of_endsAt {root : Node} (h : m.lookup.EndsAt id k root) : k < m.nodes.size := by
  by_contra hk
  have ⟨_, hp, hn, _⟩ := h
  have he := Lookup.endless_of_revisits (revisits_of_size_le hp hn (Nat.le_of_not_lt hk))
  exact Lookup.not_endless_of_endsAt h he

/-- So does a chain that dangles, before its last link. -/
theorem le_size_of_dangles {p : NodeId} (h : m.lookup.Dangles id k p) : k ≤ m.nodes.size := by
  by_contra hk
  obtain ⟨q, n, _, hq, hn, _⟩ := Lookup.exists_ancestor_succ_iff.mp
    (Lookup.exists_ancestor_of_le h.1 (Nat.lt_of_not_le hk))
  have he := Lookup.endless_of_revisits (revisits_of_size_le hq hn (Nat.le_refl _))
  exact Lookup.not_endless_of_dangles h he

end Model

end SourceDiagnostics
