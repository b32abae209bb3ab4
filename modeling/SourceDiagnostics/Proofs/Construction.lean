import Mathlib.Data.List.Basic
import SourceDiagnostics.Proofs.CheckedRun
import SourceDiagnostics.Proofs.NodeResolution

/-!
Tables of nodes that are built from nothing, each node under a parent that is already there.

`NodeTable.build` makes a list of edits and `history` lists, from the edits alone, how each node came
to be: node `i` of the table is entry `i` of the history.

* `NodeEdit.run_perform_root`, `NodeEdit.run_perform_named`: what the single steps of an edit come
  to, and `NodeEdit.eq_of_refused`: nothing, if the edit is refused;
* `entries_build`: the nodes of the table are those of the history, field by field;
* `NodeTable.Grounded`: links stay inside the table and parents come before their children, which
  every orderly edit preserves (`Grounded.after`) and so every orderly build has (`grounded_build`);
* `NodeTable.build_resolves`: every node of such a table is located by how it and the last node
  above it were made.
-/

namespace SourceDiagnostics

/-! ## How nodes are made -/

/-- Nodes made on their own: of a kind and a span, then given flags and a parent. -/
inductive Node.Plain : Node → Prop
  | new (kind : NodeKind) (span : Span) : Plain { kind, span }
  | withFlags {node : Node} (flags : NodeFlags) : Plain node → Plain (node.withFlags flags)
  | withParent {node : Node} (parent : NodeId) : Plain node → Plain (node.withParent parent)

theorem Node.Plain.links {node : Node} (h : node.Plain) :
    node.identifier = none ∧ node.file = none := by
  induction h with
  | new kind span => exact ⟨rfl, rfl⟩
  | withFlags flags _ ih => exact ih
  | withParent parent _ ih => exact ih

/-- How a node came to be. -/
inductive Making where
  | alone (node : Node)
  | root (kind : NodeKind) (file : SourceFile)
  | child (parent : NodeId) (kind : NodeKind) (span : Span)
  /-- A declaration, whose name is the node after it. -/
  | declaration (parent : NodeId) (kind : NodeKind) (span nameSpan : Span)
  /-- The name of the node before it. -/
  | name (span : Span)

namespace Making

/-- The node that is made at index `i`. -/
def node (i : Nat) : Making → Node
  | .alone node => node
  | .root kind file => { kind, span := ⟨0, file.len⟩, file := some file }
  | .child parent kind span => { kind, span, parent := some parent }
  | .declaration parent kind span _ =>
    { kind, span, parent := some parent, identifier := some ⟨i + 1⟩ }
  | .name span => { kind := .identifier, span, parent := some ⟨i - 1⟩ }

/-- The span that was given for the part of the node in focus. -/
def span (focus : Focus) : Making → Span
  | .alone node => node.span
  | .root _ file => ⟨0, file.len⟩
  | .child _ _ span => span
  | .declaration _ _ span nameSpan =>
    match focus with
    | .whole => span
    | .name => nameSpan
  | .name span => span

/-- What holds of every node that an orderly edit makes. -/
def Sound : Making → Prop
  | .alone node => node.Plain
  | .root kind _ => kind.isSourceRoot = true
  | _ => True

theorem anchor?_root {kind : NodeKind} {file : SourceFile} (h : (root kind file).Sound) (i : Nat) :
    ((root kind file).node i).anchor? = some file := if_pos h

/-- Only roots are made with a file. -/
theorem anchor?_eq_none {mk : Making} (h : mk.Sound) (hr : ∀ kind file, mk ≠ .root kind file)
    (i : Nat) : (mk.node i).anchor? = none := by
  have hfile : (mk.node i).file = none := by
    cases mk with
    | alone node => exact (Node.Plain.links h).2
    | root kind file => exact absurd rfl (hr kind file)
    | child parent kind span => rfl
    | declaration parent kind span nameSpan => rfl
    | name span => rfl
  simp [Node.anchor?, hfile]

end Making

/-- The nodes that an edit makes, in the order of their ids. A refused edit makes none. -/
def NodeEdit.makings : NodeEdit → List Making
  | .add node => [.alone node]
  | .root kind file => if kind.isSourceRoot then [.root kind file] else []
  | .child parent kind span => [.child parent kind span]
  | .named parent kind span nameSpan => [.declaration parent kind span nameSpan, .name nameSpan]
  | .patch _ _ => []

/-- How the nodes came to be that a list of edits makes, in the order of their ids. -/
def history (edits : List NodeEdit) : List Making := edits.flatMap NodeEdit.makings

namespace NodeTable

variable {t : NodeTable} {e : NodeEdit} {edits : List NodeEdit}

/-- The table after an edit. A refused edit leaves it as it was. -/
def after (t : NodeTable) (e : NodeEdit) : NodeTable :=
  match t.apply e with
  | .ok (t, _) => t
  | .error _ => t

/-- The table that a list of edits makes of an empty one. -/
def build (edits : List NodeEdit) : NodeTable := edits.foldl after {}

end NodeTable

/-- The edit adds entries and changes none that is there. -/
def NodeEdit.Adds : NodeEdit → Prop
  | .patch _ _ => False
  | _ => True

/-- An edit that makes nodes under a parent in the table, if under any. -/
def NodeEdit.Orderly (t : NodeTable) : NodeEdit → Prop
  | .add node => node.Plain ∧ ∀ p, node.parent = some p → p.index < t.size
  | .root _ _ => True
  | .child parent _ _ => parent.index < t.size
  | .named parent _ _ _ => parent.index < t.size
  | .patch _ _ => False

theorem NodeEdit.adds_or_patch (e : NodeEdit) : e.Adds ∨ ∃ id change, e = .patch id change := by
  cases e with
  | patch id change => exact Or.inr ⟨id, change, rfl⟩
  | _ => exact Or.inl trivial

theorem NodeEdit.Orderly.adds {t : NodeTable} {e : NodeEdit} (h : e.Orderly t) : e.Adds := by
  cases e with
  | patch id patch => exact h
  | _ => trivial

/-- Edits each of which is orderly when its turn comes. -/
def Orderly (t : NodeTable) : List NodeEdit → Prop
  | [] => True
  | e :: edits => e.Orderly t ∧ Orderly (t.after e) edits

/-! ## The table and its history -/

/-- A change of the entry that comes before the last one. -/
theorem Table.modify_push_push {k : Entity} {α : Type} (t : Table k α) (a b : α) (f : α → α) :
    ((t.push a).push b).modify t.nextId f = (t.push (f a)).push b := by
  have h : (t.entries.toList ++ [a, b]).modify t.entries.toList.length f =
      t.entries.toList ++ [f a, b] := List.modifyTailIdx_add (List.modifyHead f) 0 _ _
  refine congrArg Table.mk (Array.toList_inj.mp ?_)
  simpa [push, nextId, size] using h

theorem InPlace.run_alloc (t : NodeTable) (node : Node) :
    (alloc node).run.run t = (.ok t.nextId, t.push node) := rfl

theorem InPlace.run_update {t : NodeTable} {id : NodeId} (h : id.index < t.size)
    (f : Node → Node) : (update id f).run.run t = (.ok (), t.modify id f) := by
  change ((if id.index < t.size then set (t.modify id f)
    else throw (.outOfRange t.size id.index) : InPlace Unit)).run.run t = _
  rw [if_pos h]
  rfl

namespace NodeEdit

variable {t : NodeTable} {kind : NodeKind} {file : SourceFile} {parent : NodeId}
  {span nameSpan : Span}

theorem run_perform_child : (child parent kind span).perform.run.run t =
    (.ok t.nextId, t.push ((Making.child parent kind span).node t.size)) := rfl

theorem run_perform_root (h : kind.isSourceRoot = true) : (root kind file).perform.run.run t =
    (.ok t.nextId, t.push ((Making.root kind file).node t.size)) := by
  -- A file begins at the first of all offsets, so its span is in order.
  have hspan : Span.new 0 file.len = .ok ⟨0, file.len⟩ := if_pos UInt32.zero_le
  simp only [perform, h, hspan]
  rfl

theorem run_perform_root_of_not (h : kind.isSourceRoot = false) :
    (root kind file).perform.run.run t = (.error .notSourceRoot, t) := by
  simp only [perform, h]
  rfl

theorem run_perform_named : (named parent kind span nameSpan).perform.run.run t =
    (.ok t.nextId, (t.push ((Making.declaration parent kind span nameSpan).node t.size)).push
      ((Making.name nameSpan).node (t.size + 1))) := by
  -- The declaration is found again when it gets its name, for it has just been put in the table.
  have hin : t.nextId.index < ((t.push (NodeTable.child parent kind span)).push
      (NodeTable.child t.nextId .identifier nameSpan)).size := by
    rw [Table.size_push, Table.size_push]
    exact Nat.lt_succ_of_lt (Nat.lt_succ_self t.size)
  refine (run_bind_of_ok (InPlace.run_alloc t _)).trans ?_
  refine (run_bind_of_ok (InPlace.run_alloc _ _)).trans ?_
  refine (run_bind_of_ok (InPlace.run_update hin _)).trans ?_
  rw [Table.modify_push_push, NodeTable.child_eq, NodeTable.child_eq, Table.nextId, Table.nextId,
    Table.size_push]
  rfl

/-- A change that is refused has done nothing. -/
theorem eq_of_refused {e : NodeEdit} {fault : Fault} {u : NodeTable}
    (h : e.perform.run.run t = (.error fault, u)) : u = t := by
  cases e with
  | root kind file =>
    cases hk : kind.isSourceRoot with
    | false =>
      rw [run_perform_root_of_not hk] at h
      cases h
      rfl
    | true =>
      rw [run_perform_root hk] at h
      cases h
  | named parent kind span nameSpan =>
    rw [run_perform_named] at h
    cases h
  | add _ | child _ _ _ | patch _ _ => cases h

end NodeEdit

namespace NodeTable

variable {t u : NodeTable} {e : NodeEdit} {edits : List NodeEdit} {id : NodeId}

theorem after_of_run (h : e.perform.run.run t = (.ok id, u)) : t.after e = u := by
  rw [after, apply, h]

theorem after_of_refused {fault : Fault} (h : e.perform.run.run t = (.error fault, u)) :
    t.after e = t := by
  rw [after, apply, h]

theorem entries_after (h : e.Adds) :
    (t.after e).entries.toList =
      t.entries.toList ++ e.makings.mapIdx fun i mk => mk.node (t.size + i) := by
  cases e with
  | add node =>
    have hafter : t.after (.add node) = t.push node := after_of_run rfl
    simp [hafter, NodeEdit.makings, Table.push, Making.node]
  | root kind file =>
    cases hk : kind.isSourceRoot with
    | false => simp [after_of_refused (NodeEdit.run_perform_root_of_not hk), NodeEdit.makings, hk]
    | true => simp [after_of_run (NodeEdit.run_perform_root hk), NodeEdit.makings, hk, Table.push]
  | child parent kind span =>
    simp [after_of_run NodeEdit.run_perform_child, NodeEdit.makings, Table.push]
  | named parent kind span nameSpan =>
    simp [after_of_run NodeEdit.run_perform_named, NodeEdit.makings, Table.push]
  | patch id patch => exact False.elim h

theorem size_after (t : NodeTable) (e : NodeEdit) :
    (t.after e).size = t.size + e.makings.length := by
  rcases e.adds_or_patch with h | ⟨id, change, rfl⟩
  · simpa [Table.size] using congrArg List.length (entries_after (t := t) h)
  · exact Table.size_modify t id change.apply

theorem get?_after (h : e.Adds) (id : NodeId) :
    (t.after e).get? id =
      if id.index < t.size then t.get? id
      else (e.makings[id.index - t.size]?).map (Making.node id.index) := by
  have hget : ∀ t : NodeTable, t.get? id = t.entries.toList[id.index]? := fun t => by
    simp [Table.get?]
  rw [hget, hget, entries_after h, List.getElem?_append]
  by_cases hi : id.index < t.size
  · rw [if_pos hi, if_pos (by simpa [Table.size] using hi)]
  · rw [if_neg hi, if_neg (by simpa [Table.size] using hi), List.getElem?_mapIdx]
    simp [Table.size] at hi ⊢
    simp [hi]

/-- The nodes of a table that is built further are those it had and those of the history. -/
theorem entries_foldl (h : Orderly t edits) :
    (edits.foldl after t).entries.toList =
      t.entries.toList ++ (history edits).mapIdx fun i mk => mk.node (t.size + i) := by
  induction edits generalizing t with
  | nil => simp [history]
  | cons e edits ih =>
    rw [List.foldl_cons, ih h.2, entries_after h.1.adds, size_after, List.append_assoc]
    simp [history, List.mapIdx_append, Nat.add_assoc, Nat.add_comm]

theorem entries_build (h : Orderly {} edits) :
    (build edits).entries.toList = (history edits).mapIdx Making.node := by
  simpa [build, Table.size] using entries_foldl h

theorem get?_build (h : Orderly {} edits) (id : NodeId) :
    (build edits).get? id = (history edits)[id.index]?.map (Making.node id.index) := by
  rw [← List.getElem?_mapIdx, ← entries_build h]
  simp [Table.get?]

/-! ## Groundedness -/

/-- Links stay inside the table, and parents come before their children. -/
structure Grounded (t : NodeTable) : Prop where
  parent_lt : ∀ {id node p}, t.get? id = some node → node.parent = some p → p.index < id.index
  name_lt : ∀ {id node q}, t.get? id = some node → node.identifier = some q → q.index < t.size

theorem Grounded.parent_lt_size {id p : NodeId} {node : Node} (ht : t.Grounded)
    (hn : t.get? id = some node) (hp : node.parent = some p) : p.index < t.size := by
  obtain ⟨hi, _⟩ := Array.getElem?_eq_some_iff.mp hn
  exact Nat.lt_trans (ht.parent_lt hn hp) hi

theorem grounded_empty : Grounded {} := by
  constructor <;> intro id node q hn <;> simp [Table.get?] at hn

/-- The links of the nodes that an orderly edit makes. -/
theorem makings_links (h : e.Orderly t) {j : Nat} {mk : Making} (hj : e.makings[j]? = some mk) :
    (∀ p, (mk.node (t.size + j)).parent = some p → p.index < t.size + j) ∧
      ∀ q, (mk.node (t.size + j)).identifier = some q →
        q.index < t.size + e.makings.length := by
  cases e with
  | add node =>
    obtain ⟨rfl, rfl⟩ : j = 0 ∧ Making.alone node = mk := by
      simpa [NodeEdit.makings, List.getElem?_singleton] using hj
    refine ⟨h.2, ?_⟩
    intro q hq
    rw [Making.node, (Node.Plain.links h.1).1] at hq
    cases hq
  | root kind file =>
    cases hk : kind.isSourceRoot with
    | false => simp [NodeEdit.makings, hk] at hj
    | true =>
      obtain ⟨rfl, rfl⟩ : j = 0 ∧ Making.root kind file = mk := by
        simpa [NodeEdit.makings, hk, List.getElem?_singleton] using hj
      exact ⟨nofun, nofun⟩
  | child parent kind span =>
    obtain ⟨rfl, rfl⟩ : j = 0 ∧ Making.child parent kind span = mk := by
      simpa [NodeEdit.makings, List.getElem?_singleton] using hj
    refine ⟨?_, nofun⟩
    rintro p ⟨⟩
    exact h
  | named parent kind span nameSpan =>
    match j with
    | 0 =>
      cases hj
      refine ⟨?_, ?_⟩
      · rintro p ⟨⟩
        exact h
      · rintro q ⟨⟩
        exact Nat.lt_succ_self _
    | 1 =>
      cases hj
      refine ⟨?_, nofun⟩
      rintro p ⟨⟩
      exact Nat.lt_succ_self _
    | j + 2 => simp [NodeEdit.makings] at hj
  | patch id patch => exact False.elim h

theorem Grounded.after (ht : t.Grounded) (h : e.Orderly t) : (t.after e).Grounded := by
  have new : ∀ {id node}, (t.after e).get? id = some node → ¬ id.index < t.size →
      ∃ j mk, id.index = t.size + j ∧ e.makings[j]? = some mk ∧ mk.node id.index = node := by
    intro id node hn hi
    rw [get?_after h.adds, if_neg hi] at hn
    obtain ⟨mk, hmk, hnode⟩ := Option.map_eq_some_iff.mp hn
    exact ⟨id.index - t.size, mk, by omega, hmk, hnode⟩
  have old : ∀ {id node}, (t.after e).get? id = some node → id.index < t.size →
      t.get? id = some node := by
    intro id node hn hi
    rwa [get?_after h.adds, if_pos hi] at hn
  constructor
  · intro id node p hn hp
    by_cases hi : id.index < t.size
    · exact ht.parent_lt (old hn hi) hp
    · obtain ⟨j, mk, hij, hmk, rfl⟩ := new hn hi
      rw [hij] at hp ⊢
      exact (makings_links h hmk).1 p hp
  · intro id node q hn hq
    rw [size_after]
    by_cases hi : id.index < t.size
    · exact Nat.lt_of_lt_of_le (ht.name_lt (old hn hi) hq) (Nat.le_add_right _ _)
    · obtain ⟨j, mk, hij, hmk, rfl⟩ := new hn hi
      rw [hij] at hq
      exact (makings_links h hmk).2 q hq

theorem Grounded.foldl (ht : t.Grounded) (h : Orderly t edits) :
    (edits.foldl NodeTable.after t).Grounded := by
  induction edits generalizing t with
  | nil => exact ht
  | cons e edits ih => exact ih (ht.after h.1) h.2

theorem grounded_build (h : Orderly {} edits) : (build edits).Grounded := grounded_empty.foldl h

end NodeTable

/-! ## What the history says -/

theorem makings_sound {t : NodeTable} {e : NodeEdit} (h : e.Orderly t) :
    ∀ mk ∈ e.makings, mk.Sound := by
  intro mk hmk
  cases e with
  | add node =>
    obtain rfl := List.mem_singleton.mp hmk
    exact h.1
  | root kind file =>
    cases hk : kind.isSourceRoot with
    | false => simp [NodeEdit.makings, hk] at hmk
    | true =>
      obtain rfl : mk = .root kind file := by simpa [NodeEdit.makings, hk] using hmk
      exact hk
  | child parent kind span =>
    obtain rfl := List.mem_singleton.mp hmk
    trivial
  | named parent kind span nameSpan =>
    obtain rfl | rfl : mk = .declaration parent kind span nameSpan ∨ mk = .name nameSpan := by
      simpa [NodeEdit.makings] using hmk
    · trivial
    · trivial
  | patch id patch => exact False.elim h

theorem history_sound {t : NodeTable} {edits : List NodeEdit} (h : Orderly t edits) :
    ∀ mk ∈ history edits, mk.Sound := by
  induction edits generalizing t with
  | nil => simp [history]
  | cons e edits ih =>
    intro mk hmk
    rcases List.mem_append.mp hmk with hmk | hmk
    · exact makings_sound h.1 mk hmk
    · exact ih h.2 mk hmk

/-- The name of a declaration is made right after it. -/
theorem history_name {edits : List NodeEdit} {i : Nat} {parent : NodeId} {kind : NodeKind}
    {span nameSpan : Span}
    (h : (history edits)[i]? = some (.declaration parent kind span nameSpan)) :
    (history edits)[i + 1]? = some (.name nameSpan) := by
  induction edits generalizing i with
  | nil => cases h
  | cons e edits ih =>
    change (e.makings ++ history edits)[i]? = _ at h
    show (e.makings ++ history edits)[i + 1]? = _
    rcases Nat.lt_or_ge i e.makings.length with hi | hi
    · rw [List.getElem?_append_left hi] at h
      cases e with
      | named parent' kind' span' nameSpan' =>
        match i with
        | 0 =>
          cases h
          rfl
        | 1 => cases h
      | root kind' file =>
        have hmem := List.mem_of_getElem? h
        cases hk : kind'.isSourceRoot <;> simp [NodeEdit.makings, hk] at hmem
      | add _ | child _ _ _ | patch _ _ =>
        have hmem := List.mem_of_getElem? h
        simp [NodeEdit.makings] at hmem
    · rw [List.getElem?_append_right hi] at h
      rw [List.getElem?_append_right (Nat.le_succ_of_le hi),
        show i + 1 - e.makings.length = i - e.makings.length + 1 by omega]
      exact ih h

/-! ## Resolution -/

namespace NodeTable

variable {m : Model} {edits : List NodeEdit} {id : NodeId} {mk : Making}

/-- In a grounded table every climb arrives. -/
theorem Grounded.exists_endsAt (hg : m.nodes.Grounded) (hi : id.index < m.nodes.size) :
    ∃ k root, m.lookup.EndsAt id k root := by
  induction hn : id.index using Nat.strongRecOn generalizing id with
  | ind n ih =>
    obtain ⟨node, hnode⟩ := Model.exists_node_of_index_lt hi
    cases hp : node.parent with
    | none => exact ⟨0, node, id, rfl, hnode, hp⟩
    | some p =>
      obtain ⟨k, root, h⟩ := ih p.index (hn ▸ hg.parent_lt hnode hp)
        (hg.parent_lt_size hnode hp) rfl
      exact ⟨k + 1, root, h.succ hnode hp⟩

theorem focusedSpan_build (hm : m.nodes = build edits) (h : Orderly {} edits) (focus : Focus)
    (hmk : (history edits)[id.index]? = some mk) :
    m.lookup.focusedSpan focus (mk.node id.index) = .ok (mk.span focus) := by
  cases mk with
  | declaration parent kind span nameSpan =>
    cases focus with
    | whole => rfl
    | name =>
      have hname : m.lookup.node ⟨id.index + 1⟩ =
          some ((Making.name nameSpan).node (id.index + 1)) := by
        show m.nodes.get? _ = _
        rw [hm, get?_build h, history_name hmk]
        rfl
      simp [Lookup.focusedSpan, Making.node, hname, Making.span]
  | alone node =>
    have hs := history_sound h _ (List.mem_of_getElem? hmk)
    cases focus <;> simp [Lookup.focusedSpan, Making.node, Making.span, (Node.Plain.links hs).1]
  | root kind file => cases focus <;> rfl
  | child parent kind span => cases focus <;> rfl
  | name span => cases focus <;> rfl

/-- **Every node resolves to where it was made.** A table that orderly edits build is grounded, and
each of its nodes gets a location. If the last node above it, or it itself, was made as the root of
a file, then the location is in that file and has the span that the node, or the name that it was
made with, was given. Else it is synthetic, and says more of a node that is not. -/
theorem build_resolves (m : Model) (edits : List NodeEdit) (hm : m.nodes = build edits)
    (h : Orderly {} edits) (focus : Focus) (j : Journal) :
    m.nodes.Grounded ∧
    ∀ id : NodeId, id.index < m.nodes.size → ∃ making,
      (history edits)[id.index]? = some making ∧
      m.lookup.node id = some (making.node id.index) ∧
      (∃ top, m.lookup.IsTop top id) ∧
      ∀ top, m.lookup.IsTop top id →
        (∀ kind file, (history edits)[top.index]? = some (.root kind file) →
          m.lookup.answer focus (.node id) j = .ok ⟨file, making.span focus, false⟩) ∧
        ((∀ kind file, (history edits)[top.index]? ≠ some (.root kind file)) →
          m.lookup.answer focus (.node id) j =
            .ok ⟨⟨⟨j.nextFile⟩, if (making.node id.index).isSynthetic
              then SourceLocation.unknownPath else Fallback.unboundPath, ""⟩, Span.dummy, true⟩) := by
  have hg : m.nodes.Grounded := hm ▸ grounded_build h
  refine ⟨hg, fun id hi => ?_⟩
  have made : ∀ {id node}, m.lookup.node id = some node →
      ∃ mk, (history edits)[id.index]? = some mk ∧ mk.Sound ∧ mk.node id.index = node := by
    intro id node hn
    have hn' : (build edits).get? id = some node := hm ▸ hn
    rw [get?_build h] at hn'
    obtain ⟨mk, hmk, hnode⟩ := Option.map_eq_some_iff.mp hn'
    exact ⟨mk, hmk, history_sound h _ (List.mem_of_getElem? hmk), hnode⟩
  obtain ⟨node, hnode⟩ := Model.exists_node_of_index_lt hi
  obtain ⟨mk, hmk, _, rfl⟩ := made hnode
  obtain ⟨k, root, top, htop⟩ := hg.exists_endsAt hi
  refine ⟨mk, hmk, hnode, ⟨top, k, root, htop⟩, ?_⟩
  rintro top ⟨k, root, htop, hroot, hparent⟩
  obtain ⟨rmk, hrmk, hsound, rfl⟩ := made hroot
  have hc := Model.climb_of_endsAt hnode ⟨top, htop, hroot, hparent⟩
  constructor
  · intro kind file hr
    obtain rfl := Option.some.inj (hrmk.symm.trans hr)
    rw [Lookup.answer_eq, Lookup.locate,
      Lookup.locateNode_of_anchor hnode hc (Making.anchor?_root hsound _),
      focusedSpan_build hm h focus hmk]
    rfl
  · intro hr
    have ha : (rmk.node top.index).anchor? = none :=
      Making.anchor?_eq_none hsound (fun kind file he => hr kind file (he ▸ hrmk)) _
    rw [Lookup.answer_eq, Lookup.locate, Lookup.locateNode_of_anchor_none hnode hc ha]
    cases hs : (mk.node id.index).isSynthetic <;> rfl

/-- A script with a declaration and a node under its name, beside a made-up node of the kind of a
root that has no file. -/
def sampleEdits : List NodeEdit :=
  [.root .typeSpecScript ⟨⟨7⟩, "main.tsp", "model A \x7b\x7d"⟩,
    .named ⟨0⟩ .modelStatement ⟨0, 10⟩ ⟨6, 7⟩,
    .child ⟨2⟩ .decoratorExpression ⟨6, 6⟩,
    .add (({ kind := .jsSourceFile, span := ⟨0, 4⟩ } : Node).withFlags .synthetic)]

theorem sampleEdits_orderly : Orderly {} sampleEdits := by
  refine ⟨trivial, ?_, ?_, ⟨.withFlags _ (.new _ _), nofun⟩, trivial⟩
  · exact Nat.zero_lt_one
  · exact Nat.lt_succ_self 2

theorem sampleEdits_resolve :
    let m : Model := { nodes := build sampleEdits }
    Orderly {} sampleEdits ∧
    m.lookup.answer .name (.node ⟨1⟩) {} =
      .ok ⟨⟨⟨7⟩, "main.tsp", "model A \x7b\x7d"⟩, ⟨6, 7⟩, false⟩ ∧
    m.lookup.answer .name (.node ⟨4⟩) {} =
      .ok ⟨⟨⟨0⟩, SourceLocation.unknownPath, ""⟩, Span.dummy, true⟩ := by
  refine ⟨sampleEdits_orderly, ?_, ?_⟩
  · obtain ⟨making, hmk, _, _, hr⟩ := (build_resolves { nodes := build sampleEdits } sampleEdits rfl
      sampleEdits_orderly .name {}).2 ⟨1⟩ (by decide)
    cases hmk
    have htop : ({ nodes := build sampleEdits } : Model).lookup.IsTop ⟨0⟩ ⟨1⟩ :=
      ⟨1, _, rfl, rfl, rfl⟩
    exact (hr ⟨0⟩ htop).1 .typeSpecScript _ rfl
  · obtain ⟨making, hmk, _, _, hr⟩ := (build_resolves { nodes := build sampleEdits } sampleEdits rfl
      sampleEdits_orderly .name {}).2 ⟨4⟩ (by decide)
    cases hmk
    have htop : ({ nodes := build sampleEdits } : Model).lookup.IsTop ⟨4⟩ ⟨4⟩ :=
      ⟨0, _, rfl, rfl, rfl⟩
    exact (hr ⟨4⟩ htop).2 nofun

end NodeTable

end SourceDiagnostics
