import SourceDiagnostics.Proofs.Construction

/-!
The ids of a table of nodes: given out one after the other, and never again.

Edits of any kind and with any links may come in any order, patches among them, and some are
refused. A node is made at the end of the table. From then on only patches that name it change it.

* `NodeEdit.snd_run_perform`: single steps stay done where a later one faults, and still a change
  that is refused leaves the table as it was;
* `NodeTable.get?_after_edit`: one edit, seen from any id;
* `NodeTable.get?_foldl_of_lt`: a node after any edits;
* `NodeTable.ids_stable`: what became of every node of a table that was built by any edits.
-/

namespace SourceDiagnostics

/-! ## Changes in place -/

/-- What single steps leave behind is the table after the change, or as it was before. -/
theorem NodeEdit.snd_run_perform (e : NodeEdit) (t : NodeTable) :
    (e.perform.run.run t).2 = t.after e := by
  rcases hrun : e.perform.run.run t with ⟨answer, u⟩
  cases answer with
  | ok id => exact (NodeTable.after_of_run hrun).symm
  | error fault => exact (eq_of_refused hrun).trans (NodeTable.after_of_refused hrun).symm

theorem run_performAll (edits : List NodeEdit) (t : NodeTable) :
    ((performAll edits).run t).2 = edits.foldl NodeTable.after t := by
  induction edits generalizing t with
  | nil => rfl
  | cons e edits ih =>
    rw [List.foldl_cons, ← NodeEdit.snd_run_perform, ← ih, performAll, List.mapM_cons]
    rfl

/-! ## Patches -/

/-- What an edit changes in the node `id`, if it is in the table. -/
def NodeEdit.patchesOf (id : NodeId) : NodeEdit → List NodePatch
  | .patch other change => if other = id then [change] else []
  | _ => []

/-- The patches of the node `id` in a list of edits, in order. -/
def patchesOf (id : NodeId) (edits : List NodeEdit) : List NodePatch :=
  edits.flatMap (NodeEdit.patchesOf id)

/-- A node after patches, one after the other. -/
def Node.patched (node : Node) (patches : List NodePatch) : Node :=
  patches.foldl (fun node change => change.apply node) node

theorem Node.patched_append (node : Node) (ps qs : List NodePatch) :
    node.patched (ps ++ qs) = (node.patched ps).patched qs := List.foldl_append

theorem NodeEdit.patchesOf_eq_nil {e : NodeEdit} {id : NodeId}
    (h : ∀ change, e ≠ .patch id change) : e.patchesOf id = [] := by
  cases e with
  | patch other change =>
    have hother : other ≠ id := by
      rintro rfl
      exact h change rfl
    exact if_neg hother
  | _ => rfl

/-! ## What edits do to the table -/

namespace NodeTable

variable {t : NodeTable} {e : NodeEdit} {edits : List NodeEdit} {id : NodeId}

theorem isSome_get?_iff : (t.get? id).isSome ↔ id.index < t.size := by
  simp [Table.get?, Table.size]

theorem get?_eq_none_of_le (h : t.size ≤ id.index) : t.get? id = none :=
  Array.getElem?_eq_none_iff.mpr h

/-- Patches make no node, and change only the one that they name. -/
theorem get?_after_patch (t : NodeTable) (other : NodeId) (change : NodePatch) (id : NodeId) :
    (t.after (.patch other change)).get? id =
      (t.get? id).map fun node => node.patched (NodeEdit.patchesOf id (.patch other change)) := by
  have hafter : t.after (.patch other change) = t.modify other change.apply := rfl
  rw [hafter, Table.get?_modify]
  by_cases hid : id = other
  · simp [hid, NodeEdit.patchesOf, Node.patched]
  · simp [hid, Ne.symm hid, NodeEdit.patchesOf, Node.patched]

/-- One edit, seen from any id. A node that is in the table stays there, with the patches that the
edit has for it; what the edit makes comes behind the end. -/
theorem get?_after_edit (t : NodeTable) (e : NodeEdit) (id : NodeId) :
    (t.after e).get? id =
      if id.index < t.size then (t.get? id).map fun node => node.patched (e.patchesOf id)
      else (e.makings[id.index - t.size]?).map (Making.node id.index) := by
  rcases e.adds_or_patch with h | ⟨other, change, rfl⟩
  · have hnone : e.patchesOf id = [] := NodeEdit.patchesOf_eq_nil fun change he => by
      rw [he] at h
      exact h
    rw [get?_after h, hnone]
    simp [Node.patched]
  · rw [get?_after_patch]
    split
    · rfl
    · next h =>
      rw [get?_eq_none_of_le (Nat.le_of_not_lt h)]
      simp [NodeEdit.makings]

/-- A node that is in the table stays there, with the patches that name it. -/
theorem get?_foldl_of_lt (edits : List NodeEdit) (h : id.index < t.size) :
    (edits.foldl after t).get? id = (t.get? id).map fun node => node.patched (patchesOf id edits) := by
  induction edits generalizing t with
  | nil => simp [patchesOf, Node.patched]
  | cons e edits ih =>
    have hnext : id.index < (t.after e).size := by
      rw [size_after]
      exact Nat.lt_add_right _ h
    rw [List.foldl_cons, ih hnext, get?_after_edit, if_pos h, Option.map_map]
    simp [patchesOf, Function.comp_def, Node.patched_append]

theorem size_foldl (t : NodeTable) (edits : List NodeEdit) :
    (edits.foldl after t).size = t.size + (history edits).length := by
  induction edits generalizing t with
  | nil => simp [history]
  | cons e edits ih =>
    rw [List.foldl_cons, ih, size_after]
    simp [history, Nat.add_assoc]

theorem build_append (before later : List NodeEdit) :
    build (before ++ later) = later.foldl after (build before) := List.foldl_append

/-- What an edit makes stays in the table from then on, where it was put, with the patches that came
since. -/
theorem get?_build_of_makings (before later : List NodeEdit) {i : Nat} {mk : Making}
    (h : e.makings[i]? = some mk) :
    (build (before ++ e :: later)).get? ⟨(build before).size + i⟩ =
      some ((mk.node ((build before).size + i)).patched
        (patchesOf ⟨(build before).size + i⟩ later)) := by
  have hi : i < e.makings.length := (List.getElem?_eq_some_iff.mp h).1
  rw [build_append, List.foldl_cons, get?_foldl_of_lt, get?_after_edit, if_neg,
    Nat.add_sub_cancel_left, h]
  · rfl
  · simp
  · simp [size_after, hi]

/-- An edit that makes nodes is not refused, and answers with the id of the first one. -/
theorem run_perform_of_makings (t : NodeTable) (h : e.makings ≠ []) :
    e.perform.run.run t = (.ok t.nextId, t.after e) := by
  obtain ⟨u, hrun⟩ : ∃ u, e.perform.run.run t = (.ok t.nextId, u) := by
    cases e with
    | root kind file =>
      cases hk : kind.isSourceRoot with
      | false => simp [NodeEdit.makings, hk] at h
      | true => exact ⟨_, NodeEdit.run_perform_root hk⟩
    | named parent kind span nameSpan => exact ⟨_, NodeEdit.run_perform_named⟩
    | patch id change => exact absurd rfl h
    | add _ | child _ _ _ => exact ⟨_, rfl⟩
  rw [hrun, after_of_run hrun]

/-- **Ids are dense, stable and never given out again.** Edits of any kind, with any links, make the
table that the history of what they made describes, also when they are made in place and some are
refused; an id is in it exactly if it is below its size. An edit that makes nodes answers with the
size of the table before it, puts them there one after the other, and no later one gets these ids.
Each is found there at any later time as it was made, with the patches that named it since, and
nothing else. A declaration takes two ids, its own and that of its name, and they name each other.
Only a patch changes a node that is there, and only the one that it names. A root of another kind
than a source root is refused before anything is done. -/
theorem ids_stable :
    (∀ edits, ((performAll edits).run {}).2 = build edits ∧
      (build edits).size = (history edits).length ∧
      ∀ id, ((build edits).get? id).isSome ↔ id.index < (build edits).size) ∧
    (∀ (before : List NodeEdit) e later, e.makings ≠ [] →
      e.perform.run.run (build before) = (.ok ⟨(build before).size⟩, build (before ++ [e])) ∧
      (build (before ++ [e])).size = (build before).size + e.makings.length ∧
      (build before).size + e.makings.length ≤ (build (before ++ e :: later)).size ∧
      ∀ i mk, e.makings[i]? = some mk →
        (build (before ++ e :: later)).get? ⟨(build before).size + i⟩ =
          some ((mk.node ((build before).size + i)).patched
            (patchesOf ⟨(build before).size + i⟩ later))) ∧
    (∀ before later parent kind span nameSpan,
      let n := (build before).size
      let t := build (before ++ .named parent kind span nameSpan :: later)
      (build (before ++ [.named parent kind span nameSpan])).size = n + 2 ∧
      t.get? ⟨n⟩ = some (Node.patched
        { kind, span, parent := some parent, identifier := some ⟨n + 1⟩ } (patchesOf ⟨n⟩ later)) ∧
      t.get? ⟨n + 1⟩ = some (Node.patched
        { kind := .identifier, span := nameSpan, parent := some ⟨n⟩ } (patchesOf ⟨n + 1⟩ later))) ∧
    (∀ before e id, id.index < (build before).size → (∀ change, e ≠ .patch id change) →
      (build (before ++ [e])).get? id = (build before).get? id) ∧
    ∀ before kind file, kind.isSourceRoot = false →
      (NodeEdit.root kind file).perform.run.run (build before) =
        (.error .notSourceRoot, build before) := by
  have hlast : ∀ before e, build (before ++ [e]) = (build before).after e :=
    fun before e => build_append before [e]
  refine ⟨fun edits => ⟨run_performAll edits {}, ?_, fun id => isSome_get?_iff⟩, ?_, ?_, ?_, ?_⟩
  · rw [build, size_foldl]
    exact Nat.zero_add _
  · intro before e later h
    refine ⟨?_, ?_, ?_, fun i mk hmk => get?_build_of_makings before later hmk⟩
    · rw [run_perform_of_makings _ h, hlast]
      rfl
    · rw [hlast, size_after]
    · rw [build_append, List.foldl_cons, size_foldl, size_after]
      exact Nat.le_add_right _ _
  · intro before later parent kind span nameSpan n t
    refine ⟨?_, ?_, ?_⟩
    · rw [hlast, size_after]
      rfl
    · exact get?_build_of_makings (e := .named parent kind span nameSpan) before later (i := 0) rfl
    · exact get?_build_of_makings (e := .named parent kind span nameSpan) before later (i := 1) rfl
  · intro before e id hid hpatch
    rw [hlast, get?_after_edit, if_pos hid, NodeEdit.patchesOf_eq_nil hpatch]
    exact Option.map_id'
  · intro before kind file hkind
    exact NodeEdit.run_perform_root_of_not hkind

/-- A declaration under an id that is only then made, its own, with patches before and after it, a
refused root, and a patch of another node. -/
theorem ids_stable_samples :
    let file : SourceFile := ⟨⟨7⟩, "main.tsp", "model A \x7b\x7d"⟩
    let before : List NodeEdit := [.root .typeSpecScript file, .patch ⟨1⟩ { span := some ⟨3, 4⟩ }]
    let e : NodeEdit := .named ⟨1⟩ .modelStatement ⟨0, 10⟩ ⟨6, 7⟩
    let later : List NodeEdit := [.root .modelStatement file,
      .patch ⟨1⟩ { parent := some (some ⟨0⟩) }, .child ⟨9⟩ .enumMember ⟨2, 2⟩,
      .patch ⟨2⟩ { identifier := some (some ⟨2⟩) }]
    e.makings ≠ [] ∧
    e.perform.run.run (build before) = (.ok ⟨1⟩, build (before ++ [e])) ∧
    (build (before ++ e :: later)).get? ⟨1⟩ =
      some ⟨.modelStatement, ⟨0, 10⟩, .empty, some ⟨0⟩, some ⟨2⟩, none⟩ ∧
    (build (before ++ [e])).get? ⟨0⟩ = (build before).get? ⟨0⟩ ∧
    (NodeEdit.root .modelStatement file).perform.run.run (build before) =
      (.error .notSourceRoot, build before) := by
  intro file before e later
  obtain ⟨_, hmakes, hnamed, hkeeps, hrefused⟩ := ids_stable
  have he : e.makings ≠ [] := by simp [e, NodeEdit.makings]
  refine ⟨he, (hmakes before e later he).1, ?_, ?_, hrefused before _ file rfl⟩
  · exact (hnamed before later _ _ _ _).2.1
  · exact hkeeps before e ⟨0⟩ (by decide +kernel) (by simp [e])

end NodeTable

end SourceDiagnostics
