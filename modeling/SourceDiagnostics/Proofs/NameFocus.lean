import SourceDiagnostics.Proofs.Resolution

/-!
Focusing on the name of a declaration, beside focusing on all of it.

The focus is looked at last, once a target has led to a node and the chain above the node to a file.
So it has no say in errors found before that, nor in the file, and nothing but a name that the model
does not have can go wrong with it.

* `Lookup.answer_narrows`: what the resolver answers with either focus, side by side;
* `Lookup.focus_narrows`: what this says of the second answer, given the first, and the other way.
-/

namespace SourceDiagnostics

namespace Lookup

variable {m : Lookup} {target : Target} {id ident : NodeId} {node : Node} {j i : Journal}
  {l l' : SourceLocation} {e : LocationError} {r : Except LocationError SourceLocation}

/-- The chain above `id` ends at a source root that stands for `file`. -/
def BoundTo (m : Lookup) (id : NodeId) (file : SourceFile) : Prop :=
  ∃ k root, m.EndsAt id k root ∧ root.anchor? = some file

/-- Two answers for a target, the first one with the focus on all of it while the journal was `j`,
the second one with the focus on its name while the journal was `i`. -/
inductive Narrows (m : Lookup) (target : Target) (j i : Journal) :
    Except LocationError SourceLocation → Except LocationError SourceLocation → Prop
  | error (e : LocationError) : Narrows m target j i (.error e) (.error e)
  | given {l : SourceLocation} (h : target = .location l) : Narrows m target j i (.ok l) (.ok l)
  | standIn (f : Fallback) :
      Narrows m target j i (.ok (f.standIn ⟨j.nextFile⟩)) (.ok (f.standIn ⟨i.nextFile⟩))
  | bound {id : NodeId} {node : Node} {file : SourceFile} (hs : m.Starts target id)
      (hn : m.node id = some node) (hf : m.BoundTo id file) :
      Narrows m target j i (.ok ⟨file, node.span, false⟩)
        ((m.focusedSpan .name node).map fun span => ⟨file, span, false⟩)

/-! ## Both answers -/

theorem locateNode_narrows (hs : m.Starts target id) :
    Narrows m target j i ((m.locateNode .whole id).map (Whereabouts.location ⟨j.nextFile⟩))
      ((m.locateNode .name id).map (Whereabouts.location ⟨i.nextFile⟩)) := by
  cases hn : m.node id with
  | none =>
    rw [locateNode_of_missing hn, locateNode_of_missing hn]
    exact .error _
  | some node =>
    cases hc : m.climb id m.nodeCount node with
    | error e =>
      rw [locateNode_of_climb_error hn hc, locateNode_of_climb_error hn hc]
      exact .error e
    | ok root =>
      cases ha : root.anchor? with
      | none =>
        rw [locateNode_of_anchor_none hn hc ha, locateNode_of_anchor_none hn hc ha]
        exact .standIn _
      | some file =>
        obtain ⟨k, _, he⟩ := (climb_eq_ok_iff hn).mp hc
        have hbound : Narrows m target j i _ _ := .bound hs hn ⟨k, root, he, ha⟩
        rw [locateNode_of_anchor hn hc ha, locateNode_of_anchor hn hc ha]
        cases hspan : m.focusedSpan .name node <;> rw [hspan] at hbound <;> exact hbound

theorem answer_narrows (m : Lookup) (target : Target) (j i : Journal) :
    Narrows m target j i (m.answer .whole target j) (m.answer .name target i) := by
  rw [answer_eq, answer_eq]
  rcases m.locate_cases target with ⟨l, rfl⟩ | ⟨e, he⟩ | ⟨f, hf⟩ | ⟨id, hs, hid⟩
  · exact .given rfl
  · rw [he, he]
    exact .error e
  · rw [hf, hf]
    exact .standIn f
  · rw [hid, hid]
    exact locateNode_narrows hs

/-! ## One answer from the other -/

namespace Narrows

theorem eq_error (h : Narrows m target j i (.error e) r) : r = .error e := by
  cases h
  rfl

theorem exists_of_synthetic (h : Narrows m target j i (.ok l) r) (hl : l.isSynthetic = true) :
    ∃ l', r = .ok l' ∧ l'.path = l.path ∧ l'.span = l.span ∧ l'.isSynthetic = true := by
  cases h with
  | given _ => exact ⟨l, rfl, rfl, rfl, hl⟩
  | standIn f => exact ⟨_, rfl, rfl, rfl, rfl⟩
  | bound _ _ _ => cases hl

/-- The span of a location in a file is that of a node. What takes its place is left to the name of
that node. -/
theorem exists_of_real (h : Narrows m target j i (.ok l) r) (htarget : ∀ l', target ≠ .location l')
    (hl : l.isSynthetic = false) :
    ∃ id node, m.Starts target id ∧ m.node id = some node ∧ m.BoundTo id l.file ∧
      l.span = node.span ∧ r = (m.focusedSpan .name node).map fun span => { l with span } := by
  cases h with
  | given h => exact absurd h (htarget l)
  | standIn f => cases hl
  | bound hs hn hf => exact ⟨_, _, hs, hn, hf, rfl, rfl⟩

theorem file_eq (h : Narrows m target j i (.ok l) (.ok l')) :
    l'.isSynthetic = l.isSynthetic ∧ l'.path = l.path ∧
      (l.isSynthetic = false → l'.file = l.file) := by
  generalize hr : Except.ok l' = r at h
  cases h with
  | given _ =>
    cases hr
    exact ⟨rfl, rfl, fun _ => rfl⟩
  | standIn f =>
    cases hr
    exact ⟨rfl, rfl, fun h => by cases h⟩
  | @bound _ node file _ _ _ =>
    cases hspan : m.focusedSpan .name node with
    | error e =>
      rw [hspan] at hr
      cases hr
    | ok span =>
      rw [hspan] at hr
      cases hr
      exact ⟨rfl, rfl, fun _ => rfl⟩

/-- An error that only the second answer has is that of a missing name. -/
theorem error_cases (h : Narrows m target j i r (.error e)) : r = .error e ∨
    ∃ id node file ident, m.Starts target id ∧ m.node id = some node ∧ m.BoundTo id file ∧
      node.identifier = some ident ∧ m.node ident = none ∧ e = .unknownNode ident := by
  generalize hr : Except.error e = s at h
  cases h with
  | error e' =>
    cases hr
    exact Or.inl rfl
  | given _ => cases hr
  | standIn f => cases hr
  | @bound id node file hs hn hf =>
    cases hspan : m.focusedSpan .name node with
    | ok span =>
      rw [hspan] at hr
      cases hr
    | error e' =>
      rw [hspan] at hr
      cases hr
      obtain ⟨ident, hident, hmissing, he⟩ := focusedSpan_eq_error hspan
      exact Or.inr ⟨id, node, file, ident, hs, hn, hf, hident, hmissing, he⟩

end Narrows

/-! ## The name of a node -/

theorem focusedSpan_of_unnamed (h : node.identifier = none) :
    m.focusedSpan .name node = .ok node.span := by
  simp only [focusedSpan, h]

theorem focusedSpan_of_name {name : Node} (h : node.identifier = some ident)
    (hname : m.node ident = some name) : m.focusedSpan .name node = .ok name.span := by
  simp only [focusedSpan, h, hname]

theorem focusedSpan_of_missing (h : node.identifier = some ident) (hname : m.node ident = none) :
    m.focusedSpan .name node = .error (.unknownNode ident) := by
  simp only [focusedSpan, h, hname]

/-- **Asking for the name only narrows the span.** Whatever the model, a target in error stays in
the same error, a given location stays as it is, and a stand-in has the same path. A location in a
file stays in that file: it gets the span of the name, if the node that the target is located by has
one, and is in error if the model does not have that name. Nothing else becomes of it, and no other
error comes up. -/
theorem focus_narrows (m : Lookup) (target : Target) (j i : Journal) :
    (∀ e, m.answer .whole target j = .error e → m.answer .name target i = .error e) ∧
    (∀ l, target = .location l →
      m.answer .whole target j = .ok l ∧ m.answer .name target i = .ok l) ∧
    (∀ l, m.answer .whole target j = .ok l → l.isSynthetic = true →
      ∃ l', m.answer .name target i = .ok l' ∧ l'.path = l.path ∧ l'.span = l.span ∧
        l'.isSynthetic = true) ∧
    (∀ l, (∀ l', target ≠ .location l') → m.answer .whole target j = .ok l →
      l.isSynthetic = false → ∃ id node, m.Starts target id ∧ m.node id = some node ∧
        m.BoundTo id l.file ∧ l.span = node.span ∧
        (node.identifier = none → m.answer .name target i = .ok l) ∧
        ∀ ident, node.identifier = some ident →
          (∀ name, m.node ident = some name →
            m.answer .name target i = .ok { l with span := name.span }) ∧
          (m.node ident = none → m.answer .name target i = .error (.unknownNode ident))) ∧
    (∀ l l', m.answer .whole target j = .ok l → m.answer .name target i = .ok l' →
      l'.isSynthetic = l.isSynthetic ∧ l'.path = l.path ∧
        (l.isSynthetic = false → l'.file = l.file)) ∧
    ∀ e, m.answer .name target i = .error e → m.answer .whole target j = .error e ∨
      ∃ id node file ident, m.Starts target id ∧ m.node id = some node ∧ m.BoundTo id file ∧
        node.identifier = some ident ∧ m.node ident = none ∧ e = .unknownNode ident := by
  have hboth := m.answer_narrows target j i
  refine ⟨?_, ?_, ?_, ?_, ?_, ?_⟩
  · intro e he
    rw [he] at hboth
    exact hboth.eq_error
  · rintro l rfl
    exact ⟨rfl, rfl⟩
  · intro l hl hsynthetic
    rw [hl] at hboth
    exact hboth.exists_of_synthetic hsynthetic
  · intro l htarget hl hreal
    rw [hl] at hboth
    obtain ⟨id, node, hs, hn, hf, hspan, hname⟩ := hboth.exists_of_real htarget hreal
    refine ⟨id, node, hs, hn, hf, hspan, fun hnone => ?_, fun ident hident => ⟨?_, ?_⟩⟩
    · rw [hname, focusedSpan_of_unnamed hnone, ← hspan]
      rfl
    · intro name hmem
      rw [hname, focusedSpan_of_name hident hmem]
      rfl
    · intro hmissing
      rw [hname, focusedSpan_of_missing hident hmissing]
      rfl
  · intro l l' hl hl'
    rw [hl, hl'] at hboth
    exact hboth.file_eq
  · intro e he
    rw [he] at hboth
    exact hboth.error_cases

/-- A missing name comes up where the chain above its node ends at a file, and only there: not where
the chain goes round, and not where it ends without a file. -/
theorem focus_narrows_samples :
    let file : SourceFile := ⟨⟨7⟩, "main.tsp", "model A \x7b\x7d"⟩
    let m : Model := {
      nodes := ⟨#[{ kind := .typeSpecScript, span := ⟨0, 10⟩, file := some file },
        { kind := .modelStatement, span := ⟨0, 10⟩, parent := some ⟨0⟩, identifier := some ⟨2⟩ },
        { kind := .identifier, span := ⟨6, 7⟩, parent := some ⟨1⟩ },
        { kind := .modelStatement, span := ⟨8, 9⟩, parent := some ⟨0⟩, identifier := some ⟨500⟩ },
        { kind := .modelStatement, span := ⟨8, 9⟩, identifier := some ⟨500⟩ },
        { kind := .modelStatement, span := ⟨8, 9⟩, parent := some ⟨5⟩,
          identifier := some ⟨500⟩ }]⟩ }
    (m.lookup.answer .whole (.node ⟨1⟩) {} = .ok ⟨file, ⟨0, 10⟩, false⟩ ∧
      m.lookup.answer .name (.node ⟨1⟩) {} = .ok ⟨file, ⟨6, 7⟩, false⟩) ∧
    (m.lookup.answer .whole (.node ⟨3⟩) {} = .ok ⟨file, ⟨8, 9⟩, false⟩ ∧
      m.lookup.answer .name (.node ⟨3⟩) {} = .error (.unknownNode ⟨500⟩)) ∧
    (∃ l, m.lookup.answer .name (.node ⟨4⟩) {} = .ok l ∧ l.isSynthetic = true) ∧
    m.lookup.answer .name (.node ⟨5⟩) {} = .error (.parentCycle ⟨5⟩) := by
  intro file m
  have hnode : ∀ id l, Target.node id ≠ .location l := by
    intro id l h
    cases h
  have hnamed : m.lookup.answer .whole (.node ⟨1⟩) {} = .ok ⟨file, ⟨0, 10⟩, false⟩ := rfl
  have hdangling : m.lookup.answer .whole (.node ⟨3⟩) {} = .ok ⟨file, ⟨8, 9⟩, false⟩ := rfl
  have hunbound : ∃ l, m.lookup.answer .whole (.node ⟨4⟩) {} = .ok l ∧ l.isSynthetic = true :=
    ⟨_, rfl, rfl⟩
  have hcycle : m.lookup.answer .whole (.node ⟨5⟩) {} = .error (.parentCycle ⟨5⟩) := rfl
  refine ⟨⟨hnamed, ?_⟩, ⟨hdangling, ?_⟩, ?_, (focus_narrows m.lookup (.node ⟨5⟩) {} {}).1 _ hcycle⟩
  · obtain ⟨id, node, hs, hn, _, _, _, hname⟩ :=
      (focus_narrows m.lookup (.node ⟨1⟩) {} {}).2.2.2.1 _ (hnode _) hnamed rfl
    cases hs
    cases hn
    exact (hname ⟨2⟩ rfl).1 _ rfl
  · obtain ⟨id, node, hs, hn, _, _, _, hname⟩ :=
      (focus_narrows m.lookup (.node ⟨3⟩) {} {}).2.2.2.1 _ (hnode _) hdangling rfl
    cases hs
    cases hn
    exact (hname ⟨500⟩ rfl).2 rfl
  · obtain ⟨l, hl, hsynthetic⟩ := hunbound
    obtain ⟨l', hl', _, _, hsynthetic'⟩ :=
      (focus_narrows m.lookup (.node ⟨4⟩) {} {}).2.2.1 l hl hsynthetic
    exact ⟨l', hl', hsynthetic'⟩

end Lookup

end SourceDiagnostics
