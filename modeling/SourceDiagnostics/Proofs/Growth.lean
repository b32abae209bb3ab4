import SourceDiagnostics.Proofs.Construction

/-!
Models that grow: what the resolver answers while entries are added to the tables.

An addition leaves every entry under its id, so a lookup in the grown model knows all that a lookup
in the model before knew (`Lookup.Extends`). It may know more, and it allows longer climbs.

* `Model.extends_grow`: every run of additions makes a lookup that extends the one before;
* `Model.locate_keeps`: in a model that extends another one, a target is where it was, unless it
  could not be located for want of an entry;
* `Model.answer_grow`: the same of what the resolver answers, up to the new files of stand-ins.
-/

namespace SourceDiagnostics

/-! ## Additions -/

/-- Symbols and types are only ever added; an edit of nodes may be a patch. -/
def ModelEdit.Adds : ModelEdit → Prop
  | .node edit => edit.Adds
  | _ => True

namespace Table

variable {e : Entity} {α : Type}

/-- Every entry of `t` is one of `u`, under the same id. -/
def Extends (t u : Table e α) : Prop := ∀ {id a}, t.get? id = some a → u.get? id = some a

theorem extends_push (t : Table e α) (a : α) : t.Extends (t.push a) := by
  intro id b hb
  have hne : id ≠ t.nextId := by
    rintro rfl
    simp [get?, nextId, size] at hb
  rw [get?_push, if_neg hne, hb]

end Table

theorem NodeTable.extends_after (t : NodeTable) {e : NodeEdit} (h : e.Adds) :
    t.Extends (t.after e) := by
  intro id node hn
  have hi : id.index < t.size := (Array.getElem?_eq_some_iff.mp hn).1
  rw [get?_after h, if_pos hi, hn]

namespace Model

/-- The model after an edit. A refused edit leaves it as it was. -/
def after (m : Model) (e : ModelEdit) : Model :=
  match m.apply e with
  | .ok (m, _) => m
  | .error _ => m

/-- The model after a list of edits. -/
def grow (m : Model) (edits : List ModelEdit) : Model := edits.foldl after m

theorem after_node (m : Model) (edit : NodeEdit) :
    m.after (.node edit) = { m with nodes := m.nodes.after edit } := by
  unfold after NodeTable.after
  cases h : m.nodes.apply edit <;> simp [apply, h]

end Model

/-! ## Lookups that know more -/

/-- What `m` knows `n` knows as well. Nothing is said of the links that they allow. -/
structure Lookup.Extends (m n : Lookup) : Prop where
  node : ∀ {id a}, m.node id = some a → n.node id = some a
  symbol : ∀ {id a}, m.symbol id = some a → n.symbol id = some a
  type : ∀ {id a}, m.type id = some a → n.type id = some a

namespace Lookup.Extends

variable {m n : Lookup} {id p : NodeId} {k : Nat} {root : Node}

theorem refl (m : Lookup) : m.Extends m := ⟨id, id, id⟩

theorem trans {o : Lookup} (h : m.Extends n) (h' : n.Extends o) : m.Extends o :=
  ⟨fun ha => h'.node (h.node ha), fun ha => h'.symbol (h.symbol ha), fun ha => h'.type (h.type ha)⟩

theorem ancestor? (h : m.Extends n) (hp : m.ancestor? k id = some p) :
    n.ancestor? k id = some p := by
  induction k generalizing id with
  | zero => exact hp
  | succ k ih =>
    obtain ⟨q, hq, hp⟩ := Option.bind_eq_some_iff.mp hp
    obtain ⟨a, ha, hparent⟩ := link_eq_some_iff.mp hq
    rw [Lookup.ancestor?, link_eq_some_iff.mpr ⟨a, h.node ha, hparent⟩]
    exact ih hp

/-- A chain that ends goes on no further: nodes that are added have no say in it. -/
theorem endsAt (h : m.Extends n) (he : m.EndsAt id k root) : n.EndsAt id k root := by
  obtain ⟨p, hp, hroot, hnone⟩ := he
  exact ⟨p, h.ancestor? hp, h.node hroot, hnone⟩

theorem endless (h : m.Extends n) (he : m.Endless id) : n.Endless id := by
  intro k
  obtain ⟨p, a, q, hp, ha, hq⟩ := he k
  exact ⟨p, a, q, h.ancestor? hp, h.node ha, hq⟩

end Lookup.Extends

theorem Model.extends_after (m : Model) {e : ModelEdit} (h : e.Adds) :
    m.lookup.Extends (m.after e).lookup := by
  cases e with
  | node edit =>
    rw [after_node]
    exact ⟨NodeTable.extends_after m.nodes h, id, id⟩
  | symbol symbol => exact ⟨id, m.symbols.extends_push symbol, id⟩
  | type type => exact ⟨id, id, m.types.extends_push type⟩

theorem Model.extends_grow (m : Model) {edits : List ModelEdit} (h : ∀ e ∈ edits, e.Adds) :
    m.lookup.Extends (m.grow edits).lookup := by
  induction edits generalizing m with
  | nil => exact Lookup.Extends.refl _
  | cons e edits ih =>
    exact (m.extends_after (h e List.mem_cons_self)).trans
      (ih (m.after e) fun e' he' => h e' (List.mem_cons_of_mem e he'))

/-! ## Results that stay -/

/-- The error names an id that is not in its table. -/
inductive LocationError.IsUnknown : LocationError → Prop
  | node (id : NodeId) : IsUnknown (.unknownNode id)
  | symbol (id : SymbolId) : IsUnknown (.unknownSymbol id)
  | type (id : TypeId) : IsUnknown (.unknownType id)

/-- The second result is the first one, unless that is an error for want of an entry. -/
inductive Keeps {α : Type} : Except LocationError α → Except LocationError α → Prop
  | same (r : Except LocationError α) : Keeps r r
  | mended {e : LocationError} (h : e.IsUnknown) (r : Except LocationError α) : Keeps (.error e) r

namespace Keeps

variable {α β : Type} {r s : Except LocationError α}

theorem bind {f g : α → Except LocationError β} (h : Keeps r s) (hfg : ∀ a, Keeps (f a) (g a)) :
    Keeps (r >>= f) (s >>= g) := by
  cases h with
  | same =>
    cases r with
    | error e => exact .same _
    | ok a => exact hfg a
  | mended he => exact .mended he _

theorem eq_of_ok {a : α} (h : Keeps r s) (hr : r = .ok a) : s = .ok a := by
  cases h with
  | same => exact hr
  | mended he => cases hr

theorem eq_of_error {e : LocationError} (h : Keeps r s) (hr : r = .error e) (he : ¬ e.IsUnknown) :
    s = .error e := by
  cases h with
  | same => exact hr
  | mended he' =>
    cases hr
    exact absurd he' he

end Keeps

namespace Model

variable {m n : Model} {id : NodeId} {node : Node}

/-- A climb in the larger model may take more links, and needs none of them: a chain that ends is as
long as before, and one that goes round keeps doing so. -/
theorem climb_keeps (h : m.lookup.Extends n.lookup) (hn : m.lookup.node id = some node) :
    Keeps (m.lookup.climb id m.lookup.nodeCount node)
      (n.lookup.climb id n.lookup.nodeCount node) := by
  rcases m.chain_kinds id with he | ⟨k, p, hd⟩ | ⟨k, root, he⟩
  · rw [climb_of_endless hn he, climb_of_endless (h.node hn) (h.endless he)]
    exact .same _
  · rw [climb_of_dangles hn hd]
    exact .mended (.node p) _
  · rw [climb_of_endsAt hn he, climb_of_endsAt (h.node hn) (h.endsAt he)]
    exact .same _

theorem focusedSpan_keeps (h : m.lookup.Extends n.lookup) (focus : Focus) (node : Node) :
    Keeps (m.lookup.focusedSpan focus node) (n.lookup.focusedSpan focus node) := by
  unfold Lookup.focusedSpan
  split
  · next name _ =>
    cases hname : m.lookup.node name with
    | none => exact .mended (.node name) _
    | some a =>
      rw [h.node hname]
      exact .same _
  · exact .same _

theorem locateNode_keeps (h : m.lookup.Extends n.lookup) (focus : Focus) (id : NodeId) :
    Keeps (m.lookup.locateNode focus id) (n.lookup.locateNode focus id) := by
  cases hn : m.lookup.node id with
  | none =>
    rw [Lookup.locateNode_of_missing hn]
    exact .mended (.node id) _
  | some node =>
    rw [Lookup.locateNode_of_node hn, Lookup.locateNode_of_node (h.node hn)]
    refine (climb_keeps h hn).bind fun root => ?_
    cases root.anchor? with
    | none => exact .same _
    | some file => exact (focusedSpan_keeps h focus node).bind fun span => .same _

theorem declaringSymbol_keeps (h : m.lookup.Extends n.lookup) (id : SymbolId) :
    Keeps (m.lookup.declaringSymbol id) (n.lookup.declaringSymbol id) := by
  unfold Lookup.declaringSymbol
  cases hs : m.lookup.symbol id with
  | none => exact .mended (.symbol id) _
  | some symbol =>
    rw [h.symbol hs]
    dsimp only
    split
    · cases symbol.source with
      | none => exact .same _
      | some source =>
        dsimp only
        cases hd : m.lookup.symbol source with
        | none => exact .mended (.symbol source) _
        | some declaring =>
          rw [h.symbol hd]
          exact .same _
    · exact .same _

theorem locate_keeps (h : m.lookup.Extends n.lookup) (focus : Focus) (target : Target) :
    Keeps (m.lookup.locate focus target) (n.lookup.locate focus target) := by
  cases target with
  | location l => exact .same _
  | node id => exact locateNode_keeps h focus id
  | symbol id =>
    refine (declaringSymbol_keeps h id).bind fun symbol => ?_
    cases symbol.declarations with
    | nil => exact .same _
    | cons declaration rest => exact locateNode_keeps h focus declaration
  | type id =>
    show Keeps (m.lookup.locateType focus id) (n.lookup.locateType focus id)
    unfold Lookup.locateType
    cases ht : m.lookup.type id with
    | none => exact .mended (.type id) _
    | some type =>
      rw [h.type ht]
      dsimp only
      cases type.node with
      | none => exact .same _
      | some node => exact locateNode_keeps h focus node

/-- **Growing a model changes no answer but those for want of an entry.** After any additions a
location that the resolver answered is answered again, with the same file, span and flag; only a
stand-in is made anew, with the same path. An error that names no missing entry stays as well. -/
theorem answer_grow (m : Model) (edits : List ModelEdit) (h : ∀ e ∈ edits, e.Adds) (focus : Focus)
    (target : Target) (j i : Journal) :
    (∀ l, m.lookup.answer focus target j = .ok l →
      ∃ l', (m.grow edits).lookup.answer focus target i = .ok l' ∧
        (l' = l ∨ ∃ path, l = ⟨⟨⟨j.nextFile⟩, path, ""⟩, Span.dummy, true⟩ ∧
          l' = ⟨⟨⟨i.nextFile⟩, path, ""⟩, Span.dummy, true⟩)) ∧
    ∀ e, m.lookup.answer focus target j = .error e → ¬ e.IsUnknown →
      (m.grow edits).lookup.answer focus target i = .error e := by
  have hkeeps := locate_keeps (m.extends_grow h) focus target
  constructor
  · intro l hl
    rw [Lookup.answer_eq] at hl
    cases hw : m.lookup.locate focus target with
    | error e =>
      rw [hw] at hl
      cases hl
    | ok w =>
      rw [hw] at hl
      refine ⟨w.location ⟨i.nextFile⟩, ?_, ?_⟩
      · rw [Lookup.answer_eq, hkeeps.eq_of_ok hw]
        rfl
      · cases hl
        cases w with
        | found location => exact Or.inl rfl
        | missing fallback =>
          exact Or.inr ⟨fallback.placeholder.getD SourceLocation.unknownPath, rfl, rfl⟩
  · intro e he hknown
    exact Lookup.answer_eq_error_iff.mpr
      (hkeeps.eq_of_error (Lookup.answer_eq_error_iff.mp he) hknown)

/-- A circle of two nodes stays one when nodes are added below it. A node that was cut off from the
file above it is found once the node between them is there. -/
theorem answer_grow_samples :
    let file : SourceFile := ⟨⟨7⟩, "main.tsp", "model A \x7b\x7d"⟩
    let m : Model := ofParents [some 1, some 0, some 4]
    let edits : List ModelEdit :=
      [.node (.root .typeSpecScript file), .node (.child ⟨3⟩ .modelStatement ⟨0, 10⟩),
        .node (.root .modelStatement file), .node (.named ⟨0⟩ .modelProperty ⟨6, 7⟩ ⟨6, 6⟩),
        .symbol (.aliasOf "A" ⟨0⟩), .type ⟨.model, some ⟨2⟩⟩]
    (∀ e ∈ edits, e.Adds) ∧
    (m.grow edits).lookup.answer .whole (.node ⟨1⟩) {} = .error (.parentCycle ⟨1⟩) ∧
    m.lookup.answer .whole (.node ⟨2⟩) {} = .error (.unknownNode ⟨4⟩) ∧
    (m.grow edits).lookup.answer .whole (.node ⟨2⟩) {} = .ok ⟨file, Span.dummy, false⟩ := by
  intro file m edits
  have hadds : ∀ e ∈ edits, e.Adds := by
    simp [edits, ModelEdit.Adds, NodeEdit.Adds]
  have hknown : ¬ (LocationError.parentCycle ⟨1⟩).IsUnknown := by
    intro h
    cases h
  refine ⟨hadds, ?_, rfl, ?_⟩
  · exact (answer_grow m edits hadds .whole (.node ⟨1⟩) {} {}).2 _ rfl hknown
  · -- Two edits mend the chain, and the others keep the answer.
    have hmended : (m.grow (edits.take 2)).lookup.answer .whole (.node ⟨2⟩) {} =
        .ok ⟨file, Span.dummy, false⟩ := rfl
    have hlater : ∀ e ∈ edits.drop 2, e.Adds := fun e he => hadds e (List.mem_of_mem_drop he)
    obtain ⟨l, hl, rfl | ⟨path, hstandIn, _⟩⟩ := (answer_grow (m.grow (edits.take 2))
      (edits.drop 2) hlater .whole (.node ⟨2⟩) {} {}).1 _ hmended
    · exact hl
    · exact absurd (congrArg SourceLocation.isSynthetic hstandIn) Bool.false_ne_true

end Model

end SourceDiagnostics
