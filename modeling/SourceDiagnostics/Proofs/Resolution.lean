import SourceDiagnostics.Proofs.LocationText
import SourceDiagnostics.Proofs.NodeResolution
import SourceDiagnostics.Proofs.Separators

/-!
What resolution makes of any target in any model, however little the model fits together.

`Lookup.Starts` leads from a target to the node that it is located by, `Lookup.Covers` from a node
to its span. Together with the chains of parents they say where a real location comes from
(`Lookup.Places`); `SourceLocation.StandsIn` says what there is to a synthetic one.

* `Lookup.places_of_locate`: a location that is found in the model is placed there by it;
* `LocationError.path_injective`: the path of a stand-in tells which error it stands for;
* `Lookup.resolve_total`: every target gets a location, which is the one or the other.
-/

namespace SourceDiagnostics

/-! ## Where locations come from -/

namespace Lookup

variable {m : Lookup} {focus : Focus} {target : Target}

/-- The target is located by the node. The declarations of an alias do not count, and neither does
the source of its source. -/
inductive Starts (m : Lookup) : Target → NodeId → Prop
  | node (id : NodeId) : Starts m (.node id) id
  | type {id : TypeId} {type : SemanticType} {node : NodeId} (h : m.type id = some type)
      (hnode : type.node = some node) : Starts m (.type id) node
  | symbol {id : SymbolId} {symbol : Symbol} {first : NodeId} {rest : List NodeId}
      (h : m.symbol id = some symbol) (husing : symbol.isUsing = false)
      (hfirst : symbol.declarations = first :: rest) : Starts m (.symbol id) first
  | alias {id source : SymbolId} {symbol declaring : Symbol} {first : NodeId} {rest : List NodeId}
      (h : m.symbol id = some symbol) (husing : symbol.isUsing = true)
      (hsource : symbol.source = some source) (hdeclaring : m.symbol source = some declaring)
      (hfirst : declaring.declarations = first :: rest) : Starts m (.symbol id) first

/-- The part of the node in focus has the span. -/
inductive Covers (m : Lookup) (node : Node) : Focus → Span → Prop
  | whole : Covers m node .whole node.span
  | unnamed (h : node.identifier = none) : Covers m node .name node.span
  | name {id : NodeId} {name : Node} (h : node.identifier = some id)
      (hname : m.node id = some name) : Covers m node .name name.span

/-- The location is where the model says that the target is: in the file of the last node above
the one that the target is located by, with the span of that one. -/
def Places (m : Lookup) (focus : Focus) (target : Target) (l : SourceLocation) : Prop :=
  ∃ id node k root, m.Starts target id ∧ m.node id = some node ∧ m.EndsAt id k root ∧
    root.kind.isSourceRoot = true ∧ root.file = some l.file ∧ m.Covers node focus l.span

theorem covers_of_focusedSpan {node : Node} {span : Span}
    (h : m.focusedSpan focus node = .ok span) : m.Covers node focus span := by
  cases focus with
  | whole =>
    cases h
    exact .whole
  | name =>
    cases hid : node.identifier with
    | none =>
      simp only [focusedSpan, hid, Except.ok.injEq] at h
      exact h ▸ .unnamed hid
    | some id =>
      cases hname : m.node id with
      | none => simp [focusedSpan, hid, hname] at h
      | some name =>
        simp only [focusedSpan, hid, hname, Except.ok.injEq] at h
        exact h ▸ .name hid hname

/-- Only a node that is found has a location, and its span is in the file of its root. -/
theorem locateNode_eq_found {id : NodeId} {l : SourceLocation}
    (h : m.locateNode focus id = .ok (.found l)) :
    l.isSynthetic = false ∧ ∃ node k root, m.node id = some node ∧ m.EndsAt id k root ∧
      root.anchor? = some l.file ∧ m.Covers node focus l.span := by
  cases hn : m.node id with
  | none => simp [locateNode_of_missing hn] at h
  | some node =>
    cases hc : m.climb id m.nodeCount node with
    | error e => simp [locateNode_of_climb_error hn hc] at h
    | ok root =>
      cases ha : root.anchor? with
      | none => simp [locateNode_of_anchor_none hn hc ha] at h
      | some file =>
        rw [locateNode_of_anchor hn hc ha] at h
        cases hs : m.focusedSpan focus node with
        | error e => simp [hs, Except.map] at h
        | ok span =>
          rw [hs] at h
          cases h
          obtain ⟨k, _, he⟩ := (climb_eq_ok_iff hn).mp hc
          exact ⟨rfl, node, k, root, rfl, he, ha, covers_of_focusedSpan hs⟩

theorem places_of_locateNode {id : NodeId} {l : SourceLocation} (hs : m.Starts target id)
    (h : m.locateNode focus id = .ok (.found l)) :
    l.isSynthetic = false ∧ m.Places focus target l := by
  obtain ⟨hl, node, k, root, hn, he, ha, hcovers⟩ := locateNode_eq_found h
  have hroot : root.kind.isSourceRoot = true ∧ root.file = some l.file := by
    simpa [Node.anchor?] using ha
  exact ⟨hl, id, node, k, root, hs, hn, he, hroot.1, hroot.2, hcovers⟩

/-- A symbol that is declared starts where the symbol that declares it does. -/
theorem starts_of_declaringSymbol {id : SymbolId} {declaring : Symbol} {first : NodeId}
    {rest : List NodeId} (h : m.declaringSymbol id = .ok declaring)
    (hfirst : declaring.declarations = first :: rest) : m.Starts (.symbol id) first := by
  cases hs : m.symbol id with
  | none => simp [declaringSymbol, hs] at h
  | some symbol =>
    cases husing : symbol.isUsing with
    | false =>
      simp [declaringSymbol, hs, husing] at h
      exact .symbol hs husing (h ▸ hfirst)
    | true =>
      cases hsource : symbol.source with
      | none => simp [declaringSymbol, hs, husing, hsource] at h
      | some source =>
        cases hd : m.symbol source with
        | none => simp [declaringSymbol, hs, husing, hsource, hd] at h
        | some declaring' =>
          simp [declaringSymbol, hs, husing, hsource, hd] at h
          exact .alias hs husing hsource hd (h ▸ hfirst)

/-- The focus has a say only in the node that a target is located by. -/
theorem locate_cases (m : Lookup) (target : Target) :
    (∃ l, target = .location l) ∨ (∃ e, ∀ focus, m.locate focus target = .error e) ∨
      (∃ f, ∀ focus, m.locate focus target = .ok (.missing f)) ∨
      ∃ id, m.Starts target id ∧ ∀ focus, m.locate focus target = m.locateNode focus id := by
  cases target with
  | location l => exact Or.inl ⟨l, rfl⟩
  | node id => exact Or.inr (Or.inr (Or.inr ⟨id, .node id, fun _ => rfl⟩))
  | symbol id =>
    cases hd : m.declaringSymbol id with
    | error e =>
      refine Or.inr (Or.inl ⟨e, fun focus => ?_⟩)
      simp only [locate, locateSymbol, hd, bind, Except.bind]
    | ok declaring =>
      cases hfirst : declaring.declarations with
      | nil =>
        refine Or.inr (Or.inr (Or.inl ⟨.undeclaredSymbol id declaring.name, fun focus => ?_⟩))
        simp only [locate, locateSymbol, hd, hfirst, bind, Except.bind]
        rfl
      | cons first rest =>
        have hs := starts_of_declaringSymbol hd hfirst
        refine Or.inr (Or.inr (Or.inr ⟨first, hs, fun focus => ?_⟩))
        simp only [locate, locateSymbol, hd, hfirst, bind, Except.bind]
  | type id =>
    cases ht : m.type id with
    | none =>
      refine Or.inr (Or.inl ⟨.unknownType id, fun focus => ?_⟩)
      simp only [locate, locateType, ht]
    | some type =>
      cases hnode : type.node with
      | none =>
        refine Or.inr (Or.inr (Or.inl ⟨.nodelessType id type.kind, fun focus => ?_⟩))
        simp only [locate, locateType, ht, hnode]
      | some node =>
        refine Or.inr (Or.inr (Or.inr ⟨node, .type ht hnode, fun focus => ?_⟩))
        simp only [locate, locateType, ht, hnode]

/-- **A location that is found is placed by the model.** -/
theorem places_of_locate {l : SourceLocation} (htarget : ∀ l, target ≠ .location l)
    (h : m.locate focus target = .ok (.found l)) :
    l.isSynthetic = false ∧ m.Places focus target l := by
  rcases m.locate_cases target with ⟨l', hl⟩ | ⟨e, he⟩ | ⟨f, hf⟩ | ⟨id, hs, hid⟩
  · exact absurd hl (htarget l')
  · rw [he] at h
    cases h
  · rw [hf] at h
    cases h
  · rw [hid] at h
    exact places_of_locateNode hs h

end Lookup

/-! ## The paths of stand-ins -/

theorem Id.inspect_injective {e : Entity} : Function.Injective (Id.inspect (e := e)) := by
  intro a b h
  have htext : toString a.index = toString b.index := by
    simpa [inspect, Text.applied] using h
  cases a
  cases b
  exact congrArg Id.mk (toList_toString_inj.mp (congrArg String.toList htext))

namespace LocationError

/-- The letter that the message begins with. -/
def initial : LocationError → Char
  | .unknownNode _ => 'n'
  | .unknownSymbol _ => 's'
  | .unknownType _ => 't'
  | .missingUsingSource _ => 'u'
  | .parentCycle _ => 'p'

theorem getElem?_message (e : LocationError) : e.message.toList[0]? = some e.initial := by
  unfold message
  cases e <;> simp [initial]

/-- A message tells the error: its first letter the kind, and the rest the id. -/
theorem message_injective : Function.Injective message := by
  intro a b h
  have hinitial : a.initial = b.initial := by
    have hletter := congrArg (fun s => s.toList[0]?) h
    simpa only [getElem?_message, Option.some.injEq] using hletter
  unfold message at h
  cases a <;> cases b <;> simp only [initial, Char.reduceEq] at hinitial
  all_goals
    simp only [String.append_left_inj, String.append_right_inj] at h
    rw [Id.inspect_injective h]

theorem path_injective : Function.Injective path := fun _ _ h =>
  message_injective ((String.append_right_inj _).mp ((String.append_left_inj _).mp h))

/-- Behind what all the paths begin with, the message begins. -/
theorem getElem?_path (e : LocationError) : e.path.toList[20]? = some e.initial := by
  have hbegin : "<unknown location - ".toList.length = 20 := by decide +kernel
  have hlt : 0 < e.message.toList.length := (List.getElem?_eq_some_iff.mp e.getElem?_message).1
  unfold path
  rw [String.toList_append, String.toList_append, List.append_assoc,
    List.getElem?_append_right (by omega), hbegin, List.getElem?_append_left hlt, getElem?_message]

/-- No error reads like a target that the model only has nothing to say about. -/
theorem path_ne_unknownPath (e : LocationError) : e.path ≠ SourceLocation.unknownPath := by
  intro h
  have hletter : SourceLocation.unknownPath.toList[20]? = none := by decide +kernel
  simp [← h, getElem?_path] at hletter

theorem path_ne_unboundPath (e : LocationError) : e.path ≠ Fallback.unboundPath := by
  intro h
  have hletter : Fallback.unboundPath.toList[20]? = some 'c' := by decide +kernel
  rw [← h, getElem?_path, Option.some.injEq] at hletter
  cases e <;> simp [initial] at hletter

theorem path_ne_placeholder (e : LocationError) (f : Fallback) :
    e.path ≠ f.placeholder.getD SourceLocation.unknownPath := by
  unfold Fallback.placeholder
  split
  · exact e.path_ne_unboundPath
  · exact e.path_ne_unknownPath

end LocationError

/-! ## Stand-ins -/

/-- A location that stands in for a real one, made between the journals `j` and `i`: it points at
the start of an empty file, which is new, and its path says that the location is not known. -/
structure SourceLocation.StandsIn (l : SourceLocation) (j i : Journal) : Prop where
  isSynthetic : l.isSynthetic = true
  content : l.file.content = ""
  span : l.span = Span.dummy
  identity : l.file.id = ⟨j.nextFile⟩
  used : i.nextFile = j.nextFile + 1
  path : ∃ rest, l.path = "<unknown location" ++ rest
  text : l.text = .ok (l.path ++ ":1:1")

theorem Fallback.standsIn (f : Fallback) (j : Journal) :
    (f.settle.run j).1.StandsIn j (f.settle.run j).2 := by
  obtain ⟨fields, hrun⟩ := f.run_settle
  rw [hrun]
  refine ⟨rfl, rfl, rfl, rfl, rfl, ?_, SourceLocation.text_of_empty rfl rfl⟩
  change ∃ rest, f.placeholder.getD SourceLocation.unknownPath = _
  unfold placeholder
  split
  · exact ⟨" - cannot obtain source location of unbound node - please report a compiler bug>",
      by decide +kernel⟩
  · exact ⟨">", by decide +kernel⟩

theorem LocationError.standsIn (e : LocationError) (target : Target) (j : Journal) :
    ((e.settle target).run j).1.StandsIn j ((e.settle target).run j).2 := by
  obtain ⟨fields, hrun⟩ := e.run_settle target
  rw [hrun]
  refine ⟨rfl, rfl, rfl, rfl, rfl, ⟨" - " ++ e.message ++ ">", ?_⟩,
    SourceLocation.text_of_empty rfl rfl⟩
  have hbegin : "<unknown location - " = "<unknown location" ++ " - " := by decide +kernel
  change "<unknown location - " ++ e.message ++ ">" = _
  simp only [hbegin, String.append_assoc]

/-! ## Resolution -/

namespace Lookup

/-- Resolving the target makes a location that stands in. -/
def FallsBack (m : Lookup) (focus : Focus) (target : Option Target) (j : Journal) : Prop :=
  ∃ l i, (m.resolve focus target).run j = (some l, i) ∧ l.StandsIn j i

theorem fallsBack_of_not_found {m : Lookup} {focus : Focus} {target : Target}
    (h : ∀ l, m.locate focus target ≠ .ok (.found l)) (j : Journal) :
    m.FallsBack focus (some target) j := by
  rcases m.resolve_cases focus target j with ⟨e, _, hrun⟩ | ⟨l, hl, _⟩ | ⟨f, _, hrun⟩
  · exact ⟨_, _, hrun, e.standsIn target j⟩
  · exact absurd hl (h l)
  · exact ⟨_, _, hrun, f.standsIn j⟩

/-- **Resolution is total and invents no position.** Only no target gets no location, and a location
is its own. In any model every other target gets a location that the model places it at, or one that
stands in. The path of a stand-in gives an error if, and only if, that is what the model contradicts
the target with; without an error the location is the one that `tryResolve` answers. -/
theorem resolve_total (m : Lookup) (focus : Focus) (j : Journal) :
    (∀ target, ((m.resolve focus target).run j).1 = none ↔ target = none) ∧
    (∀ l, (m.resolve focus (some (.location l))).run j = (some l, j)) ∧
    ∀ target, (∀ l, target ≠ .location l) → ∃ l i,
      (m.resolve focus (some target)).run j = (some l, i) ∧
      (l.isSynthetic = false ∧ m.Places focus target l ∨ l.StandsIn j i) ∧
      (∀ e, m.answer focus target j = .error e ↔ l.isSynthetic = true ∧ l.path = e.path) ∧
      ((∃ e, m.answer focus target j = .error e) ∨
        (m.tryResolve focus target).run j = (.ok l, i)) := by
  refine ⟨?_, fun l => rfl, ?_⟩
  · intro target
    cases target with
    | none => exact iff_of_true rfl rfl
    | some target =>
      obtain ⟨l, i, hrun⟩ := m.exists_run_resolve focus target j
      rw [hrun]
      exact iff_of_false (Option.some_ne_none l) (Option.some_ne_none target)
  · intro target htarget
    simp only [answer_eq_error_iff]
    rcases m.resolve_cases focus target j with ⟨e, hl, hrun⟩ | ⟨l, hl, hrun⟩ | ⟨f, hl, hrun⟩
    · -- An error: the path that stands in gives this error and no other.
      have hpath : ((e.settle target).run j).1.path = e.path := rfl
      refine ⟨_, _, hrun, Or.inr (e.standsIn target j), fun e' => ?_, Or.inl ⟨e, hl⟩⟩
      rw [hl, hpath]
      constructor
      · intro h
        exact ⟨rfl, congrArg LocationError.path (Except.error.inj h)⟩
      · intro h
        exact congrArg Except.error (LocationError.path_injective h.2)
    · have hfound := places_of_locate htarget hl
      refine ⟨l, j, hrun, Or.inl hfound, fun e => ?_, Or.inr (run_tryResolve_of_found hl)⟩
      simp [hl, hfound.1]
    · have hpath : ((f.settle).run j).1.path = f.placeholder.getD SourceLocation.unknownPath := by
        obtain ⟨fields, hsettle⟩ := f.run_settle
        rw [hsettle]
        rfl
      refine ⟨_, _, hrun, Or.inr (f.standsIn j), fun e => ?_, Or.inr (run_tryResolve_of_missing hl)⟩
      rw [hl, hpath]
      refine iff_of_false (by simp) fun h => e.path_ne_placeholder f h.2.symm

/-- An alias that declares something else than its source does, and one without a source. -/
theorem resolve_total_samples :
    let file : SourceFile := ⟨⟨7⟩, "main.tsp", "model A {}"⟩
    let m : Model := {
      nodes := ⟨#[{ kind := .typeSpecScript, span := ⟨0, 10⟩, file := some file },
        { kind := .modelStatement, span := ⟨0, 10⟩, parent := some ⟨0⟩, identifier := some ⟨2⟩ },
        { kind := .identifier, span := ⟨6, 7⟩, parent := some ⟨1⟩ },
        { kind := .usingStatement, span := ⟨0, 4⟩, parent := some ⟨3⟩ }]⟩
      symbols := ⟨#[⟨"A", .empty, [⟨1⟩], none⟩, ⟨"B", .usingAlias, [⟨3⟩], some ⟨0⟩⟩,
        ⟨"C", .usingAlias, [⟨1⟩], none⟩]⟩ }
    ((m.lookup.resolve .name (some (.symbol ⟨1⟩))).run {} = (some ⟨file, ⟨6, 7⟩, false⟩, {}) ∧
      m.lookup.Places .name (.symbol ⟨1⟩) ⟨file, ⟨6, 7⟩, false⟩) ∧
    ∃ l i, (m.lookup.resolve .name (some (.symbol ⟨2⟩))).run {} = (some l, i) ∧
      l.StandsIn {} i ∧ l.path = (LocationError.missingUsingSource ⟨2⟩).path := by
  intro file m
  have hsymbol : ∀ id l, Target.symbol id ≠ .location l := by
    intro id l h
    cases h
  have hfound : (m.lookup.resolve .name (some (.symbol ⟨1⟩))).run {} =
      (some ⟨file, ⟨6, 7⟩, false⟩, {}) := by
    have hdeclaring : m.lookup.declaringSymbol ⟨1⟩ = .ok ⟨"A", .empty, [⟨1⟩], none⟩ :=
      if_pos (by decide)
    refine run_resolve_of_found ?_ _
    rw [locate, locateSymbol, hdeclaring]
    rfl
  have hfails : m.lookup.answer .name (.symbol ⟨2⟩) {} = .error (.missingUsingSource ⟨2⟩) := by
    have hdeclaring : m.lookup.declaringSymbol ⟨2⟩ = .error (.missingUsingSource ⟨2⟩) :=
      if_pos (by decide)
    rw [answer_eq_error_iff, locate, locateSymbol, hdeclaring]
    rfl
  refine ⟨⟨hfound, ?_⟩, ?_⟩
  · obtain ⟨l, i, hrun, hplaces, _⟩ :=
      (resolve_total m.lookup .name {}).2.2 (.symbol ⟨1⟩) (hsymbol _)
    cases hrun.symm.trans hfound
    rcases hplaces with hplaces | hstands
    · exact hplaces.2
    · exact absurd hstands.isSynthetic Bool.false_ne_true
  · obtain ⟨l, i, hrun, hplaces, herror, _⟩ :=
      (resolve_total m.lookup .name {}).2.2 (.symbol ⟨2⟩) (hsymbol _)
    obtain ⟨hsynthetic, hpath⟩ := (herror _).mp hfails
    rcases hplaces with hplaces | hstands
    · exact absurd (hplaces.1.symm.trans hsynthetic) Bool.false_ne_true
    · exact ⟨l, i, hrun, hstands, hpath⟩

end Lookup

end SourceDiagnostics
