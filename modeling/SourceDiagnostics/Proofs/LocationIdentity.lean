import SourceDiagnostics.Proofs.NameFocus

/-!
Which resolved locations are equal.

Locations are compared by the identity of their files, and each stand-in gets a new file. So what a
result is equal to depends on how it came about: from a location that was handed in, from the model,
or by falling back (`Lookup.FallsBack`). The files of the first two kinds were made before
(`Journal.Knows`), the file of a stand-in was not.

* `Lookup.knows_of_run`: a result points at a file that was made by then;
* `SourceLocation.StandsIn.not_knows`: a stand-in does not point at one that was made before;
* `Lookup.equal_by_identity`: which results are equal, for any two targets, for one target twice, for
  two targets located by one node, and for nodes in two files.
-/

namespace SourceDiagnostics

/-! ## Equal locations -/

namespace SourceLocation

variable {l l' : SourceLocation} {j i : Journal}

/-- The locations point at the same span of the same file, and both or neither stand in. -/
structure Coincides (l l' : SourceLocation) : Prop where
  file : l.file.id = l'.file.id
  span : l.span = l'.span
  isSynthetic : l.isSynthetic = l'.isSynthetic

theorem beq_iff_coincides : (l == l') = true ↔ l.Coincides l' := by
  have hbeq : (l == l') = (l.file.id == l'.file.id && (l.span == l'.span &&
      l.isSynthetic == l'.isSynthetic)) := rfl
  simp only [hbeq, Bool.and_eq_true, beq_iff_eq]
  exact ⟨fun ⟨hfile, hspan, hsynthetic⟩ => ⟨hfile, hspan, hsynthetic⟩,
    fun h => ⟨h.file, h.span, h.isSynthetic⟩⟩

theorem Coincides.refl (l : SourceLocation) : l.Coincides l := ⟨rfl, rfl, rfl⟩

theorem Coincides.symm (h : l.Coincides l') : l'.Coincides l :=
  ⟨h.file.symm, h.span.symm, h.isSynthetic.symm⟩

end SourceLocation

/-! ## What a model is expected to be -/

/-- The file was made before: the journal gives its identity to no other. -/
def Journal.Knows (j : Journal) (file : SourceFile) : Prop := file.id.serial < j.nextFile

instance (j : Journal) (file : SourceFile) : Decidable (j.Knows file) :=
  inferInstanceAs (Decidable (file.id.serial < j.nextFile))

/-- The files that the model stands for were made before. -/
def Lookup.KnownTo (m : Lookup) (j : Journal) : Prop :=
  ∀ id node file, m.node id = some node → node.file = some file → j.Knows file

/-- The file of the location was made before, if the target is one. So the target is none of the
stand-ins that resolving makes from now on. -/
def Target.KnownTo (t : Target) (j : Journal) : Prop := ∀ l, t = .location l → j.Knows l.file

/-- The bound on the links is one: no chain that ends is longer. -/
def Lookup.Bounded (m : Lookup) : Prop := ∀ id k root, m.EndsAt id k root → k ≤ m.nodeCount

theorem Model.bounded (m : Model) : m.lookup.Bounded :=
  fun _ _ _ h => Nat.le_of_lt (lt_size_of_endsAt h)

theorem Model.knownTo_of_entries {m : Model} {j : Journal}
    (h : ∀ node ∈ m.nodes.entries, ∀ file, node.file = some file → j.Knows file) :
    m.lookup.KnownTo j :=
  fun _ node file hn hfile => h node (Array.mem_of_getElem? hn) file hfile

namespace SourceLocation

variable {l l' : SourceLocation} {j i : Journal}

theorem Coincides.knows (h : l.Coincides l') (hl : j.Knows l.file) : j.Knows l'.file := by
  unfold Journal.Knows at hl ⊢
  rwa [← h.file]

namespace StandsIn

theorem not_knows (h : l.StandsIn j i) : ¬ j.Knows l.file := by
  unfold Journal.Knows
  rw [h.identity]
  exact Nat.lt_irrefl _

theorem knows (h : l.StandsIn j i) : i.Knows l.file := by
  unfold Journal.Knows
  rw [h.identity, h.used]
  exact Nat.lt_succ_self _

end StandsIn

end SourceLocation

namespace Lookup

variable {m : Lookup} {focus : Focus} {target : Option Target} {t : Target} {id : NodeId}
  {node : Node} {file : SourceFile} {j i : Journal} {l : SourceLocation}

/-! ## Falling back -/

/-- A run that makes no file does not fall back. -/
theorem not_fallsBack_of_run {x : Option SourceLocation}
    (h : (m.resolve focus target).run j = (x, j)) : ¬ m.FallsBack focus target j := by
  rintro ⟨l, i, hrun, hstands⟩
  cases h.symm.trans hrun
  exact Nat.succ_ne_self _ hstands.used.symm

/-- A target is none, is found, or falls back, whenever it is resolved. -/
theorem outcomes (m : Lookup) (focus : Focus) (target : Option Target) :
    target = none ∨ (∃ t l, target = some t ∧ m.locate focus t = .ok (.found l)) ∨
      ∀ j, m.FallsBack focus target j := by
  cases target with
  | none => exact Or.inl rfl
  | some t =>
    by_cases h : ∃ l, m.locate focus t = .ok (.found l)
    · obtain ⟨l, hl⟩ := h
      exact Or.inr (Or.inl ⟨t, l, rfl, hl⟩)
    · exact Or.inr (Or.inr (fallsBack_of_not_found (not_exists.mp h)))

theorem exists_found_of_not_fallsBack (h : ¬ m.FallsBack focus (some t) j) :
    ∃ l, m.locate focus t = .ok (.found l) := by
  by_contra hnone
  exact h (fallsBack_of_not_found (not_exists.mp hnone) j)

theorem resolve_eq_none (h : (m.resolve focus target).run j = (none, i)) : target = none :=
  ((m.resolve_total focus j).1 target).mp (congrArg Prod.fst h)

/-! ## The files of results -/

theorem knows_of_found (hm : m.KnownTo j) (ht : t.KnownTo j)
    (h : m.locate focus t = .ok (.found l)) : j.Knows l.file := by
  by_cases hlocation : ∃ l', t = .location l'
  · obtain ⟨l', rfl⟩ := hlocation
    cases h
    exact ht l rfl
  · obtain ⟨_, _, _, _, root, _, _, ⟨p, _, hroot, _⟩, _, hfile, _⟩ :=
      places_of_locate (not_exists.mp hlocation) h
    exact hm p root l.file hroot hfile

theorem knows_of_run (hm : m.KnownTo j) (ht : ∀ t ∈ target, t.KnownTo j)
    (h : (m.resolve focus target).run j = (some l, i)) : i.Knows l.file := by
  rcases m.outcomes focus target with rfl | ⟨t, l', rfl, hfound⟩ | hback
  · cases h
  · cases (run_resolve_of_found hfound j).symm.trans h
    exact knows_of_found hm (ht t rfl) hfound
  · obtain ⟨l', i', hrun, hstands⟩ := hback j
    cases hrun.symm.trans h
    exact hstands.knows

/-! ## Targets located by a node -/

/-- Such a target is not a location. -/
theorem Starts.knownTo (hs : m.Starts t id) (j : Journal) : ∀ t' ∈ some t, t'.KnownTo j := by
  intro t' ht l hl
  cases ht
  cases hl
  cases hs

theorem locate_of_starts (hs : m.Starts t id) : m.locate focus t = m.locateNode focus id := by
  rcases hs with _ | ⟨htype, hnode⟩ | ⟨hsymbol, husing, hfirst⟩ |
    ⟨hsymbol, husing, hsource, hdeclaring, hfirst⟩
  · rfl
  · simp only [locate, locateType, htype, hnode]
  · simp [locate, locateSymbol, declaringSymbol, hsymbol, husing, hfirst, bind, Except.bind]
  · simp [locate, locateSymbol, declaringSymbol, hsymbol, husing, hsource, hdeclaring, hfirst, bind,
      Except.bind]

/-- The span of the part in focus is missing only where a name is. -/
theorem exists_focusedSpan (hname : focus = .name → ∀ ident, node.identifier = some ident →
    ∃ name, m.node ident = some name) : ∃ span, m.focusedSpan focus node = .ok span := by
  cases hspan : m.focusedSpan focus node with
  | ok span => exact ⟨span, rfl⟩
  | error e =>
    obtain ⟨ident, hident, hmissing, _⟩ := focusedSpan_eq_error hspan
    cases focus with
    | whole => cases hspan
    | name =>
      obtain ⟨name, hmem⟩ := hname rfl ident hident
      cases hmissing.symm.trans hmem

theorem exists_found_of_starts (hbounded : m.Bounded) (hn : m.node id = some node)
    (hb : m.BoundTo id file) (hname : focus = .name → ∀ ident, node.identifier = some ident →
      ∃ name, m.node ident = some name) :
    ∃ span, ∀ t, m.Starts t id → m.locate focus t = .ok (.found ⟨file, span, false⟩) := by
  obtain ⟨span, hspan⟩ := exists_focusedSpan hname
  obtain ⟨k, root, he, ha⟩ := hb
  refine ⟨span, fun t hs => ?_⟩
  have hc : m.climb id m.nodeCount node = .ok root :=
    climb_of_endsAt hn he (hbounded id k root he)
  rw [locate_of_starts hs, locateNode_of_anchor hn hc ha, hspan]
  rfl

theorem file_of_found (hs : m.Starts t id) (hb : m.BoundTo id file)
    (h : m.locate focus t = .ok (.found l)) : l.file = file := by
  rw [locate_of_starts hs] at h
  obtain ⟨_, node, k, root, hn, he, ha, _⟩ := locateNode_eq_found h
  obtain ⟨k', root', he', ha'⟩ := hb
  cases he.unique hn he'
  exact Option.some.inj (ha.symm.trans ha')

/-! ## Equal results -/

section Equal

variable {a b : Option Target} {x y : Option SourceLocation} {i' : Journal} {l' : SourceLocation}

theorem beq_iff_exists : (x == y) = true ↔ (x = none ∧ y = none) ∨
    ∃ l l', x = some l ∧ y = some l' ∧ l.Coincides l' := by
  cases x <;> cases y <;> simp [SourceLocation.beq_iff_coincides]

/-- What was made before the first result is not the second stand-in. -/
theorem not_fallsBack_second (hm : m.KnownTo j) (ha : ∀ t ∈ a, t.KnownTo j)
    (hx : (m.resolve focus a).run j = (some l, i))
    (hy : (m.resolve focus b).run i = (some l', i')) (h : l.Coincides l') :
    ¬ m.FallsBack focus b i := by
  rintro ⟨l'', k, hrun, hstands⟩
  cases hy.symm.trans hrun
  exact hstands.not_knows (h.knows (knows_of_run hm ha hx))

/-- Nor is a second result that does not fall back the first stand-in. -/
theorem not_fallsBack_first (hm : m.KnownTo j) (hb : ∀ t ∈ b, t.KnownTo j)
    (hx : (m.resolve focus a).run j = (some l, i))
    (hy : (m.resolve focus b).run i = (some l', i')) (h : l.Coincides l')
    (hsecond : ¬ m.FallsBack focus b i) : ¬ m.FallsBack focus a j := by
  rintro ⟨l'', k, hrun, hstands⟩
  cases hx.symm.trans hrun
  cases b with
  | none => cases hy
  | some t =>
    obtain ⟨l'', hfound⟩ := exists_found_of_not_fallsBack hsecond
    cases (run_resolve_of_found hfound i).symm.trans hy
    exact hstands.not_knows (h.symm.knows (knows_of_found hm (hb t rfl) hfound))

theorem beq_iff (hm : m.KnownTo j) (ha : ∀ t ∈ a, t.KnownTo j) (hb : ∀ t ∈ b, t.KnownTo j)
    (hx : (m.resolve focus a).run j = (x, i)) (hy : (m.resolve focus b).run i = (y, i')) :
    (x == y) = true ↔ (a = none ∧ b = none) ∨
      (¬ m.FallsBack focus a j ∧ ¬ m.FallsBack focus b i) ∧
        ∃ l l', x = some l ∧ y = some l' ∧ l.Coincides l' := by
  rw [beq_iff_exists]
  constructor
  · rintro (⟨rfl, rfl⟩ | ⟨l, l', rfl, rfl, h⟩)
    · exact Or.inl ⟨resolve_eq_none hx, resolve_eq_none hy⟩
    · have hsecond := not_fallsBack_second hm ha hx hy h
      exact Or.inr ⟨⟨not_fallsBack_first hm hb hx hy h hsecond, hsecond⟩, l, l', rfl, rfl, h⟩
  · rintro (⟨rfl, rfl⟩ | ⟨_, h⟩)
    · cases hx
      cases hy
      exact Or.inl ⟨rfl, rfl⟩
    · exact Or.inr h

/-- A target that falls back does so again, and into another file. -/
theorem beq_twice_iff (hx : (m.resolve focus a).run j = (x, i))
    (hy : (m.resolve focus a).run i = (y, i')) : (x == y) = true ↔ ¬ m.FallsBack focus a j := by
  rw [beq_iff_exists]
  rcases m.outcomes focus a with rfl | ⟨t, l, rfl, hfound⟩ | hback
  · cases hx
    cases hy
    exact iff_of_true (Or.inl ⟨rfl, rfl⟩) (not_fallsBack_of_run rfl)
  · have hrun := run_resolve_of_found hfound j
    cases hx.symm.trans hrun
    cases hy.symm.trans hrun
    exact iff_of_true (Or.inr ⟨l, l, rfl, rfl, .refl l⟩) (not_fallsBack_of_run hrun)
  · refine iff_of_false ?_ (not_not_intro (hback j))
    obtain ⟨l, _, hrun, hstands⟩ := hback j
    cases hx.symm.trans hrun
    obtain ⟨l', _, hrun', hstands'⟩ := hback i
    cases hy.symm.trans hrun'
    rintro (⟨hnone, _⟩ | ⟨_, _, hl, hl', h⟩)
    · cases hnone
    · cases hl
      cases hl'
      exact hstands'.not_knows (h.knows hstands.knows)

end Equal

/-- **Resolved locations are equal by what they point at, and a stand-in is equal to no other.** Two
targets that were made before get equal results if, and only if, there are no targets, or neither
falls back and the results point at the same span of the same file and both or neither are
synthetic. So one target gets equal results both times exactly if it does not fall back. All targets
that are located by one node get equal results, if the node is bound to a file and its name is there
where it is asked for. Targets located by nodes in different files never do, however much the files
are alike. -/
theorem equal_by_identity (m : Lookup) (focus : Focus) (j : Journal) :
    (∀ a b x y i k, m.KnownTo j → (∀ t ∈ a, t.KnownTo j) → (∀ t ∈ b, t.KnownTo j) →
      (m.resolve focus a).run j = (x, i) → (m.resolve focus b).run i = (y, k) →
      ((x == y) = true ↔ (a = none ∧ b = none) ∨
        (¬ m.FallsBack focus a j ∧ ¬ m.FallsBack focus b i) ∧
          ∃ l l', x = some l ∧ y = some l' ∧ l.Coincides l')) ∧
    (∀ a x y i k, (m.resolve focus a).run j = (x, i) → (m.resolve focus a).run i = (y, k) →
      ((x == y) = true ↔ ¬ m.FallsBack focus a j)) ∧
    (∀ id node file, m.Bounded → m.node id = some node → m.BoundTo id file →
      (focus = .name → ∀ ident, node.identifier = some ident →
        ∃ name, m.node ident = some name) →
      ∀ t t' x y i k, m.Starts t id → m.Starts t' id →
        (m.resolve focus (some t)).run j = (x, i) → (m.resolve focus (some t')).run i = (y, k) →
        (x == y) = true ∧ ∃ l, x = some l ∧ l.file = file ∧ l.isSynthetic = false) ∧
    ∀ id id' file file' t t' x y i k, m.KnownTo j → m.BoundTo id file → m.BoundTo id' file' →
      file.id ≠ file'.id → m.Starts t id → m.Starts t' id' →
      (m.resolve focus (some t)).run j = (x, i) → (m.resolve focus (some t')).run i = (y, k) →
      (x == y) = false := by
  refine ⟨fun a b x y i k hm ha hb hx hy => beq_iff hm ha hb hx hy,
    fun a x y i k hx hy => beq_twice_iff hx hy, ?_, ?_⟩
  · intro id node file hbounded hn hb hname t t' x y i k hs hs' hx hy
    obtain ⟨span, hfound⟩ := exists_found_of_starts hbounded hn hb hname
    cases hx.symm.trans (run_resolve_of_found (hfound t hs) j)
    cases hy.symm.trans (run_resolve_of_found (hfound t' hs') j)
    exact ⟨beq_iff_exists.mpr (Or.inr ⟨_, _, rfl, rfl, .refl _⟩), _, rfl, rfl, rfl⟩
  · intro id id' file file' t t' x y i k hm hb hb' hne hs hs' hx hy
    rw [Bool.eq_false_iff]
    intro h
    rcases (beq_iff hm (hs.knownTo j) (hs'.knownTo j) hx hy).mp h with
      ⟨hnone, _⟩ | ⟨⟨hback, hback'⟩, l, l', rfl, rfl, hsame⟩
    · cases hnone
    · -- Neither falls back, so each is in the file that its node is bound to.
      obtain ⟨_, hfound⟩ := exists_found_of_not_fallsBack hback
      obtain ⟨_, hfound'⟩ := exists_found_of_not_fallsBack hback'
      cases hx.symm.trans (run_resolve_of_found hfound j)
      cases hy.symm.trans (run_resolve_of_found hfound' j)
      refine hne ?_
      rw [← file_of_found hs hb hfound, ← file_of_found hs' hb' hfound']
      exact hsame.file

/-- An alias and the node that it leads to, two nodes in files that look the same, a node without a
file, and a location that was handed in. -/
theorem equal_by_identity_samples :
    let file : SourceFile := ⟨⟨0⟩, "main.tsp", "model A;"⟩
    let twin : SourceFile := ⟨⟨1⟩, "main.tsp", "model A;"⟩
    let m : Model := {
      nodes := ⟨#[{ kind := .typeSpecScript, span := ⟨0, 8⟩, file := some file },
        { kind := .modelStatement, span := ⟨0, 8⟩, parent := some ⟨0⟩ },
        { kind := .typeSpecScript, span := ⟨0, 8⟩, file := some twin },
        { kind := .modelStatement, span := ⟨0, 8⟩, parent := some ⟨2⟩ },
        { kind := .modelStatement, span := ⟨0, 8⟩ }]⟩
      symbols := ⟨#[⟨"A", .empty, [⟨1⟩], none⟩, ⟨"B", .usingAlias, [], some ⟨0⟩⟩]⟩ }
    let equal (t t' : Target) : Bool :=
      let (x, i) := (m.lookup.resolve .name (some t)).run ⟨2, []⟩
      x == ((m.lookup.resolve .name (some t')).run i).1
    equal (.symbol ⟨1⟩) (.node ⟨1⟩) = true ∧ equal (.node ⟨1⟩) (.node ⟨3⟩) = false ∧
      equal (.node ⟨4⟩) (.node ⟨4⟩) = false ∧
      equal (.node ⟨1⟩) (.location ⟨file, ⟨0, 8⟩, false⟩) = true := by
  intro file twin m equal
  obtain ⟨hpair, htwice, hone, htwo⟩ := equal_by_identity m.lookup .name ⟨2, []⟩
  have hm : m.lookup.KnownTo ⟨2, []⟩ := by
    refine Model.knownTo_of_entries ?_
    simp [m, file, twin, Journal.Knows]
  have hfile : m.lookup.BoundTo ⟨1⟩ file := ⟨1, _, ⟨⟨0⟩, rfl, rfl, rfl⟩, rfl⟩
  have htwin : m.lookup.BoundTo ⟨3⟩ twin := ⟨1, _, ⟨⟨2⟩, rfl, rfl, rfl⟩, rfl⟩
  have hnode : m.lookup.Starts (.node ⟨1⟩) ⟨1⟩ := .node ⟨1⟩
  have halias : m.lookup.Starts (.symbol ⟨1⟩) ⟨1⟩ := .alias rfl (by decide) rfl rfl rfl
  refine ⟨?_, ?_, ?_, ?_⟩
  · refine (hone ⟨1⟩ _ file m.bounded rfl hfile ?_ _ _ _ _ _ _ halias hnode rfl rfl).1
    intro _ ident hident
    cases hident
  · refine htwo ⟨1⟩ ⟨3⟩ file twin _ _ _ _ _ _ hm hfile htwin ?_ hnode (.node ⟨3⟩) rfl rfl
    decide
  · have hback : m.lookup.FallsBack .name (some (.node ⟨4⟩)) ⟨2, []⟩ :=
      fallsBack_of_not_found (fun l h => by cases h) _
    refine Bool.eq_false_iff.mpr fun h => ?_
    exact (htwice (some (.node ⟨4⟩)) _ _ _ _ rfl rfl).mp h hback
  · refine (hpair (some (.node ⟨1⟩)) (some (.location ⟨file, ⟨0, 8⟩, false⟩)) _ _ _ _ hm
      (hnode.knownTo _) ?_ rfl rfl).mpr (Or.inr ⟨⟨?_, ?_⟩, _, _, rfl, rfl, .refl _⟩)
    · intro t ht l hl
      cases ht
      cases hl
      decide
    · exact not_fallsBack_of_run rfl
    · exact not_fallsBack_of_run rfl

end Lookup

end SourceDiagnostics
