import SourceDiagnostics.Proofs.Emission
import SourceDiagnostics.Proofs.Resolution

/-!
What is announced while targets are resolved and diagnostics are logged as events.

The value of a resolution does not show what was announced on the way to it. `Lookup.Announces` says
what is, whatever was announced before.

* `Lookup.announces_cases`: each way to a location, with its announcement;
* `Diagnostic.run_log_event`: one diagnostic is announced after its fallback;
* `fallbacks_announced`: each fallback is announced once, nothing else is, and the announcements of
  a list of diagnostics are those of its members, one after the other.
-/

namespace SourceDiagnostics

variable {m : Lookup} {focus : Focus} {target : Option Target} {t : Target} {d : Diagnostic}
  {l : SourceLocation} {j i : Journal}

/-! ## Resolving -/

namespace Lookup

/-- Resolving the target announces these events and no others. -/
def Announces (m : Lookup) (focus : Focus) (target : Option Target) (es : List Event) : Prop :=
  ∀ j : Journal, ((m.resolve focus target).run j).2.events = j.events ++ es

theorem announces_none (m : Lookup) (focus : Focus) : m.Announces focus none [] :=
  fun _ => (List.append_nil _).symm

theorem announces_of_found (h : m.locate focus t = .ok (.found l)) :
    m.Announces focus (some t) [] := by
  intro j
  rw [run_resolve_of_found h, List.append_nil]

theorem announces_of_missing {f : Fallback} (h : m.locate focus t = .ok (.missing f)) :
    ∃ event, event.level = .debug ∧ m.Announces focus (some t) [event] := by
  obtain ⟨fields, hsettle⟩ := f.run_settle
  refine ⟨⟨.debug, fields⟩, rfl, fun j => ?_⟩
  rw [run_resolve_of_missing h, hsettle]
  rfl

theorem announces_of_error {e : LocationError} (h : m.locate focus t = .error e) :
    ∃ event, event.level = .warn ∧ m.Announces focus (some t) [event] := by
  obtain ⟨fields, hsettle⟩ := e.run_settle t
  refine ⟨⟨.warn, fields⟩, rfl, fun j => ?_⟩
  rw [run_resolve_of_error h, hsettle]
  rfl

/-- What a target is resolved to tells what was announced, unless it was a location already. -/
theorem announces_cases (m : Lookup) (focus : Focus) (t : Target) :
    (∃ e, m.locate focus t = .error e ∧
      ∃ event, event.level = .warn ∧ m.Announces focus (some t) [event]) ∨
    (∃ l, m.locate focus t = .ok (.found l) ∧ m.Announces focus (some t) []) ∨
    ∃ f, m.locate focus t = .ok (.missing f) ∧
      ∃ event, event.level = .debug ∧ m.Announces focus (some t) [event] := by
  cases h : m.locate focus t with
  | error e => exact Or.inl ⟨e, rfl, announces_of_error h⟩
  | ok w =>
    cases w with
    | found l => exact Or.inr (Or.inl ⟨l, rfl, announces_of_found h⟩)
    | missing f => exact Or.inr (Or.inr ⟨f, rfl, announces_of_missing h⟩)

theorem exists_announces (m : Lookup) (focus : Focus) (target : Option Target) :
    ∃ es, m.Announces focus target es := by
  cases target with
  | none => exact ⟨[], m.announces_none focus⟩
  | some t =>
    rcases m.announces_cases focus t with ⟨_, _, event, _, h⟩ | ⟨_, _, h⟩ | ⟨_, _, event, _, h⟩
    · exact ⟨[event], h⟩
    · exact ⟨[], h⟩
    · exact ⟨[event], h⟩

/-- Answers without an error: a location that is found, or one that stands in. -/
theorem answer_eq_ok_iff : m.answer focus t j = .ok l ↔
    m.locate focus t = .ok (.found l) ∨
      ∃ f, m.locate focus t = .ok (.missing f) ∧ f.standIn ⟨j.nextFile⟩ = l := by
  rw [answer_eq]
  cases m.locate focus t with
  | error e => simp [Except.map]
  | ok w => cases w <;> simp [Except.map, Whereabouts.location]

end Lookup

/-- A location reads the same whenever its target is resolved. -/
theorem Lookup.text_resolve (m : Lookup) (focus : Focus) (target : Option Target) (j k : Journal) :
    ((m.resolve focus target).run j).1.map SourceLocation.text =
      ((m.resolve focus target).run k).1.map SourceLocation.text := by
  have htext : SourceLocation.text ∘ SourceLocation.anonymous = SourceLocation.text := rfl
  have h := congrArg (Option.map SourceLocation.text) (m.resolve_anonymous focus target j k)
  rwa [Option.map_map, Option.map_map, htext] at h

/-! ## Logging -/

namespace Diagnostic

/-- The location reads like this, whenever the target is resolved. Only no target has none. -/
def Reads (m : Lookup) (d : Diagnostic) (location : Option String) : Prop :=
  match d.target with
  | none => location = none
  | some t => ∃ text, location = some text ∧
      ∀ j, ∃ l i, (m.resolve .name (some t)).run j = (some l, i) ∧ l.text = .ok text

/-- The event of a diagnostic whose location reads `location`. -/
def event (d : Diagnostic) (location : Option String) : Event where
  level := match d.severity with
    | .error => .error
    | .warning => .warn
  fields := ("message", d.message) :: ("code", d.code.text) ::
    (location.map fun text => ("location", text)).toList

/-- What logging a diagnostic announces: its fallback, if it has one, and then itself. -/
def Announces (m : Lookup) (d : Diagnostic) (es : List Event) : Prop :=
  ∃ fallback location, m.Announces .name d.target fallback ∧ d.Reads m location ∧
    es = fallback ++ [d.event location]

/-- A diagnostic that can be formatted has a location that can be read. -/
theorem exists_reads {text : String} (h : d.line m .plain = .ok text) (j : Journal) :
    ∃ location, d.Reads m location ∧
      ((m.resolve .name d.target).run j).1.mapM SourceLocation.text = .ok location := by
  unfold Reads
  cases hd : d.target with
  | none => exact ⟨none, rfl, rfl⟩
  | some t =>
    obtain ⟨l, i, hl⟩ := m.exists_run_resolve .name t j
    have hformat : d.line m .plain = l.text.map _ :=
      congrArg Prod.fst ((d.run_format m j).symm.trans (d.run_format_of_target hd hl))
    cases ht : l.text with
    | error fault => simp [h, ht, Except.map] at hformat
    | ok shown =>
      refine ⟨some shown, ⟨shown, rfl, fun k => ?_⟩, ?_⟩
      · obtain ⟨l', i', hl'⟩ := m.exists_run_resolve .name t k
        have hsame := m.text_resolve .name (some t) k j
        rw [hl, hl'] at hsame
        exact ⟨l', i', hl', (Option.some.inj hsame).trans ht⟩
      · rw [hl, Option.mapM_some, ht]
        rfl

/-- The events of an entry: itself, once its location can be read. -/
theorem run_log_event {location : Option SourceLocation} {shown : Option String}
    (h : location.mapM SourceLocation.text = .ok shown) (j : Journal) :
    (LogSink.log EventSink.events (d.toEntry location)).run.run j =
      (.ok .events, { j with events := j.events ++ [d.event shown] }) := by
  have hread : (liftM ((d.toEntry location).location.mapM SourceLocation.text) :
      Checked (Option String)).run.run j = (.ok shown, j) :=
    (run_except _ j).trans (congrArg (·, j) h)
  obtain ⟨code, severity, message, target⟩ := d
  cases severity <;> exact run_bind_of_ok hread

end Diagnostic

/-- One step of logging as events, for a diagnostic that can be formatted. -/
theorem exists_run_log_entry {text : String} (h : d.line m .plain = .ok text) (j : Journal) :
    ∃ es i, d.Announces m es ∧ i.events = j.events ++ es ∧
      (LogSink.log EventSink.events ((d.entry m).run j).1).run.run ((d.entry m).run j).2 =
        (.ok .events, i) := by
  obtain ⟨fallback, hfallback⟩ := m.exists_announces .name d.target
  obtain ⟨location, hreads, hlocation⟩ := Diagnostic.exists_reads h j
  refine ⟨_, _, ⟨fallback, location, hfallback, hreads, rfl⟩, ?_, Diagnostic.run_log_event hlocation _⟩
  rw [d.run_entry, hfallback j, List.append_assoc]

theorem exists_run_log_events (ds : List Diagnostic) (j : Journal)
    (h : ∀ d ∈ ds, ∃ text, d.line m .plain = .ok text) :
    ∃ ess i, (logDiagnostics m EventSink.events ds).run.run j = (.ok .events, i) ∧
      List.Forall₂ (Diagnostic.Announces m) ds ess ∧ i.events = j.events ++ ess.flatten := by
  induction ds generalizing j with
  | nil => exact ⟨[], j, rfl, .nil, (List.append_nil _).symm⟩
  | cons d ds ih =>
    obtain ⟨⟨text, hd⟩, hds⟩ := List.forall_mem_cons.mp h
    obtain ⟨es, k, hes, hk, hlog⟩ := exists_run_log_entry hd j
    obtain ⟨ess, i, hrun, hess, hi⟩ := ih k hds
    refine ⟨es :: ess, i, ?_, .cons hes hess, ?_⟩
    · rw [run_logDiagnostics_cons, run_bind_of_ok hlog, hrun]
    · rw [hi, hk, List.flatten_cons, List.append_assoc]

/-- **Each fallback is announced once, and nothing else is.** No target, a location, and a target
that is found announce nothing. A target that the model has no location for, without contradicting
it, announces one detail, and a target in error one warning, which the error alone does not. So a
list of diagnostics that can all be formatted is announced one by one, in order: each as the fallback
of its target, if it has one, and one event of its severity with its message, its code and, if it has
a target, the text of its location. -/
theorem fallbacks_announced (m : Lookup) :
    (∀ focus, m.Announces focus none [] ∧ ∀ l, m.Announces focus (some (.location l)) []) ∧
    (∀ focus t l j, m.answer focus t j = .ok l → l.isSynthetic = false →
      m.Announces focus (some t) []) ∧
    (∀ focus t l j, (∀ l', t ≠ .location l') → m.answer focus t j = .ok l → l.isSynthetic = true →
      (∃ f, m.locate focus t = .ok (.missing f)) ∧
        ∃ event, event.level = .debug ∧ m.Announces focus (some t) [event]) ∧
    (∀ focus t e j, m.answer focus t j = .error e → (m.tryResolve focus t).run j = (.error e, j) ∧
      ∃ event, event.level = .warn ∧ m.Announces focus (some t) [event]) ∧
    ∀ ds j, (∀ d ∈ ds, ∃ text i, (d.format m).run.run j = (.ok text, i)) →
      ∃ ess i, (logDiagnostics m EventSink.events ds).run.run j = (.ok .events, i) ∧
        List.Forall₂ (Diagnostic.Announces m) ds ess ∧ i.events = j.events ++ ess.flatten := by
  refine ⟨fun focus => ⟨m.announces_none focus, fun l => Lookup.announces_of_found rfl⟩, ?_, ?_, ?_,
    ?_⟩
  · intro focus t l j hl hreal
    rcases Lookup.answer_eq_ok_iff.mp hl with hfound | ⟨f, _, rfl⟩
    · exact Lookup.announces_of_found hfound
    · cases hreal
  · intro focus t l j ht hl hsynthetic
    rcases Lookup.answer_eq_ok_iff.mp hl with hfound | ⟨f, hmissing, _⟩
    · rw [(Lookup.places_of_locate ht hfound).1] at hsynthetic
      cases hsynthetic
    · exact ⟨⟨f, hmissing⟩, Lookup.announces_of_missing hmissing⟩
  · intro focus t e j he
    have herror := Lookup.answer_eq_error_iff.mp he
    exact ⟨Lookup.run_tryResolve_of_error herror, Lookup.announces_of_error herror⟩
  · intro ds j h
    refine exists_run_log_events ds j fun d hd => ?_
    obtain ⟨text, i, hformat⟩ := h d hd
    exact ⟨text, congrArg Prod.fst ((d.run_format m j).symm.trans hformat)⟩

/-- A declaration in a file, one that no file is known for, and one that the model does not have. -/
theorem fallbacks_announced_samples :
    let file : SourceFile := ⟨⟨7⟩, "main.tsp", "model A;"⟩
    let m : Model := {
      nodes := ⟨#[{ kind := .typeSpecScript, span := ⟨0, 8⟩, file := some file },
        { kind := .modelStatement, span := ⟨0, 8⟩, parent := some ⟨0⟩ },
        { kind := .modelStatement, span := ⟨2, 4⟩ }]⟩ }
    let ds : List Diagnostic := [⟨⟨"duplicate"⟩, .error, "again", some (.node ⟨1⟩)⟩,
      ⟨⟨"unused"⟩, .warning, "no use", none⟩, ⟨⟨"lost"⟩, .error, "gone", some (.node ⟨9⟩)⟩]
    m.lookup.Announces .name (some (.node ⟨1⟩)) [] ∧
    (∃ event, event.level = .debug ∧ m.lookup.Announces .name (some (.node ⟨2⟩)) [event]) ∧
    (∃ event, event.level = .warn ∧ m.lookup.Announces .name (some (.node ⟨9⟩)) [event]) ∧
    ∃ ess i, (logDiagnostics m.lookup EventSink.events ds).run.run {} = (.ok .events, i) ∧
      List.Forall₂ (Diagnostic.Announces m.lookup) ds ess ∧ i.events = ess.flatten := by
  intro file m ds
  obtain ⟨_, hfound, hmissing, herror, hlogged⟩ := fallbacks_announced m.lookup
  have htexts : ∀ d ∈ ds, ∃ text i, (d.format m.lookup).run.run {} = (.ok text, i) := by
    simp only [ds, List.forall_mem_cons]
    refine ⟨⟨"main.tsp:1:1 - error duplicate: again", {}, ?_⟩,
      ⟨"warning unused: no use", {}, ?_⟩, ⟨"<unknown location - node NodeId(9) is not part of the " ++
        "model>:1:1 - error lost: gone", ⟨1, _⟩, Prod.ext ?_ rfl⟩, ?_⟩
    · exact Prod.ext (by decide +kernel) (by decide +kernel)
    · exact Prod.ext (by decide +kernel) (by decide +kernel)
    · decide +kernel
    · exact fun d hd => absurd hd List.not_mem_nil
  obtain ⟨ess, i, hrun, hess, hi⟩ := hlogged ds {} htexts
  refine ⟨hfound .name (.node ⟨1⟩) ⟨file, ⟨0, 8⟩, false⟩ {} rfl rfl, ?_, ?_, ess, i, hrun, hess, hi⟩
  · exact (hmissing .name (.node ⟨2⟩) _ {} (fun l h => by cases h) rfl rfl).2
  · exact (herror .name (.node ⟨9⟩) (.unknownNode ⟨9⟩) {} rfl).2

end SourceDiagnostics
