import Mathlib.Data.List.Forall2
import SourceDiagnostics.Log.Emission
import SourceDiagnostics.Proofs.CheckedRun
import SourceDiagnostics.Proofs.NodeResolution

/-!
The ways in which diagnostics leave the program, and that they agree.

Every way resolves the targets anew, and so makes new files for stand-ins. Texts do not show which
file it is (`render_anonymous`), so what is written of a diagnostic is the same whenever its turn
comes (`Diagnostic.line`).

* `run_logDiagnostics_cons`: one step of logging, for any sink;
* `run_capture`, `run_writer`, `run_tapped`: what lists and writers make of the steps, and what any
  sink is handed;
* `Diagnostic.run_format`: one diagnostic on its own;
* `emission_agrees`: how all of these belong together.
-/

namespace SourceDiagnostics

variable {m : Lookup} {d : Diagnostic} {style : LogStyle} {j i k : Journal}

/-! ## Files that cannot be told apart -/

/-- The location in a file that has lost its identity. -/
def SourceLocation.anonymous (l : SourceLocation) : SourceLocation :=
  { l with file := { l.file with id := ⟨0⟩ } }

/-- A stand-in differs only by its file from one time to the next, a real location not at all. -/
theorem Lookup.resolve_anonymous (m : Lookup) (focus : Focus) (target : Option Target)
    (j k : Journal) :
    ((m.resolve focus target).run j).1.map SourceLocation.anonymous =
      ((m.resolve focus target).run k).1.map SourceLocation.anonymous := by
  cases target with
  | none => rfl
  | some target =>
    cases h : m.locate focus target with
    | error e =>
      rw [run_resolve_of_error h, run_resolve_of_error h]
      rfl
    | ok w =>
      cases w with
      | found l =>
        rw [run_resolve_of_found h, run_resolve_of_found h]
      | missing f =>
        obtain ⟨fields, hsettle⟩ := f.run_settle
        rw [run_resolve_of_missing h, run_resolve_of_missing h, hsettle, hsettle]
        rfl

theorem render_anonymous (style : LogStyle) (d : Diagnostic) (location : Option SourceLocation) :
    (d.toEntry (location.map SourceLocation.anonymous)).render style =
      (d.toEntry location).render style := by
  cases location <;> rfl

/-! ## One diagnostic -/

namespace Diagnostic

theorem run_entry (m : Lookup) (d : Diagnostic) (j : Journal) :
    (d.entry m).run j =
      (d.toEntry ((m.resolve .name d.target).run j).1, ((m.resolve .name d.target).run j).2) := rfl

/-- What is written of a diagnostic, without the line feed. -/
def line (m : Lookup) (style : LogStyle) (d : Diagnostic) : Except Fault String :=
  ((d.entry m).run {}).1.render style

/-- It does not matter when the target is resolved. -/
theorem render_entry (m : Lookup) (style : LogStyle) (d : Diagnostic) (j : Journal) :
    ((d.entry m).run j).1.render style = d.line m style := by
  rw [line, run_entry, run_entry, ← render_anonymous, m.resolve_anonymous .name d.target j {},
    render_anonymous]

theorem run_format (m : Lookup) (d : Diagnostic) (j : Journal) :
    (d.format m).run.run j = (d.line m .plain, ((d.entry m).run j).2) := by
  rw [← render_entry m .plain d j]
  exact run_bind_of_ok (run_journaled rfl)

theorem label_toEntry (d : Diagnostic) (location : Option SourceLocation) :
    (d.toEntry location).label = d.text := by
  have hlevel : (LogLevel.ofSeverity d.severity).text = d.severity.text := by
    cases d.severity <;> rfl
  simp only [LogEntry.label, toEntry, text, hlevel, String.append_assoc]

theorem render_plain_none (d : Diagnostic) : (d.toEntry none).render .plain = .ok d.text := by
  rw [← d.label_toEntry none]
  exact congrArg Except.ok String.empty_append

theorem render_plain_some (d : Diagnostic) (l : SourceLocation) :
    (d.toEntry (some l)).render .plain = l.text.map fun text => text ++ " - " ++ d.text := by
  rw [← d.label_toEntry (some l)]
  simp only [LogEntry.render, LogEntry.header, LogEntry.origin, toEntry]
  cases l.text <;> rfl

/-- A diagnostic with a target is formatted if the text of its location can be written. -/
theorem run_format_of_target {t : Target} {l : SourceLocation} (hd : d.target = some t)
    (hl : (m.resolve .name (some t)).run j = (some l, i)) :
    (d.format m).run.run j = (l.text.map fun text => text ++ " - " ++ d.text, i) := by
  rw [d.run_format, ← d.render_entry m .plain j, d.run_entry, hd, hl, d.render_plain_some]

/-- The entry is what becomes of the diagnostic at some time. -/
structure HandedAs (m : Lookup) (d : Diagnostic) (e : LogEntry) : Prop where
  level : e.level = .ofSeverity d.severity
  message : e.message = d.message
  code : e.code = some d.code
  location : ∃ j, e.location = ((m.resolve .name d.target).run j).1

theorem handedAs_entry (m : Lookup) (d : Diagnostic) (j : Journal) :
    d.HandedAs m ((d.entry m).run j).1 := ⟨rfl, rfl, rfl, j, rfl⟩

end Diagnostic

/-! ## Many diagnostics -/

section Steps

variable {σ : Type} [LogSink σ]

/-- One step of logging: the first diagnostic gets its entry, the sink gets the entry, and the
others follow. -/
theorem run_logDiagnostics_cons (m : Lookup) (sink : σ) (d : Diagnostic) (ds : List Diagnostic)
    (j : Journal) :
    (logDiagnostics m sink (d :: ds)).run.run j =
      (LogSink.log sink ((d.entry m).run j).1 >>= fun sink =>
        logDiagnostics m sink ds).run.run ((d.entry m).run j).2 := by
  rw [logDiagnostics, List.foldlM_cons, bind_assoc]
  exact run_bind_of_ok (run_journaled rfl)

theorem logDiagnostics_append (m : Lookup) (sink : σ) (ds es : List Diagnostic) :
    logDiagnostics m sink (ds ++ es) =
      logDiagnostics m sink ds >>= fun sink => logDiagnostics m sink es := List.foldlM_append

end Steps

/-- A list captures one entry for each diagnostic, whatever it held before. What is written of the
entry is what is written of the diagnostic. -/
theorem run_capture (m : Lookup) (ds : List Diagnostic) (j : Journal) :
    ∃ es i, (∀ held, (logDiagnostics m held ds).run.run j = (.ok (held ++ es), i)) ∧
      List.Forall₂ (Diagnostic.HandedAs m) ds es ∧
      ∀ style, es.mapM (LogEntry.render style) = ds.mapM (Diagnostic.line m style) := by
  induction ds generalizing j with
  | nil =>
    refine ⟨[], j, fun held => ?_, .nil, fun _ => rfl⟩
    rw [List.append_nil]
    rfl
  | cons d ds ih =>
    obtain ⟨es, i, hrun, hes, hlines⟩ := ih ((d.entry m).run j).2
    refine ⟨((d.entry m).run j).1 :: es, i, ?_, .cons (d.handedAs_entry m j) hes, ?_⟩
    · intro held
      have hlog : (LogSink.log held ((d.entry m).run j).1).run.run ((d.entry m).run j).2 =
          (.ok (held ++ [((d.entry m).run j).1]), ((d.entry m).run j).2) := rfl
      rw [run_logDiagnostics_cons, run_bind_of_ok hlog, hrun, List.append_assoc]
      rfl
    · intro style
      rw [List.mapM_cons, List.mapM_cons, d.render_entry m style j, hlines style]

/-! ## Writers -/

/-- The bytes of texts, each on a line of its own. -/
def lineBytes (texts : List String) : List UInt8 :=
  texts.flatMap fun text => Text.utf8 (text ++ "\n").toList

/-- The bytes that a writer without a limit receives of diagnostics. -/
def written (m : Lookup) (style : LogStyle) (ds : List Diagnostic) (j : Journal) :
    Except Fault (List UInt8) :=
  ((logDiagnostics m ({ store := {}, style } : Writer Buffer) ds).run.run j).1.map fun w =>
    w.store.bytes

theorem lineBytes_cons (text : String) (texts : List String) :
    lineBytes (text :: texts) = lineBytes [text] ++ lineBytes texts := by
  simp [lineBytes]

theorem writeLine_buffer (bytes : List UInt8) (text : String) :
    ByteStore.writeLine (⟨bytes⟩ : Buffer) text = ⟨bytes ++ lineBytes [text]⟩ := by
  simp [ByteStore.writeLine, ByteStore.write, lineBytes, Text.utf8]

theorem run_log_writer {β : Type} [ByteStore β] (w : Writer β) (e : LogEntry) (j : Journal) :
    (LogSink.log w e).run.run j =
      ((e.render w.style).map fun text =>
        { w with store := ByteStore.writeLine w.store text }, j) := by
  cases h : e.render w.style <;> simp only [LogSink.log, h] <;> rfl

/-- A writer of any kind writes the lines of the diagnostics one by one, or stops at the first one
that has none. -/
theorem run_writer {β : Type} [ByteStore β] (m : Lookup) (style : LogStyle) (ds : List Diagnostic)
    (store : β) (j : Journal) :
    ∃ i, (logDiagnostics m (⟨store, style⟩ : Writer β) ds).run.run j =
      ((ds.mapM (Diagnostic.line m style)).map fun texts =>
        ⟨texts.foldl ByteStore.writeLine store, style⟩, i) := by
  induction ds generalizing store j with
  | nil => exact ⟨j, rfl⟩
  | cons d ds ih =>
    have hlog := run_log_writer (⟨store, style⟩ : Writer β) ((d.entry m).run j).1
      ((d.entry m).run j).2
    rw [d.render_entry m style j] at hlog
    rw [run_logDiagnostics_cons, List.mapM_cons]
    cases hd : d.line m style with
    | error f =>
      rw [hd] at hlog
      exact ⟨_, run_bind_of_error hlog⟩
    | ok text =>
      rw [hd] at hlog
      obtain ⟨i, hrun⟩ := ih (ByteStore.writeLine store text) ((d.entry m).run j).2
      refine ⟨i, (run_bind_of_ok hlog).trans (hrun.trans ?_)⟩
      cases ds.mapM (Diagnostic.line m style) <;> rfl

theorem foldl_writeLine_buffer (bytes : List UInt8) (texts : List String) :
    texts.foldl ByteStore.writeLine (Buffer.mk bytes) = ⟨bytes ++ lineBytes texts⟩ := by
  induction texts generalizing bytes with
  | nil => simp [lineBytes]
  | cons text texts ih =>
    rw [List.foldl_cons, writeLine_buffer, ih, lineBytes_cons text texts, List.append_assoc]

theorem written_eq (m : Lookup) (style : LogStyle) (ds : List Diagnostic) (j : Journal) :
    written m style ds j = (ds.mapM (Diagnostic.line m style)).map lineBytes := by
  obtain ⟨i, hrun⟩ := run_writer m style ds (Buffer.mk []) j
  rw [written, hrun]
  cases ds.mapM (Diagnostic.line m style) with
  | error f => rfl
  | ok texts => simp [Except.map, foldl_writeLine_buffer]

/-- What is written of two lists is what is written of the first and then of the second, each at a
time of its own. -/
theorem written_append (m : Lookup) (style : LogStyle) (ds es : List Diagnostic)
    (j i k : Journal) :
    written m style (ds ++ es) j = do
      return (← written m style ds i) ++ (← written m style es k) := by
  rw [written_eq, written_eq, written_eq, List.mapM_append]
  cases ds.mapM (Diagnostic.line m style) with
  | error f => rfl
  | ok texts =>
    cases es.mapM (Diagnostic.line m style) with
    | error f => rfl
    | ok texts' => exact congrArg Except.ok List.flatMap_append

/-! ## Any sink -/

/-- A sink that also keeps what it is handed. -/
structure Tapped (σ : Type) where
  sink : σ
  handed : List LogEntry := []

instance {σ : Type} [LogSink σ] : LogSink (Tapped σ) where
  log t e := do return ⟨← LogSink.log t.sink e, t.handed ++ [e]⟩

/-- Whatever a sink does with them, it is handed one entry for each diagnostic, in order. -/
theorem run_tapped {σ : Type} [LogSink σ] {sink sink' : σ} (handed : List LogEntry)
    {ds : List Diagnostic} (h : (logDiagnostics m sink ds).run.run j = (.ok sink', i)) :
    ∃ es, (logDiagnostics m (⟨sink, handed⟩ : Tapped σ) ds).run.run j =
      (.ok ⟨sink', handed ++ es⟩, i) ∧ List.Forall₂ (Diagnostic.HandedAs m) ds es := by
  induction ds generalizing sink handed j with
  | nil =>
    cases h
    exact ⟨[], by rw [List.append_nil]; rfl, .nil⟩
  | cons d ds ih =>
    rw [run_logDiagnostics_cons] at h
    cases hlog : (LogSink.log sink ((d.entry m).run j).1).run.run ((d.entry m).run j).2 with
    | mk r k =>
      cases r with
      | error f =>
        rw [run_bind_of_error hlog] at h
        cases h
      | ok next =>
        rw [run_bind_of_ok hlog] at h
        obtain ⟨es, hrun, hes⟩ := ih (handed ++ [((d.entry m).run j).1]) h
        have htap : (LogSink.log (⟨sink, handed⟩ : Tapped σ) ((d.entry m).run j).1).run.run
            ((d.entry m).run j).2 = (.ok ⟨next, handed ++ [((d.entry m).run j).1]⟩, k) :=
          run_bind_of_ok hlog
        refine ⟨((d.entry m).run j).1 :: es, ?_, .cons (d.handedAs_entry m j) hes⟩
        rw [run_logDiagnostics_cons, run_bind_of_ok htap, hrun, List.append_assoc]
        rfl

/-! ## Agreement -/

/-- **All ways to emit diagnostics agree.** A list captures one entry for each diagnostic, in order,
with its level, message, code and location, and every other sink is handed the like. What a writer
receives, whenever it does, is the entries rendered one by one, each on a line; plain, these are the
diagnostics formatted one by one, whenever each of them is. A diagnostic is formatted as its own
text, after the location if it has a target. Two lists come out one after the other. Where something
cannot be rendered, all of it ends with the same fault. -/
theorem emission_agrees (m : Lookup) (ds : List Diagnostic) (j : Journal) :
    ∃ es i, (logDiagnostics m ([] : List LogEntry) ds).run.run j = (.ok es, i) ∧
      List.Forall₂ (Diagnostic.HandedAs m) ds es ∧
      (∀ (σ : Type) [LogSink σ] (sink sink' : σ) (k k' : Journal),
        (logDiagnostics m sink ds).run.run k = (.ok sink', k') →
        ∃ es, (logDiagnostics m (⟨sink, []⟩ : Tapped σ) ds).run.run k = (.ok ⟨sink', es⟩, k') ∧
          List.Forall₂ (Diagnostic.HandedAs m) ds es) ∧
      (∀ style k, written m style ds k = (es.mapM (LogEntry.render style)).map lineBytes) ∧
      (∀ turn : Diagnostic → Journal,
        ds.mapM (fun d => ((d.format m).run.run (turn d)).1) = es.mapM (LogEntry.render .plain)) ∧
      (∀ (d : Diagnostic) k, d.target = none → (d.format m).run.run k = (.ok d.text, k)) ∧
      (∀ (d : Diagnostic) t k, d.target = some t →
        ∃ l i, (m.resolve .name (some t)).run k = (some l, i) ∧
          (d.format m).run.run k = (l.text.map fun text => text ++ " - " ++ d.text, i)) ∧
      ∀ ds', (∃ es' i', (logDiagnostics m ([] : List LogEntry) ds').run.run i = (.ok es', i') ∧
          (logDiagnostics m ([] : List LogEntry) (ds ++ ds')).run.run j = (.ok (es ++ es'), i')) ∧
        ∀ style k k' k'', written m style (ds ++ ds') k = do
          return (← written m style ds k') ++ (← written m style ds' k'') := by
  obtain ⟨es, i, hrun, hes, hlines⟩ := run_capture m ds j
  refine ⟨es, i, hrun [], hes, ?_, ?_, ?_, ?_, ?_, ?_⟩
  · intro σ _ sink sink' k k' h
    exact run_tapped [] h
  · intro style k
    rw [written_eq, hlines]
  · intro turn
    simp only [hlines, Diagnostic.run_format]
  · intro d k hd
    rw [d.run_format, ← d.render_entry m .plain k, d.run_entry, hd]
    exact congrArg (fun r => (r, k)) d.render_plain_none
  · intro d t k hd
    obtain ⟨l, i, hl⟩ := m.exists_run_resolve .name t k
    exact ⟨l, i, hl, d.run_format_of_target hd hl⟩
  · intro ds'
    refine ⟨?_, fun style k k' k'' => written_append m style ds ds' k k' k''⟩
    obtain ⟨es', i', hrun', _, _⟩ := run_capture m ds' i
    refine ⟨es', i', hrun' [], ?_⟩
    rw [logDiagnostics_append, run_bind_of_ok (hrun []), hrun']
    rfl

/-- A declaration in a file, no target, and a target that the model does not have: written, and
announced. -/
theorem emission_agrees_samples :
    let file : SourceFile := ⟨⟨7⟩, "main.tsp", "model A;"⟩
    let m : Model := {
      nodes := ⟨#[{ kind := .typeSpecScript, span := ⟨0, 8⟩, file := some file },
        { kind := .modelStatement, span := ⟨0, 8⟩, parent := some ⟨0⟩, identifier := some ⟨2⟩ },
        { kind := .identifier, span := ⟨6, 7⟩, parent := some ⟨1⟩ }]⟩ }
    let ds : List Diagnostic := [⟨⟨"duplicate"⟩, .error, "again", some (.node ⟨1⟩)⟩,
      ⟨⟨"unused"⟩, .warning, "no use", none⟩, ⟨⟨"lost"⟩, .error, "gone", some (.node ⟨9⟩)⟩]
    let texts := ["main.tsp:1:7 - error duplicate: again", "warning unused: no use",
      "<unknown location - node NodeId(9) is not part of the model>:1:1 - error lost: gone"]
    let events : List Event := [
      ⟨.error, [("message", "again"), ("code", "duplicate"), ("location", "main.tsp:1:7")]⟩,
      ⟨.warn, [("message", "no use"), ("code", "unused")]⟩,
      ⟨.warn, [("message", "cannot resolve diagnostic target"),
        ("err", "node NodeId(9) is not part of the model"), ("target", "Node(NodeId(9))")]⟩,
      ⟨.error, [("message", "gone"), ("code", "lost"),
        ("location", "<unknown location - node NodeId(9) is not part of the model>:1:1")]⟩]
    written m.lookup .plain ds {} = .ok (lineBytes texts) ∧
    ∃ es, (logDiagnostics m.lookup (⟨.events, []⟩ : Tapped EventSink) ds).run.run {} =
        (.ok ⟨.events, es⟩, ⟨1, events⟩) ∧
      List.Forall₂ (Diagnostic.HandedAs m.lookup) ds es := by
  intro file m ds texts events
  have htexts : ds.mapM (fun d => ((d.format m.lookup).run.run {}).1) = .ok texts := by
    decide +kernel
  have hevents : (logDiagnostics m.lookup EventSink.events ds).run.run {} =
      (.ok .events, ⟨1, events⟩) := Prod.ext (by decide +kernel) (by decide +kernel)
  obtain ⟨es, i, _, _, hsink, hwritten, hformatted, _⟩ := emission_agrees m.lookup ds {}
  refine ⟨?_, hsink _ _ _ _ _ hevents⟩
  rw [hwritten, ← hformatted fun _ => {}, htexts]
  rfl

end SourceDiagnostics
