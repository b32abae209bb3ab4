import SourceDiagnostics.Assertion
import SourceDiagnostics.Proofs.CheckedRun
import SourceDiagnostics.Proofs.LocationText
import SourceDiagnostics.Proofs.NodeResolution

/-!
What becomes of the message of a bug.

The message is written before anything is announced, so whatever stops the writing replaces it.
Resolving the target cannot: its errors are left out of the message. Counting the position from one
can, where a number of the position is the largest word (`Position.Full`).

* `messageNear_of_not_full`, `messageNear_of_full`: the two ends of writing the message;
* `Lookup.bugAt_outcome`: every end of a failed assertion, for any model and any target;
* `Lookup.bug_message_lost`: a location whose position takes the place of the message.
-/

namespace SourceDiagnostics

/-- The journal after a bug was announced with the message `text`. -/
def Journal.withBug (j : Journal) (text : String) : Journal :=
  { j with events :=
      j.events ++ [⟨.error, [("message", "internal compiler error"), ("message", text)]⟩] }

/-- Between the two journals only details were announced. -/
def Journal.Quiet (j i : Journal) : Prop :=
  ∃ details, i.events = j.events ++ details ∧ ∀ e ∈ details, e.level = .debug

/-- The message of a bug at a position of the file at `path`. -/
def nearText (message path : String) (p : Position) : String :=
  message ++ "\nOccurred while compiling code in " ++ path ++ " near line " ++
    toString (p.line.toNat + 1) ++ ", column " ++ toString (p.character.toNat + 1)

section Message

variable {message : String} {l : SourceLocation} {p : Position}

theorem messageNear_of_not_full (hp : l.startPosition = .ok p) (h : ¬ p.Full) :
    messageNear message l = .ok (nearText message l.path p) := by
  obtain ⟨hline, hcharacter⟩ := not_or.mp h
  rw [nearText, ← Position.toNat_add_one hline, ← Position.toNat_add_one hcharacter]
  simp only [messageNear, hp, bind, Except.bind, Position.oneBased_of_not_full h]
  rfl

theorem messageNear_of_full (hp : l.startPosition = .ok p) (h : p.Full) :
    messageNear message l = .error .sumOverflow := by
  simp only [messageNear, hp, bind, Except.bind, Position.oneBased_of_full h]

end Message

theorem run_bug {α : Type} (text : String) (j : Journal) :
    (bug text : Checked α).run.run j = (.error (.compilerBug text), j.withBug text) := rfl

namespace Lookup

variable {m : Lookup} {message text : String} {target : Option Target} {t : Target}
  {l : SourceLocation} {j i : Journal}

/-- The journal after the target of a bug was resolved, if there is one. -/
def afterTarget (m : Lookup) (target : Option Target) (j : Journal) : Journal :=
  target.elim j fun t => ((m.tryResolve .whole t).run j).2

/-- Resolving announces details only, whatever it answers. -/
theorem quiet_tryResolve (m : Lookup) (focus : Focus) (t : Target) (j : Journal) :
    j.Quiet ((m.tryResolve focus t).run j).2 := by
  cases h : m.locate focus t with
  | error e =>
    rw [run_tryResolve_of_error h]
    exact ⟨[], by simp⟩
  | ok w =>
    cases w with
    | found l =>
      rw [run_tryResolve_of_found h]
      exact ⟨[], by simp⟩
    | missing f =>
      obtain ⟨fields, hsettle⟩ := f.run_settle
      rw [run_tryResolve_of_missing h, hsettle]
      exact ⟨[⟨.debug, fields⟩], rfl, by simp⟩

theorem run_bugMessage_of_error {e : LocationError}
    (h : (m.tryResolve .whole t).run j = (.error e, i)) :
    (m.bugMessage message (some t)).run.run j = (.ok message, i) := by
  rw [bugMessage, run_bind_of_ok (run_journaled h)]
  rfl

theorem run_bugMessage_of_ok (h : (m.tryResolve .whole t).run j = (.ok l, i)) :
    (m.bugMessage message (some t)).run.run j = (messageNear message l, i) := by
  rw [bugMessage, run_bind_of_ok (run_journaled h)]
  exact run_except _ _

/-- What is written is what is announced and what the computation ends with. -/
theorem run_bugAt_of_ok {α : Type} (h : (m.bugMessage message target).run.run j = (.ok text, i)) :
    (m.bugAt message target : Checked α).run.run j =
      (.error (.compilerBug text), i.withBug text) := by
  rw [bugAt, run_bind_of_ok h]
  exact run_bug text i

theorem run_bugAt_of_error {α : Type} {f : Fault}
    (h : (m.bugMessage message target).run.run j = (.error f, i)) :
    (m.bugAt message target : Checked α).run.run j = (.error f, i) := run_bind_of_error h

/-- **How a failed assertion ends.** Without a target, or with one in error, it announces its
message as an error and ends with it. With a target that has a location it does so with the message
and the position, unless the line or the column of the position, counted from one, is no word: then
that fault is the end, and nothing is announced. In a file that fits the words of its offsets, this
takes a span at the last of all offsets, and a text of one line or of nothing but line ends. -/
theorem bugAt_outcome (m : Lookup) (message : String) (target : Option Target) (j : Journal) :
    m.ensure false message target = m.bugAt message target ∧
    j.Quiet (m.afterTarget target j) ∧
    ((target = none ∨ ∃ t e, target = some t ∧ m.answer .whole t j = .error e) →
      (m.bugAt message target : Checked Unit).run.run j =
        (.error (.compilerBug message), (m.afterTarget target j).withBug message)) ∧
    ∀ t l, target = some t → m.answer .whole t j = .ok l → ∃ p, l.startPosition = .ok p ∧
      (¬ p.Full → (m.bugAt message target : Checked Unit).run.run j =
        (.error (.compilerBug (nearText message l.path p)),
          (m.afterTarget target j).withBug (nearText message l.path p))) ∧
      (p.Full → (m.bugAt message target : Checked Unit).run.run j =
        (.error .sumOverflow, m.afterTarget target j)) ∧
      (l.file.byteCount ≤ maxWord → (p.Full ↔ l.span.start.toNat = maxWord ∧
        (l.file.lineTable.lineCount = 1 ∨ l.file.lineTable.lineCount = maxWord + 1))) := by
  refine ⟨rfl, ?_⟩
  cases target with
  | none =>
    refine ⟨⟨[], by simp [afterTarget]⟩, fun _ => run_bugAt_of_ok rfl, ?_⟩
    intro t l ht
    cases ht
  | some t =>
    have hrun : (m.tryResolve .whole t).run j =
      (m.answer .whole t j, m.afterTarget (some t) j) := rfl
    refine ⟨quiet_tryResolve m .whole t j, ?_, ?_⟩
    · rintro (hnone | ⟨t', e, ht, he⟩)
      · cases hnone
      · cases ht
        rw [he] at hrun
        exact run_bugAt_of_ok (run_bugMessage_of_error hrun)
    · intro t' l ht hl
      cases ht
      rw [hl] at hrun
      have hmessage : (m.bugMessage message (some t)).run.run j = _ := run_bugMessage_of_ok hrun
      obtain ⟨p, hp⟩ := l.exists_startPosition
      refine ⟨p, hp, fun h => ?_, fun h => ?_, fun h => l.file.full_iff h hp⟩
      · rw [messageNear_of_not_full hp h] at hmessage
        exact run_bugAt_of_ok hmessage
      · rw [messageNear_of_full hp h] at hmessage
        exact run_bugAt_of_error hmessage

/-- A target that the model does not have, one in the second line of a file, and one at the last of
all offsets in a file of one line. -/
theorem bugAt_outcome_samples :
    let m : Model := {}
    let second : SourceLocation := ⟨⟨⟨0⟩, "a.tsp", "model A;\n  x"⟩, ⟨11, 12⟩, false⟩
    let last : SourceLocation := ⟨⟨⟨1⟩, "b.tsp", "x"⟩, Span.point 4294967295, false⟩
    let near := "oops\nOccurred while compiling code in a.tsp near line 2, column 3"
    (m.lookup.bugAt "oops" (some (.node ⟨500⟩)) : Checked Unit).run.run {} =
      (.error (.compilerBug "oops"), Journal.withBug {} "oops") ∧
    (m.lookup.bugAt "oops" (some (.location second)) : Checked Unit).run.run {} =
      (.error (.compilerBug near), Journal.withBug {} near) ∧
    (m.lookup.bugAt "oops" (some (.location last)) : Checked Unit).run.run {} =
      (.error .sumOverflow, {}) := by
  intro m second last near
  refine ⟨?_, ?_, ?_⟩
  · exact (bugAt_outcome m.lookup "oops" (some (.node ⟨500⟩)) {}).2.2.1
      (Or.inr ⟨.node ⟨500⟩, .unknownNode ⟨500⟩, rfl, rfl⟩)
  · obtain ⟨p, hp, hkept, _⟩ :=
      (bugAt_outcome m.lookup "oops" (some (.location second)) {}).2.2.2 _ second rfl rfl
    have hposition : second.startPosition = .ok ⟨1, 2⟩ := by decide +kernel
    obtain rfl : ⟨1, 2⟩ = p := Except.ok.inj (hposition.symm.trans hp)
    have htext : nearText "oops" second.path ⟨1, 2⟩ = near := by decide +kernel
    rw [hkept (by simp [Position.Full, maxWord]), htext]
    rfl
  · obtain ⟨p, hp, _, hlost, hfull⟩ :=
      (bugAt_outcome m.lookup "oops" (some (.location last)) {}).2.2.2 _ last rfl rfl
    exact hlost ((hfull (by decide +kernel)).mpr ⟨rfl, Or.inl (by decide +kernel)⟩)

/-- The message of a failed assertion is lost where its target is at the last of all offsets in a
file of one line: the column does not fit, and that takes the place of the message. -/
theorem bug_message_lost :
    let m : Model := {}
    let l : SourceLocation := ⟨⟨⟨0⟩, "main.tsp", "model A \x7b\x7d"⟩, Span.point 4294967295, false⟩
    m.lookup.answer .whole (.location l) {} = .ok l ∧
      l.startPosition = .ok ⟨0, 4294967295⟩ ∧
      (m.lookup.ensure false "members must be checked first" (some (.location l))).run.run {} =
        (.error .sumOverflow, {}) := by
  exact ⟨rfl, by decide +kernel, Prod.ext (by decide +kernel) (by decide +kernel)⟩

end Lookup

end SourceDiagnostics
