import SourceDiagnostics.Proofs.CodeFrame
import SourceDiagnostics.Proofs.Emission
import SourceDiagnostics.Proofs.Resolution

/-!
The one fault that rendering can end with.

Words are added and subtracted all along the way from a span to its text and its frame. In a file
whose size is less than the largest word all of these fit but one: the column, counted from one, of
the last of all offsets in a text without line ends (`SourceLocation.Overflows`).

* `SourceFile.lineCount_eq_one_iff`, `SourceFile.lineCount_le`: what the number of lines says of a
  text;
* `SourceLocation.text_eq_error_iff`: the text of a location;
* `CodeFrame.exists_ofLocation`: every location has a frame, also where it has no text;
* `LogEntry.render_eq_error_iff`: entries in either style;
* `LogEntry.eq_sumOverflow_of_render`: in files of any size, no other fault;
* `render_faults_exact`: all of it, and which diagnostics can always be formatted.
-/

namespace SourceDiagnostics

open Text

variable {cs : List Char} {o : Nat} {f : SourceFile} {l : SourceLocation} {p : Position}
  {fault : Fault}

/-! ## The number of lines -/

theorem startsAfter_eq_nil_iff : startsAfter o cs = [] ↔ Unbroken cs := by
  constructor
  · intro h
    induction cs generalizing o with
    | nil => exact unbroken_nil
    | cons c cs ih =>
      cases he : endsLine c cs with
      | true => simp [startsAfter, he] at h
      | false =>
        have hcs : Unbroken cs := ih (by simpa [startsAfter, he] using h)
        refine unbroken_cons.mpr ⟨⟨?_, ?_⟩, hcs⟩
        · -- A carriage return does not end a line only where a line feed follows.
          rintro rfl
          have hfeed : cs.head? = some '\n' := by simpa [endsLine] using he
          exact (hcs '\n' (List.mem_of_head? hfeed)).2 rfl
        · rintro rfl
          simp [endsLine] at he
  · intro h
    have hnone : startsAfter o (cs ++ []) = [] := startsAfter_unbroken h
    rwa [List.append_nil] at hnone

theorem SourceFile.lineCount_eq (f : SourceFile) :
    f.lineTable.lineCount = (startsAfter 0 f.content.toList).length + 1 := by
  simp [lineTable, LineTable.lineCount, LineTable.ofText, lineStarts]

theorem SourceFile.lineCount_eq_one_iff :
    f.lineTable.lineCount = 1 ↔ Unbroken f.content.toList := by
  rw [lineCount_eq, Nat.succ_inj, List.length_eq_zero_iff, startsAfter_eq_nil_iff]

/-- Every line but the last one takes at least a byte. -/
theorem SourceFile.lineCount_le (f : SourceFile) : f.lineTable.lineCount ≤ f.byteCount + 1 := by
  have hlast := List.getElem?_eq_getElem (l := lineStarts f.content.toList)
    (i := (startsAfter 0 f.content.toList).length) (by simp [lineStarts])
  have hindex := index_le_of_lineStarts hlast
  have hend := le_of_mem_lineStarts (List.mem_of_getElem? hlast)
  rw [lineCount_eq]
  exact Nat.succ_le_succ (Nat.le_trans hindex hend)

/-! ## Locations -/

namespace SourceLocation

/-- The span starts at the last of all offsets, and no line end starts the columns anew. -/
def Overflows (l : SourceLocation) : Prop :=
  l.span.start.toNat = maxWord ∧ Unbroken l.file.content.toList

theorem full_iff_overflows (h : l.file.byteCount < maxWord) (hp : l.startPosition = .ok p) :
    p.Full ↔ l.Overflows := by
  have hcount := l.file.lineCount_le
  have hlines : l.file.lineTable.lineCount ≠ maxWord + 1 := by omega
  rw [l.file.full_iff (Nat.le_of_lt h) hp, Overflows, ← SourceFile.lineCount_eq_one_iff]
  simp [hlines]

theorem text_eq_error_iff (h : l.file.byteCount < maxWord) :
    l.text = .error fault ↔ fault = .sumOverflow ∧ l.Overflows := by
  obtain ⟨p, hp⟩ := l.exists_startPosition
  rw [← full_iff_overflows h hp]
  by_cases hfull : p.Full
  · rw [text_of_full hp hfull]
    simp [hfull, eq_comm]
  · rw [text_of_not_full hp hfull]
    simp [hfull]

theorem exists_text (h : l.file.byteCount < maxWord) (hl : ¬ l.Overflows) :
    ∃ text, l.text = .ok text := by
  cases ht : l.text with
  | error fault => exact absurd ((text_eq_error_iff h).mp ht).2 hl
  | ok text => exact ⟨text, rfl⟩

/-- A span that starts within its file or right behind it is far from the last of all offsets. -/
theorem not_overflows (h : l.file.byteCount < maxWord)
    (hstart : l.span.start.toNat ≤ l.file.byteCount) : ¬ l.Overflows := by
  rintro ⟨hlast, _⟩
  omega

end SourceLocation

/-! ## Frames -/

/-- Nothing overflows on the way to a frame, for the number of a line does not exceed the bytes
before it, and its end is that of a part of the text. -/
theorem CodeFrame.exists_ofLocation (h : l.file.byteCount < maxWord) :
    ∃ frame, CodeFrame.ofLocation l = .ok (some frame) := by
  have hle := Nat.le_of_lt h
  obtain ⟨p, hp, hlast, _⟩ := LineTable.position_spec_last hle l.span.start
  obtain ⟨start, hstart, _⟩ := hlast.started
  obtain ⟨k, hk⟩ := Cut.exists_text_eq l.file.content.toList
  obtain ⟨_, body, _, _, hbody, _⟩ := l.file.line_of_start hle hk hstart
  have hline : p.line.toNat ≠ maxWord := by
    have hword := LineTable.toNat_of_starts hle hstart
    have hindex := index_le_of_lineStarts hword
    have hend : start.toNat ≤ l.file.byteCount :=
      le_of_mem_lineStarts (List.mem_of_getElem? hword)
    omega
  exact ⟨_, CodeFrame.ofLocation_eq hle hp hline hk hstart hbody⟩

/-! ## Entries -/

namespace LogEntry

variable {e : LogEntry}

theorem exists_frame (h : ∀ l, e.location = some l → l.file.byteCount < maxWord) :
    ∃ frame, e.frame = .ok frame := by
  cases hl : e.location with
  | none => exact ⟨_, frame_of_not_real fun l h => by rw [hl] at h; cases h⟩
  | some l =>
    cases hs : l.isSynthetic with
    | true =>
      refine ⟨_, frame_of_not_real fun l' h => ?_⟩
      obtain rfl : l = l' := Option.some.inj (hl.symm.trans h)
      exact hs
    | false =>
      obtain ⟨frame, hframe⟩ := CodeFrame.exists_ofLocation (h l hl)
      exact ⟨_, frame_of_location hl hs hframe⟩

/-- The style does not matter: a frame only comes after a header, and never fails. -/
theorem render_eq_error_iff_header (style : LogStyle)
    (h : ∀ l, e.location = some l → l.file.byteCount < maxWord) :
    e.render style = .error fault ↔ e.header = .error fault := by
  obtain ⟨frame, hframe⟩ := exists_frame h
  cases he : e.header with
  | error fault' => cases style <;> simp only [render, he] <;> exact Iff.rfl
  | ok header =>
    refine iff_of_false (fun h => ?_) (fun h => by cases h)
    cases style <;> simp only [render, he, hframe] at h <;> cases h

theorem header_eq_error_iff :
    e.header = .error fault ↔ ∃ l, e.location = some l ∧ l.text = .error fault := by
  cases hl : e.location with
  | none =>
    constructor
    · intro h
      simp only [header, origin, hl] at h
      cases h
    · rintro ⟨_, h, _⟩
      cases h
  | some l =>
    have hheader : e.header = l.text.map fun text => text ++ " - " ++ e.label := by
      cases ht : l.text <;> simp only [header, origin, hl, ht] <;> rfl
    rw [hheader]
    cases ht : l.text with
    | error fault' => simp [Except.map, ht]
    | ok text => simp [Except.map, ht]

theorem render_eq_error_iff (style : LogStyle)
    (h : ∀ l, e.location = some l → l.file.byteCount < maxWord) :
    e.render style = .error fault ↔
      fault = .sumOverflow ∧ ∃ l, e.location = some l ∧ l.Overflows := by
  rw [render_eq_error_iff_header style h, header_eq_error_iff]
  constructor
  · rintro ⟨l, hl, ht⟩
    obtain ⟨hfault, hover⟩ := (SourceLocation.text_eq_error_iff (h l hl)).mp ht
    exact ⟨hfault, l, hl, hover⟩
  · rintro ⟨hfault, l, hl, hover⟩
    exact ⟨l, hl, (SourceLocation.text_eq_error_iff (h l hl)).mpr ⟨hfault, hover⟩⟩

end LogEntry

/-! ## Files of any size -/

theorem eq_sumOverflow_of_checkedAdd {a b : UInt32} (h : checkedAdd a b = .error fault) :
    fault = .sumOverflow := by
  unfold checkedAdd at h
  split at h
  · cases h
  · exact (Except.error.inj h).symm

theorem SourceLocation.eq_sumOverflow_of_text (h : l.text = .error fault) :
    fault = .sumOverflow := by
  obtain ⟨p, hp⟩ := l.exists_startPosition
  by_cases hfull : p.Full
  · rw [text_of_full hp hfull] at h
    exact (Except.error.inj h).symm
  · rw [text_of_not_full hp hfull] at h
    cases h

theorem CodeFrame.eq_sumOverflow_of_ofLocation (h : CodeFrame.ofLocation l = .error fault) :
    fault = .sumOverflow := by
  obtain ⟨p, hp⟩ := l.exists_startPosition
  simp only [ofLocation, hp, bind, Except.bind] at h
  split at h
  · cases h
  split at h
  · cases h
  next start _ _ line _ =>
  cases hend : checkedAdd start (clampWord (byteLength (trimLineEnd line))) with
  | error fault' =>
    rw [hend] at h
    cases h
    exact eq_sumOverflow_of_checkedAdd hend
  | ok bodyEnd =>
    cases hnumber : checkedAdd p.line 1 with
    | error fault' =>
      rw [hend, hnumber] at h
      cases h
      exact eq_sumOverflow_of_checkedAdd hnumber
    | ok number =>
      rw [hend, hnumber] at h
      cases h

theorem LogEntry.eq_sumOverflow_of_frame {e : LogEntry} (h : e.frame = .error fault) :
    fault = .sumOverflow := by
  unfold frame at h
  split at h
  · cases h
  next l _ =>
  split at h
  · cases h
  cases hframe : CodeFrame.ofLocation l with
  | error fault' =>
    rw [hframe] at h
    cases h
    exact CodeFrame.eq_sumOverflow_of_ofLocation hframe
  | ok frame =>
    rw [hframe] at h
    cases frame <;> cases h

/-- Whatever the size of the file, rendering ends with no other fault. -/
theorem LogEntry.eq_sumOverflow_of_render {e : LogEntry} {style : LogStyle}
    (h : e.render style = .error fault) : fault = .sumOverflow := by
  cases hheader : e.header with
  | error fault' =>
    obtain ⟨l, _, htext⟩ := header_eq_error_iff.mp hheader
    rw [render, hheader] at h
    cases h
    exact SourceLocation.eq_sumOverflow_of_text htext
  | ok header =>
    cases style with
    | plain =>
      rw [render, hheader] at h
      cases h
    | framed =>
      cases hframe : e.frame with
      | error fault' =>
        simp only [render, hheader, hframe] at h
        cases h
        exact eq_sumOverflow_of_frame hframe
      | ok frame =>
        simp only [render, hheader, hframe] at h
        cases h

/-! ## All of it -/

/-- **Rendering overflows in one situation only.** Of a location in a file whose size is less than
the largest word, the text faults exactly if the span starts at the last of all offsets and the file
has no line end, and the fault is that of a sum; the frame never faults and is always there. An
entry in either style faults exactly if it has such a location. So a diagnostic can be formatted if
its target has a location that starts within its file, and if its target falls back. -/
theorem render_faults_exact :
    (∀ (l : SourceLocation) (fault : Fault), l.file.byteCount < maxWord →
      (l.text = .error fault ↔ fault = .sumOverflow ∧ l.Overflows)) ∧
    (∀ l : SourceLocation, l.file.byteCount < maxWord →
      ∃ frame, CodeFrame.ofLocation l = .ok (some frame)) ∧
    (∀ (e : LogEntry) (style : LogStyle) (fault : Fault),
      (∀ l, e.location = some l → l.file.byteCount < maxWord) →
      (e.render style = .error fault ↔
        fault = .sumOverflow ∧ ∃ l, e.location = some l ∧ l.Overflows)) ∧
    (∀ (m : Lookup) (d : Diagnostic) (t : Target) (l : SourceLocation) (j i : Journal),
      d.target = some t → (m.resolve .name (some t)).run j = (some l, i) →
      l.file.byteCount < maxWord → l.span.start.toNat ≤ l.file.byteCount →
      ∃ text, (d.format m).run.run j = (.ok text, i)) ∧
    ∀ (m : Lookup) (d : Diagnostic) (t : Target) (j : Journal), d.target = some t →
      m.FallsBack .name (some t) j → ∃ text i, (d.format m).run.run j = (.ok text, i) := by
  refine ⟨fun l fault h => SourceLocation.text_eq_error_iff h,
    fun l h => CodeFrame.exists_ofLocation h,
    fun e style fault h => LogEntry.render_eq_error_iff style h, ?_, ?_⟩
  · intro m d t l j i hd hl h hstart
    obtain ⟨text, ht⟩ := SourceLocation.exists_text h (SourceLocation.not_overflows h hstart)
    refine ⟨text ++ " - " ++ d.text, ?_⟩
    rw [d.run_format_of_target hd hl, ht]
    rfl
  · rintro m d t j hd ⟨l, i, hl, hstands⟩
    refine ⟨l.path ++ ":1:1" ++ " - " ++ d.text, i, ?_⟩
    rw [d.run_format_of_target hd hl, hstands.text]
    rfl

/-- The last of all offsets, in a text without a line end and in one with a line end; and
diagnostics at the end of a file and at a node that the model does not have. -/
theorem render_faults_exact_samples :
    let last : SourceLocation := ⟨⟨⟨0⟩, "a.tsp", "model A;"⟩, Span.point 4294967295, false⟩
    let later : SourceLocation := ⟨⟨⟨1⟩, "b.tsp", "model A;\r"⟩, ⟨4294967295, 0⟩, false⟩
    let atEnd : SourceLocation := ⟨⟨⟨1⟩, "b.tsp", "model A;\r"⟩, ⟨9, 9⟩, false⟩
    let e : LogEntry := { level := .error, message := "bad", location := some last }
    let m : Model := {}
    let ending : Diagnostic := ⟨⟨"end"⟩, .error, "too soon", some (.location atEnd)⟩
    let lost : Diagnostic := ⟨⟨"lost"⟩, .error, "gone", some (.node ⟨9⟩)⟩
    (last.file.byteCount < maxWord ∧ last.Overflows ∧ last.text = .error .sumOverflow ∧
      (∃ frame, CodeFrame.ofLocation last = .ok (some frame)) ∧
      e.render .framed = .error .sumOverflow) ∧
    (later.file.byteCount < maxWord ∧ ∀ fault, later.text ≠ .error fault) ∧
    (∃ text, (ending.format m.lookup).run.run {} = (.ok text, {})) ∧
    ∃ text i, (lost.format m.lookup).run.run {} = (.ok text, i) := by
  intro last later atEnd e m ending lost
  obtain ⟨htext, hframe, hrender, hwithin, hback⟩ := render_faults_exact
  have hlast : last.file.byteCount < maxWord := by decide +kernel
  have hlater : later.file.byteCount < maxWord := by decide +kernel
  have hover : last.Overflows := ⟨rfl, by simp [last, Unbroken]⟩
  have hnot : ¬ later.Overflows := fun h => (h.2 '\r' (by simp [later])).1 rfl
  have hentry : ∀ l, e.location = some l → l.file.byteCount < maxWord := by
    intro l h
    obtain rfl : last = l := Option.some.inj h
    exact hlast
  refine ⟨⟨hlast, hover, ?_, hframe last hlast, ?_⟩, ⟨hlater, ?_⟩, ?_, ?_⟩
  · exact (htext last .sumOverflow hlast).mpr ⟨rfl, hover⟩
  · exact (hrender e .framed .sumOverflow hentry).mpr ⟨rfl, last, rfl, hover⟩
  · exact fun fault h => hnot ((htext later fault hlater).mp h).2
  · exact hwithin m.lookup ending _ atEnd {} {} rfl rfl (by decide +kernel) (by decide +kernel)
  · have hunknown : m.lookup.FallsBack .name (some (.node ⟨9⟩)) {} :=
      Lookup.fallsBack_of_not_found (fun l h => by cases h) {}
    exact hback m.lookup lost _ {} rfl hunknown

end SourceDiagnostics
