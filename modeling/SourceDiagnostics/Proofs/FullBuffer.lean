import SourceDiagnostics.Proofs.RenderFaults

/-!
Logs in a buffer that runs full.

A writer does not hear of it when a line does not fit, and goes on with the next one. Nothing is
mixed up all the same: what does not fit fills the buffer to its end, so that nothing fits any more.
At any time a bounded buffer holds the first bytes of what an unbounded one would hold
(`Buffer.cut`).

* `ByteStore.writeLine_cut`: this stays so with every line;
* `run_logEntries_writer`: a list of entries, in a writer of any kind;
* `foldl_writeLine_full`: from the first line on that does not fit, nothing more is written;
* `log_truncated`: the whole of it.
-/

namespace SourceDiagnostics

variable {n : Nat} {bytes more : List UInt8} {style : LogStyle} {j : Journal}

/-! ## Bounded and unbounded buffers -/

/-- What is in a buffer with room for `n` bytes where an unbounded one is `b`. -/
def Buffer.cut (n : Nat) (b : Buffer) : BoundedBuffer := ⟨b.bytes.take n, n - b.bytes.length⟩

theorem Buffer.cut_empty (n : Nat) : ({} : Buffer).cut n = { free := n } := by simp [cut]

/-- What comes after the buffer is full leaves it as it is. -/
theorem Buffer.cut_append_of_le (h : n ≤ bytes.length) :
    (Buffer.mk (bytes ++ more)).cut n = (Buffer.mk bytes).cut n := by
  simp [cut, List.take_append_of_le_length h]
  omega

namespace ByteStore

section Lines

variable {β : Type} [ByteStore β] {store : β} {text : String}

theorem writeLine_of_fits (h : (write store (Text.utf8 text.toList)).2 = true) :
    writeLine store text =
      (write (write store (Text.utf8 text.toList)).1 (Text.utf8 ['\n'])).1 := if_pos h

theorem writeLine_of_not_fits (h : ¬ (write store (Text.utf8 text.toList)).2 = true) :
    writeLine store text = (write store (Text.utf8 text.toList)).1 := if_neg h

end Lines

/-- The bytes that fit are written, whether or not all of them do. -/
theorem write_cut (n : Nat) (bytes more : List UInt8) :
    (write ((Buffer.mk bytes).cut n) more).1 = (Buffer.mk (bytes ++ more)).cut n := by
  simp [write, Buffer.cut, List.take_append, Nat.sub_sub]

theorem fits_cut_iff : (write ((Buffer.mk bytes).cut n) more).2 = true ↔
    more.length ≤ n - bytes.length := decide_eq_true_iff

/-- The line feed that a bounded buffer is not asked for would not have fitted. -/
theorem writeLine_cut (n : Nat) (b : Buffer) (text : String) :
    writeLine (b.cut n) text = (writeLine b text).cut n := by
  obtain ⟨bytes⟩ := b
  have hline : lineBytes [text] = Text.utf8 text.toList ++ Text.utf8 ['\n'] := by
    simp [lineBytes, Text.utf8]
  rw [writeLine_buffer, hline, ← List.append_assoc]
  by_cases hfits : (Text.utf8 text.toList).length ≤ n - bytes.length
  · rw [writeLine_of_fits (fits_cut_iff.mpr hfits), write_cut, write_cut]
  · have hfull : n ≤ (bytes ++ Text.utf8 text.toList).length := by
      rw [List.length_append]
      omega
    rw [writeLine_of_not_fits (mt fits_cut_iff.mp hfits), write_cut,
      Buffer.cut_append_of_le hfull]

/-- Lines after lines: the bounded buffer stays a cut of the unbounded one. -/
theorem foldl_writeLine_cut (n : Nat) (b : Buffer) (texts : List String) :
    texts.foldl writeLine (b.cut n) = (texts.foldl writeLine b).cut n := by
  induction texts generalizing b with
  | nil => rfl
  | cons text texts ih =>
    rw [List.foldl_cons, List.foldl_cons, writeLine_cut]
    exact ih _

/-- What a bounded buffer holds after lines are written to it. -/
theorem foldl_writeLine_bounded (n : Nat) (texts : List String) :
    texts.foldl writeLine ({ free := n } : BoundedBuffer) =
      ⟨(lineBytes texts).take n, n - (lineBytes texts).length⟩ := by
  rw [← Buffer.cut_empty, foldl_writeLine_cut, foldl_writeLine_buffer]
  rfl

/-- From the first line on that does not fit, nothing is written but the part of it that does. -/
theorem foldl_writeLine_full {text : String} {before : List String} (after : List String)
    (h : n - (lineBytes before).length < (lineBytes [text]).length) :
    (before ++ text :: after).foldl writeLine ({ free := n } : BoundedBuffer) =
      ⟨(lineBytes before).take n ++ (lineBytes [text]).take (n - (lineBytes before).length), 0⟩ := by
  have hlines : lineBytes (before ++ text :: after) =
      lineBytes before ++ (lineBytes [text] ++ lineBytes after) := by simp [lineBytes]
  rw [foldl_writeLine_bounded, hlines, List.take_append,
    List.take_append_of_le_length (Nat.le_of_lt h)]
  refine congrArg (BoundedBuffer.mk _) ?_
  rw [List.length_append, List.length_append]
  omega

end ByteStore

/-! ## Lists of entries -/

/-- A writer of any kind writes the entries one by one, or stops with the first fault. -/
theorem run_logEntries_writer {β : Type} [ByteStore β] (store : β) (style : LogStyle)
    (es : List LogEntry) (j : Journal) :
    (logEntries (⟨store, style⟩ : Writer β) es).run.run j =
      ((es.mapM (LogEntry.render style)).map fun texts =>
        ⟨texts.foldl ByteStore.writeLine store, style⟩, j) := by
  induction es generalizing store with
  | nil => rfl
  | cons e es ih =>
    have hlog := run_log_writer (⟨store, style⟩ : Writer β) e j
    rw [logEntries, List.foldlM_cons, List.mapM_cons]
    cases he : e.render style with
    | error fault =>
      rw [he] at hlog
      exact run_bind_of_error hlog
    | ok text =>
      rw [he] at hlog
      refine (run_bind_of_ok hlog).trans ((ih (ByteStore.writeLine store text)).trans ?_)
      cases es.mapM (LogEntry.render style) <;> rfl

theorem run_logEntries_of_texts {β : Type} [ByteStore β] (store : β) {es : List LogEntry}
    {texts : List String} (h : es.mapM (LogEntry.render style) = .ok texts) (j : Journal) :
    (logEntries ({ store, style } : Writer β) es).run.run j =
      (.ok { store := texts.foldl ByteStore.writeLine store, style }, j) := by
  rw [run_logEntries_writer, h]
  rfl

/-- Entries that do not overflow have texts, for nothing else can go wrong. -/
theorem exists_texts {es : List LogEntry} (h : ∀ e ∈ es, e.render style ≠ .error .sumOverflow) :
    ∃ texts, es.mapM (LogEntry.render style) = .ok texts := by
  induction es with
  | nil => exact ⟨[], rfl⟩
  | cons e es ih =>
    obtain ⟨texts, htexts⟩ := ih fun e' he' => h e' (List.mem_cons_of_mem e he')
    cases he : e.render style with
    | error fault =>
      obtain rfl := LogEntry.eq_sumOverflow_of_render he
      exact absurd he (h e List.mem_cons_self)
    | ok text =>
      refine ⟨text :: texts, ?_⟩
      rw [List.mapM_cons, he, htexts]
      rfl

/-- **A log is cut off where the buffer ends.** As long as rendering does not overflow, a writer
finishes, whatever the size of its buffer. An unbounded one holds the text of each entry, on a line
of its own; one of `n` bytes holds the first `n` of these bytes, or all of them, and what is left of
it is free. Where a line does not fit behind those before it, the part of it that fits is the last
thing written: no later entry adds a byte. -/
theorem log_truncated (es : List LogEntry) (style : LogStyle) (n : Nat) (j : Journal)
    (h : ∀ e ∈ es, e.render style ≠ .error .sumOverflow) :
    ∃ texts, es.mapM (LogEntry.render style) = .ok texts ∧
      (logEntries ({ store := {}, style } : Writer Buffer) es).run.run j =
        (.ok { store := ⟨lineBytes texts⟩, style }, j) ∧
      (logEntries ({ store := { free := n }, style } : Writer BoundedBuffer) es).run.run j =
        (.ok { store := ⟨(lineBytes texts).take (min n (lineBytes texts).length),
          n - min n (lineBytes texts).length⟩, style }, j) ∧
      ∀ before e after text held free, es = before ++ e :: after → e.render style = .ok text →
        (logEntries ({ store := { free := n }, style } : Writer BoundedBuffer) before).run.run j =
          (.ok { store := ⟨held, free⟩, style }, j) →
        free < (lineBytes [text]).length →
        (logEntries ({ store := { free := n }, style } : Writer BoundedBuffer) es).run.run j =
          (.ok { store := ⟨held ++ (lineBytes [text]).take free, 0⟩, style }, j) := by
  obtain ⟨texts, htexts⟩ := exists_texts h
  refine ⟨texts, htexts, ?_, ?_, ?_⟩
  · rw [run_logEntries_of_texts _ htexts, foldl_writeLine_buffer]
    rfl
  · have hleft : n - min n (lineBytes texts).length = n - (lineBytes texts).length := by omega
    rw [run_logEntries_of_texts _ htexts, ByteStore.foldl_writeLine_bounded, hleft,
      ← List.take_eq_take_min]
  · rintro before e after text held free rfl he hbefore hfree
    obtain ⟨earlier, hearlier⟩ := exists_texts fun e' he' => h e' (List.mem_append_left _ he')
    obtain ⟨later, hlater⟩ := exists_texts fun e' he' =>
      h e' (List.mem_append_right _ (List.mem_cons_of_mem e he'))
    have hall : (before ++ e :: after).mapM (LogEntry.render style) =
        .ok (earlier ++ text :: later) := by
      rw [List.mapM_append, List.mapM_cons, hearlier, he, hlater]
      rfl
    rw [run_logEntries_of_texts _ hearlier, ByteStore.foldl_writeLine_bounded] at hbefore
    cases hbefore
    rw [run_logEntries_of_texts _ hall, ByteStore.foldl_writeLine_full later hfree]

/-- Three entries and nineteen bytes: the second line is cut off inside its last character, and the
third one comes too late. -/
theorem log_truncated_samples :
    let first : LogEntry := { level := .error, message := "a" }
    let second : LogEntry := { level := .warning, message := "é" }
    let third : LogEntry := { level := .error, message := "c" }
    (∀ e ∈ [first, second, third], e.render .plain ≠ .error .sumOverflow) ∧
    (logEntries ({ store := { free := 19 } } : Writer BoundedBuffer)
      [first, second, third]).run.run {} =
      (.ok { store := ⟨Text.utf8 "error: a\nwarning: ".toList ++ [0xc3], 0⟩ }, {}) := by
  intro first second third
  have hall : ∀ e ∈ [first, second, third], e.render .plain ≠ .error .sumOverflow := by
    decide +kernel
  have htext : second.render .plain = .ok "warning: é" := by decide +kernel
  have hfirst : [first].mapM (LogEntry.render .plain) = .ok ["error: a"] := by decide +kernel
  have hheld : (logEntries ({ store := { free := 19 } } : Writer BoundedBuffer)
      [first]).run.run {} = (.ok { store := ⟨Text.utf8 "error: a\n".toList, 10⟩ }, {}) := by
    rw [run_logEntries_of_texts _ hfirst, ByteStore.foldl_writeLine_bounded]
    rfl
  obtain ⟨_, _, _, _, hcut⟩ := log_truncated [first, second, third] .plain 19 {} hall
  refine ⟨hall, (hcut [first] second [third] _ _ _ rfl htext hheld (by decide +kernel)).trans ?_⟩
  rfl

end SourceDiagnostics
