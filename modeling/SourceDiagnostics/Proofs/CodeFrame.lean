import SourceDiagnostics.Log.Rendering
import SourceDiagnostics.Proofs.LocationText
import SourceDiagnostics.Proofs.PositionOrder
import SourceDiagnostics.Proofs.TextLines

/-!
Code frames of real locations.

* `trimLineEnd_append`: trimming takes off the ending of a line and nothing else;
* `SourceFile.line_of_start`: two consecutive starts of a table cut out a line of the text;
* `CodeFrame.ofLocation_eq`: a location whose line can be counted from one has a frame, and what is
  in it;
* `LogEntry.framed_exact`: what the frame adds to an entry.
-/

namespace SourceDiagnostics

open Text

variable {cs ds : List Char} {i : Nat} {k : Cut} {f : SourceFile} {l : SourceLocation}
  {p : Position} {start : UInt32} {body : List Char}

/-! ## Bodies -/

theorem trimLineEnd_append (hcs : Unbroken cs) (hds : ∀ c ∈ ds, c = '\n' ∨ c = '\r') :
    trimLineEnd (cs ++ ds) = cs := by
  have hend : ∀ c ∈ ds.reverse, (c == '\n' || c == '\r') = true := by
    intro c hc
    simpa using hds c (List.mem_reverse.mp hc)
  have hbody : cs.reverse.dropWhile (fun c => c == '\n' || c == '\r') = cs.reverse := by
    cases hr : cs.reverse with
    | nil => rfl
    | cons c rest =>
      obtain ⟨hcr, hlf⟩ := hcs c (List.mem_reverse.mp (hr ▸ List.mem_cons_self))
      exact List.dropWhile_cons_of_neg (by simp [hcr, hlf])
  rw [trimLineEnd, List.reverse_append, List.dropWhile_append_of_pos hend, hbody,
    List.reverse_reverse]

theorem LineEnd.mem_text {e : LineEnd} {c : Char} (h : c ∈ e.text) : c = '\n' ∨ c = '\r' := by
  cases e <;> simp_all [text, or_comm]

/-- A line is its body and its ending, which the last line does without. -/
theorem Cut.exists_ending (k : Cut) {piece : List Char} (h : k.pieces[i]? = some piece) :
    ∃ body ending, k.bodies[i]? = some body ∧ Unbroken body ∧ piece = body ++ ending ∧
      ∀ c ∈ ending, c = '\n' ∨ c = '\r' := by
  rw [pieces, List.getElem?_append] at h
  rw [bodies, List.getElem?_append]
  simp only [List.length_map, List.getElem?_map] at h ⊢
  split at h
  · next hi =>
    obtain ⟨l, hl, rfl⟩ := Option.map_eq_some_iff.mp h
    refine ⟨l.body, l.ending.text, ?_, l.unbroken, rfl, fun c => LineEnd.mem_text⟩
    rw [if_pos hi, hl, Option.map_some]
  · next hi =>
    refine ⟨piece, [], by rw [if_neg hi, h], ?_, (List.append_nil _).symm, by simp⟩
    obtain rfl := List.mem_singleton.mp (List.mem_of_getElem? h)
    exact k.unbroken

/-! ## Lines between words -/

theorem LineTable.getElem?_offsets (t : LineTable) (i : Nat) :
    t.offsets[i]? = t.starts[i]?.map UInt32.toNat := by
  simp [offsets]

theorem SourceFile.toNat_len (h : f.byteCount ≤ maxWord) : f.len.toNat = f.byteCount := by
  rw [len, toNat_clampWord, Nat.min_eq_left h]

theorem SourceFile.offsets_eq (h : f.byteCount ≤ maxWord) (hk : k.text = f.content.toList) :
    f.lineTable.offsets = k.starts := by
  rw [← k.lineStarts_text, hk]
  exact LineTable.offsets_ofText h

/-- The line that starts at an entry of the table: its body and its ending, cut out by this entry
and the next one, or the end of the text. -/
theorem SourceFile.line_of_start (h : f.byteCount ≤ maxWord) (hk : k.text = f.content.toList)
    (hstart : f.lineTable.starts[i]? = some start) :
    ∃ before body ending after, k.bodies[i]? = some body ∧ Unbroken body ∧
      (∀ c ∈ ending, c = '\n' ∨ c = '\r') ∧
      f.content.toList = before ++ (body ++ ending) ++ after ∧
      byteLength before = start.toNat ∧
      slice? f.content.toList start.toNat ((f.lineTable.starts[i + 1]?.getD f.len).toNat) =
        some (body ++ ending) := by
  have hoffsets := SourceFile.offsets_eq h hk
  have hword : k.starts[i]? = some start.toNat := by
    rw [← hoffsets, LineTable.getElem?_offsets, hstart, Option.map_some]
  have hnext : (f.lineTable.starts[i + 1]?.getD f.len).toNat =
      k.starts[i + 1]?.getD (byteLength k.text) := by
    rw [← hoffsets, LineTable.getElem?_offsets, hk]
    cases f.lineTable.starts[i + 1]? with
    | none => exact toNat_len h
    | some next => rfl
  obtain ⟨piece, hpiece⟩ : ∃ piece, k.pieces[i]? = some piece := by
    rw [Cut.getElem?_starts] at hword
    exact (Option.map_eq_some_iff.mp hword).imp fun _ h => h.1
  obtain ⟨body, ending, hbody, hunbroken, rfl, hending⟩ := k.exists_ending hpiece
  obtain ⟨hs, hslice⟩ := k.slice?_line hpiece
  have hbefore := Option.some.inj (hs.symm.trans hword)
  have htext := hk ▸ k.text_eq_of_piece hpiece
  refine ⟨_, body, ending, _, hbody, hunbroken, hending, htext, hbefore, ?_⟩
  rw [hnext, ← hbefore, ← hk]
  exact hslice

/-! ## Frames -/

theorem length_filter_range (a b n : Nat) :
    ((List.range n).filter fun p => a ≤ p ∧ p < b).length = min n b - a := by
  induction n with
  | zero => simp
  | succ n ih =>
    rw [List.range_succ, List.filter_append, List.length_append, ih]
    by_cases h : a ≤ n ∧ n < b
    · simp [h]
      omega
    · simp [h]
      omega

/-- The frame of a location whose line can be counted from one. Its column does not matter. -/
theorem CodeFrame.ofLocation_eq (h : l.file.byteCount ≤ maxWord) (hp : l.startPosition = .ok p)
    (hline : p.line.toNat ≠ maxWord) (hk : k.text = l.file.content.toList)
    (hstart : l.file.lineTable.starts[p.line.toNat]? = some start)
    (hbody : k.bodies[p.line.toNat]? = some body) :
    CodeFrame.ofLocation l = .ok (some {
      line := p.line + 1
      body
      indent := p.character.toNat
      markers := max 1 (min l.span.stop.toNat (start.toNat + byteLength body) -
        l.span.start.toNat) }) := by
  obtain ⟨before, body', ending, after, hbody', hunbroken, hending, htext, hbefore, hslice⟩ :=
    l.file.line_of_start h hk hstart
  obtain rfl : body' = body := Option.some.inj (hbody'.symm.trans hbody)
  have hfits : start.toNat + byteLength body' ≤ maxWord := by
    refine Nat.le_trans ?_ h
    rw [SourceFile.byteCount, htext]
    simp only [byteLength_append]
    omega
  have hlength : (clampWord (byteLength body')).toNat = byteLength body' := by
    rw [toNat_clampWord, Nat.min_eq_left (by omega)]
  have hend : checkedAdd start (clampWord (byteLength body')) =
      .ok (start + clampWord (byteLength body')) := checkedAdd_eq_ok (by rwa [hlength])
  have hsum : (start + clampWord (byteLength body')).toNat = start.toNat + byteLength body' := by
    rw [UInt32.toNat_add, hlength, Nat.mod_eq_of_lt (by rw [maxWord] at hfits; omega)]
  simp only [ofLocation, hp, hstart, hslice, trimLineEnd_append hunbroken hending, hend,
    Position.checkedAdd_one hline, bind, Except.bind, hsum]
  rfl

/-! ## Entries -/

namespace LogEntry

variable {e : LogEntry} {header : String}

theorem header_of_location (hl : e.location = some l) (ht : l.text = .ok header) :
    e.header = .ok (header ++ " - " ++ e.label) := by
  simp only [LogEntry.header, origin, hl, ht]
  rfl

theorem frame_of_location {frame : CodeFrame} (hl : e.location = some l)
    (hs : l.isSynthetic = false) (hf : CodeFrame.ofLocation l = .ok (some frame)) :
    e.frame = .ok frame.render := by
  simp only [LogEntry.frame, hl, hs, hf]
  rfl

/-- Nothing is framed without a real location. -/
theorem frame_of_not_real (h : ∀ l, e.location = some l → l.isSynthetic = true) :
    e.frame = .ok "" := by
  cases hl : e.location with
  | none =>
    simp only [LogEntry.frame, hl]
    rfl
  | some l =>
    simp only [LogEntry.frame, hl, h l hl]
    rfl

theorem render_framed_eq (e : LogEntry) :
    e.render .framed = do return (← e.render .plain) ++ (← e.frame) := by
  cases he : e.header <;> simp only [render, he] <;> rfl

end LogEntry

/-- **A framed entry is the plain one with a well-formed frame, and there always is a frame.** Of a
real location in a file that fits the words of its offsets, whose text can be written, the frame has
the number of the line and the line without its ending, cut out of the text between characters;
below stand as many blanks as bytes of the line stand before the column, and one tilde for each
offset of the span that lies before the end of that body, but at least one. Number and column are
those of the text of the location. Entries without a real location have no frame. -/
theorem LogEntry.framed_exact (e : LogEntry) :
    (∀ l header, e.location = some l → l.isSynthetic = false → l.file.byteCount ≤ maxWord →
      l.text = .ok header → ∃ (k : Cut) (i c start m : Nat) (body : List Char),
        header = l.path ++ ":" ++ toString (i + 1) ++ ":" ++ toString (c + 1) ∧
        e.render .plain = .ok (header ++ " - " ++ e.label) ∧
        e.render .framed = .ok (header ++ " - " ++ e.label ++
          ("\n\n" ++ toString (i + 1) ++ " | " ++ String.ofList body ++ "\n" ++
            String.ofList (List.replicate (toString (i + 1)).length ' ') ++ " | " ++
            String.ofList (List.replicate c ' ') ++ String.ofList (List.replicate m '~'))) ∧
        (∃ frame, CodeFrame.ofLocation l = .ok (some frame)) ∧
        k.text = l.file.content.toList ∧ k.bodies[i]? = some body ∧ Unbroken body ∧
        l.file.lineTable.offsets[i]? = some start ∧
        slice? l.file.content.toList start (start + byteLength body) = some body ∧
        m = max 1 ((List.range l.span.stop.toNat).filter fun p =>
          l.span.start.toNat ≤ p ∧ p < start + byteLength body).length) ∧
    ((∀ l, e.location = some l → l.isSynthetic = true) →
      e.render .framed = e.render .plain) := by
  constructor
  · intro l header hl hs h ht
    obtain ⟨p, hp, hlast, _⟩ := LineTable.position_spec_last h l.span.start
    have hfull : ¬ p.Full := by
      intro hfull
      rw [SourceLocation.text_of_full hp hfull] at ht
      cases ht
    obtain ⟨start, hstart, _⟩ := hlast.started
    obtain ⟨k, hk⟩ := Cut.exists_text_eq l.file.content.toList
    obtain ⟨before, body, ending, after, hbody, hunbroken, _, htext, hbefore, _⟩ :=
      l.file.line_of_start h hk hstart
    have hframe := CodeFrame.ofLocation_eq h hp (not_or.mp hfull).1 hk hstart hbody
    rw [← length_filter_range] at hframe
    have hheader := Except.ok.inj (ht.symm.trans (SourceLocation.text_of_not_full hp hfull))
    have hslice : slice? l.file.content.toList start.toNat (start.toNat + byteLength body) =
        some body := by
      rw [htext, ← hbefore, ← List.append_assoc, List.append_assoc (before ++ body)]
      exact slice?_append before body (ending ++ after)
    have hplain : e.render .plain = .ok (header ++ " - " ++ e.label) :=
      congrArg (· >>= pure) (header_of_location hl ht)
    have hoffset : l.file.lineTable.offsets[p.line.toNat]? = some start.toNat :=
      (LineTable.getElem?_offsets _ _).trans (congrArg (Option.map UInt32.toNat) hstart)
    refine ⟨k, p.line.toNat, p.character.toNat, start.toNat, max 1 _, body, hheader, hplain, ?_,
      ⟨_, hframe⟩, hk, hbody, hunbroken, hoffset, hslice, rfl⟩
    rw [render_framed_eq, hplain, frame_of_location hl hs hframe, CodeFrame.render,
      Position.toNat_add_one (not_or.mp hfull).1]
    rfl
  · intro h
    rw [render_framed_eq, frame_of_not_real h]
    cases e.render .plain with
    | error f => rfl
    | ok text => exact congrArg Except.ok String.append_empty

/-- An inverted span that starts within a character, and an entry without a location. -/
theorem framed_exact_samples :
    let l : SourceLocation :=
      ⟨⟨⟨0⟩, "main.tsp", "a\r\nmodel é \x7b\x7d\r\n"⟩, ⟨10, 4⟩, false⟩
    let e : LogEntry := { level := .error, message := "bad", location := some l }
    let bare : LogEntry := { level := .trace, message := "done" }
    (l.isSynthetic = false ∧ l.file.byteCount ≤ maxWord ∧ l.text = .ok "main.tsp:2:8" ∧
      e.render .framed =
        .ok "main.tsp:2:8 - error: bad\n\n2 | model é \x7b\x7d\n  |        ~" ∧
      ∃ (k : Cut) (i start : Nat) (body : List Char) (frame : CodeFrame),
        CodeFrame.ofLocation l = .ok (some frame) ∧ k.text = l.file.content.toList ∧
        k.bodies[i]? = some body ∧ Unbroken body ∧
        slice? l.file.content.toList start (start + byteLength body) = some body) ∧
    (∀ l, bare.location = some l → l.isSynthetic = true) ∧
      bare.render .framed = bare.render .plain := by
  intro l e bare
  have hbytes : l.file.byteCount ≤ maxWord := by decide +kernel
  have htext : l.text = .ok "main.tsp:2:8" := by decide +kernel
  have hbare : ∀ l, bare.location = some l → l.isSynthetic = true := by
    intro l h
    cases h
  obtain ⟨k, i, _, start, _, body, _, _, _, ⟨frame, hframe⟩, hk, hbody, hunbroken, _, hslice, _⟩ :=
    (LogEntry.framed_exact e).1 l _ rfl rfl hbytes htext
  exact ⟨⟨rfl, hbytes, htext, by decide +kernel, k, i, start, body, frame, hframe, hk, hbody,
    hunbroken, hslice⟩, hbare, (LogEntry.framed_exact bare).2 hbare⟩

end SourceDiagnostics
