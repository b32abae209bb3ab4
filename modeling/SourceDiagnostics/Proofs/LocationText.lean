import SourceDiagnostics.Proofs.LineTable
import SourceDiagnostics.Source.Location

/-!
What is shown of a location: its path, and the line and the column of its start, counted from one.

* `SourceFile.exists_position`: every offset has a position, whatever the text;
* `Position.oneBased_of_not_full`, `oneBased_of_full`: counting from one fails only where a number
  of the position is the largest word;
* `SourceFile.full_iff`: in a text that fits the words of its offsets, that takes the last of all
  offsets, and a text of one line or of nothing but line ends;
* `SourceLocation.text_of_empty`: what is shown of an empty file.
-/

namespace SourceDiagnostics

open Text

/-! ## Every offset has a position -/

namespace LineTable

/-- What bisection knows of the entries beside its result in any table, sorted or not. -/
theorem bisect_bounds (starts : Array UInt32) (offset : UInt32) {lo hi : Nat} (hle : lo ≤ hi)
    (hhi : hi ≤ starts.size) :
    lo ≤ bisect starts offset lo hi ∧ bisect starts offset lo hi ≤ hi ∧
      (bisect starts offset lo hi = lo ∨
        ∃ a, starts[bisect starts offset lo hi - 1]? = some a ∧ a ≤ offset) ∧
      (bisect starts offset lo hi = hi ∨
        ∃ a, starts[bisect starts offset lo hi]? = some a ∧ offset < a) := by
  fun_induction bisect starts offset lo hi with
  | case1 lo hi hlt mid hnone =>
    have : starts.size ≤ mid := Array.getElem?_eq_none_iff.mp hnone
    omega
  | case2 lo hi hlt mid start hmid hstart ih =>
    obtain ⟨hlo, hup, hbelow, habove⟩ := ih (by omega) hhi
    refine ⟨by omega, hup, Or.inr ?_, habove⟩
    rcases hbelow with hr | hbelow
    · rw [hr]
      exact ⟨start, hmid, hstart⟩
    · exact hbelow
  | case3 lo hi hlt mid start hmid hstart ih =>
    obtain ⟨hlo, hup, hbelow, habove⟩ := ih (by omega) (by omega)
    refine ⟨hlo, by omega, hbelow, Or.inr ?_⟩
    rcases habove with hr | habove
    · rw [hr]
      exact ⟨start, hmid, UInt32.not_le.mp hstart⟩
    · exact habove
  | case4 lo hi hlt =>
    obtain rfl : lo = hi := by omega
    exact ⟨hle, hle, Or.inl rfl, Or.inl rfl⟩

/-- A table that begins at offset 0 has a line for every offset. -/
theorem exists_position {t : LineTable} (h : t.starts[0]? = some 0) (offset : UInt32) :
    ∃ p, t.position offset = .ok p := by
  obtain ⟨_, hsize, hbelow, habove⟩ :=
    bisect_bounds t.starts offset (Nat.zero_le _) (Nat.le_refl _)
  change t.startedBy offset ≤ _ at hsize
  change t.startedBy offset = 0 ∨ ∃ a, t.starts[t.startedBy offset - 1]? = some a ∧ _ at hbelow
  change t.startedBy offset = _ ∨ ∃ a, t.starts[t.startedBy offset]? = some a ∧ _ at habove
  unfold position
  cases hr : t.startedBy offset with
  | zero =>
    -- The first line starts at or before every offset, so it is not above the result.
    rw [hr] at habove
    rcases habove with hempty | ⟨a, ha, hlt⟩
    · have := (Array.getElem?_eq_some_iff.mp h).1
      omega
    · rw [h] at ha
      cases ha
      exact absurd hlt (UInt32.not_lt.mpr UInt32.zero_le)
  | succ line =>
    rw [hr] at hbelow
    rcases hbelow with hzero | ⟨a, ha, hle⟩
    · cases hzero
    · rw [Nat.add_sub_cancel] at ha
      simp only [ha, checkedSub_eq_ok hle]
      exact ⟨_, rfl⟩

theorem position_nil : (ofText []).position 0 = .ok ⟨0, 0⟩ := by decide +kernel

end LineTable

theorem SourceFile.exists_position (f : SourceFile) (offset : UInt32) :
    ∃ p, f.position offset = .ok p :=
  LineTable.exists_position (by rw [SourceFile.lineTable, LineTable.getElem?_starts]; rfl) offset

/-! ## Counting from one -/

namespace Position

variable {p : Position}

/-- The line or the column has no successor among the words. -/
def Full (p : Position) : Prop := p.line.toNat = maxWord ∨ p.character.toNat = maxWord

theorem toNat_add_one {w : UInt32} (h : w.toNat ≠ maxWord) : (w + 1).toNat = w.toNat + 1 := by
  have := w.toNat_lt
  rw [maxWord] at h
  rw [UInt32.toNat_add]
  exact Nat.mod_eq_of_lt (by change w.toNat + 1 < _; omega)

theorem checkedAdd_one {w : UInt32} (h : w.toNat ≠ maxWord) : checkedAdd w 1 = .ok (w + 1) := by
  have := w.toNat_lt
  refine checkedAdd_eq_ok ?_
  change w.toNat + 1 ≤ maxWord
  rw [maxWord] at h ⊢
  omega

theorem checkedAdd_one_of_full {w : UInt32} (h : w.toNat = maxWord) :
    checkedAdd w 1 = .error .sumOverflow := by
  refine if_neg ?_
  change ¬ w.toNat + 1 ≤ maxWord
  omega

theorem oneBased_of_not_full (h : ¬ p.Full) : p.oneBased = .ok (p.line + 1, p.character + 1) := by
  obtain ⟨hline, hcharacter⟩ := not_or.mp h
  rw [oneBased, checkedAdd_one hline, checkedAdd_one hcharacter]
  rfl

theorem oneBased_of_full (h : p.Full) : p.oneBased = .error .sumOverflow := by
  unfold oneBased
  by_cases hline : p.line.toNat = maxWord
  · rw [checkedAdd_one_of_full hline]
    rfl
  · rw [checkedAdd_one hline, checkedAdd_one_of_full (h.resolve_left hline)]
    rfl

end Position

/-- The last of all offsets is in the last line of a text that fits the words of its offsets. -/
theorem LineTable.line_add_one_of_last {cs : List Char} {i s : Nat} (hcs : byteLength cs ≤ maxWord)
    (hi : (lineStarts cs)[i]? = some s)
    (hnext : ∀ next, (lineStarts cs)[i + 1]? = some next → maxWord < next) :
    i + 1 = (lineStarts cs).length := by
  have hlt := (List.getElem?_eq_some_iff.mp hi).1
  rcases Nat.lt_or_ge (i + 1) (lineStarts cs).length with h | h
  · have hsome := List.getElem?_eq_getElem h
    have := hnext _ hsome
    have := le_of_mem_lineStarts (List.mem_of_getElem? hsome)
    omega
  · omega

/-- Counting from one takes more than a word only at the last of all offsets: in a text of one line
the column does not fit, and in a text of line ends only, as many as there are offsets, the line. -/
theorem SourceFile.full_iff (f : SourceFile) (h : f.byteCount ≤ maxWord) {offset : UInt32}
    {p : Position} (hp : f.position offset = .ok p) :
    p.Full ↔ offset.toNat = maxWord ∧
      (f.lineTable.lineCount = 1 ∨ f.lineTable.lineCount = maxWord + 1) := by
  obtain ⟨p', start, hp', hline, hstart, hnext, hcharacter⟩ := LineTable.position_spec h offset
  obtain rfl : p' = p := Except.ok.inj (hp'.symm.trans hp)
  have hcount : f.lineTable.lineCount = (lineStarts f.content.toList).length := by
    simp [LineTable.lineCount, lineTable, LineTable.ofText]
  have hoffset : offset.toNat ≤ maxWord := Nat.le_of_lt_succ offset.toNat_lt
  have hindex := index_le_of_lineStarts hline
  have hlast : offset.toNat = maxWord → p'.line.toNat + 1 = f.lineTable.lineCount := by
    intro he
    rw [hcount]
    exact LineTable.line_add_one_of_last h hline (he ▸ hnext)
  constructor
  · rintro (hfull | hfull)
    · have he : offset.toNat = maxWord := by omega
      exact ⟨he, Or.inr (by rw [← hlast he, hfull])⟩
    · have he : offset.toNat = maxWord := by omega
      exact ⟨he, Or.inl (by rw [← hlast he]; omega)⟩
  · rintro ⟨he, hlines⟩
    have hlines' := hlast he
    rcases hlines with hone | hall
    · -- The only line starts at offset 0.
      obtain hzero : p'.line.toNat = 0 := by omega
      rw [hzero] at hline
      cases hline
      exact Or.inr (by omega)
    · exact Or.inl (by omega)

/-! ## The text of a location -/

namespace SourceLocation

variable {l : SourceLocation} {p : Position}

theorem exists_startPosition (l : SourceLocation) : ∃ p, l.startPosition = .ok p :=
  l.file.exists_position l.span.start

theorem text_of_not_full (hp : l.startPosition = .ok p) (h : ¬ p.Full) :
    l.text = .ok (l.path ++ ":" ++ toString (p.line.toNat + 1) ++ ":" ++
      toString (p.character.toNat + 1)) := by
  obtain ⟨hline, hcharacter⟩ := not_or.mp h
  rw [← Position.toNat_add_one hline, ← Position.toNat_add_one hcharacter]
  simp only [text, hp, bind, Except.bind, Position.oneBased_of_not_full h]
  rfl

theorem text_of_full (hp : l.startPosition = .ok p) (h : p.Full) :
    l.text = .error .sumOverflow := by
  simp only [text, hp, bind, Except.bind, Position.oneBased_of_full h]

theorem startPosition_of_empty (hc : l.file.content = "") (hs : l.span = Span.dummy) :
    l.startPosition = .ok ⟨0, 0⟩ := by
  rw [startPosition, SourceFile.position, SourceFile.lineTable, hc, hs]
  exact LineTable.position_nil

theorem text_of_empty (hc : l.file.content = "") (hs : l.span = Span.dummy) :
    l.text = .ok (l.path ++ ":1:1") := by
  have hfull : ¬ (Position.mk 0 0).Full := by simp [Position.Full, maxWord]
  rw [text_of_not_full (startPosition_of_empty hc hs) hfull, String.append_assoc,
    String.append_assoc, String.append_assoc]
  rfl

end SourceLocation

end SourceDiagnostics
