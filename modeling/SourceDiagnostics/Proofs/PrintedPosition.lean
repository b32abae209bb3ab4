import SourceDiagnostics.Proofs.LocationText
import SourceDiagnostics.Proofs.PositionOrder
import SourceDiagnostics.Proofs.Separators

/-!
What the text of a location tells.

A path may hold colons and digits, so the text is read from its end: a number has no colon and is
written in one way only. What remains is the path, and the two numbers give the offset back, whether
or not the file is that long.

* `append_number_inj`: a number after a colon can be taken off again;
* `SourceFile.position_injective`: no two offsets of a file have the same position;
* `SourceLocation.text_lossless`: equal texts mean equal paths and positions.
-/

namespace SourceDiagnostics

open Text

/-! ## Numbers after a colon -/

theorem colon_not_mem_toString (n : Nat) : ':' ∉ (toString n).toList := by
  intro h
  rw [Nat.toString_eq_repr, Nat.toList_repr] at h
  exact absurd (Nat.isDigit_of_mem_toDigits (by decide) (by decide) h) (by decide)

theorem append_number_inj {s t : String} {m n : Nat} :
    s ++ ":" ++ toString m = t ++ ":" ++ toString n ↔ s = t ∧ m = n := by
  have hlist : ∀ (s : String) (n : Nat),
      (s ++ ":" ++ toString n).toList = s.toList ++ ':' :: (toString n).toList := by
    intro s n
    simp
  rw [← String.toList_inj, hlist, hlist,
    append_cons_inj_of_not_mem (colon_not_mem_toString m) (colon_not_mem_toString n),
    String.toList_inj, toList_toString_inj]

/-! ## Positions -/

theorem SourceFile.position_injective {f : SourceFile} (h : f.byteCount ≤ maxWord)
    {offset offset' : UInt32} {p : Position} (hp : f.position offset = .ok p)
    (hp' : f.position offset' = .ok p) : offset = offset' := by
  have hoffset := ((LineTable.position_eq_ok_iff h).mp hp).2
  have hoffset' := ((LineTable.position_eq_ok_iff h).mp hp').2
  exact UInt32.toNat_inj.mp (Option.some.inj (hoffset.symm.trans hoffset'))

theorem Position.oneBased_eq_ok_iff {p : Position} {line column : UInt32} :
    p.oneBased = .ok (line, column) ↔ ¬ p.Full ∧ p.line + 1 = line ∧ p.character + 1 = column := by
  by_cases hfull : p.Full
  · simp [oneBased_of_full hfull, hfull]
  · simp [oneBased_of_not_full hfull, hfull]

/-- Counting from one does not make two positions one. -/
theorem Position.oneBased_injective {p q : Position} {numbers : UInt32 × UInt32}
    (hp : p.oneBased = .ok numbers) (hq : q.oneBased = .ok numbers) : p = q := by
  obtain ⟨_, hline, hcolumn⟩ := oneBased_eq_ok_iff.mp hp
  obtain ⟨_, hline', hcolumn'⟩ := oneBased_eq_ok_iff.mp hq
  cases p
  cases q
  exact congrArg₂ Position.mk ((UInt32.add_left_inj 1).mp (hline.trans hline'.symm))
    ((UInt32.add_left_inj 1).mp (hcolumn.trans hcolumn'.symm))

/-! ## Texts -/

namespace SourceLocation

variable {a b l : SourceLocation} {s t : String}

/-- The line and the column of the start, counted from one. -/
def lineAndColumn (l : SourceLocation) : Except Fault (UInt32 × UInt32) := do
  (← l.startPosition).oneBased

theorem text_eq_ok_iff : l.text = .ok s ↔ ∃ line column, l.lineAndColumn = .ok (line, column) ∧
    s = l.path ++ ":" ++ toString line.toNat ++ ":" ++ toString column.toNat := by
  have htext : l.text = l.lineAndColumn.map fun numbers =>
      l.path ++ ":" ++ toString numbers.1.toNat ++ ":" ++ toString numbers.2.toNat := by
    unfold text lineAndColumn
    cases l.startPosition with
    | error fault => rfl
    | ok p => cases p.oneBased <;> rfl
  rw [htext]
  cases l.lineAndColumn with
  | error fault => simp [Except.map]
  | ok numbers => simp [Except.map, Prod.ext_iff, eq_comm]

/-- In one text the numbers tell the offset. -/
theorem lineAndColumn_eq_iff (hc : a.file.content = b.file.content)
    (h : a.file.byteCount ≤ maxWord) {numbers numbers' : UInt32 × UInt32}
    (ha : a.lineAndColumn = .ok numbers) (hb : b.lineAndColumn = .ok numbers') :
    numbers = numbers' ↔ a.span.start = b.span.start := by
  have hposition : ∀ offset, b.file.position offset = a.file.position offset := by
    intro offset
    rw [SourceFile.position, SourceFile.position, SourceFile.lineTable, SourceFile.lineTable, hc]
  obtain ⟨p, hp⟩ := a.exists_startPosition
  obtain ⟨q, hq⟩ := b.exists_startPosition
  rw [lineAndColumn, hp] at ha
  rw [lineAndColumn, hq] at hb
  rw [startPosition] at hp
  rw [startPosition, hposition] at hq
  constructor
  · rintro rfl
    obtain rfl := Position.oneBased_injective ha hb
    exact SourceFile.position_injective h hp hq
  · intro hstart
    rw [hstart, hq] at hp
    cases hp
    exact Except.ok.inj (ha.symm.trans hb)

/-- **The text of a location loses nothing.** Two texts are equal exactly if the paths are and the
lines and columns, counted from one, are, whatever stands in the paths. So two locations in one
file, or in two files with the same path and content, have equal texts exactly if their spans start
at the same offset: also between the bytes of a line end and past the end of the file. -/
theorem text_lossless (ha : a.text = .ok s) (hb : b.text = .ok t) :
    (∃ numbers numbers', a.lineAndColumn = .ok numbers ∧ b.lineAndColumn = .ok numbers' ∧
      (s = t ↔ a.path = b.path ∧ numbers = numbers')) ∧
    (a.path = b.path → a.file.content = b.file.content → a.file.byteCount ≤ maxWord →
      (s = t ↔ a.span.start = b.span.start)) := by
  obtain ⟨line, column, hnumbers, rfl⟩ := text_eq_ok_iff.mp ha
  obtain ⟨line', column', hnumbers', rfl⟩ := text_eq_ok_iff.mp hb
  have htext : a.path ++ ":" ++ toString line.toNat ++ ":" ++ toString column.toNat =
      b.path ++ ":" ++ toString line'.toNat ++ ":" ++ toString column'.toNat ↔
        a.path = b.path ∧ (line, column) = (line', column') := by
    rw [append_number_inj, append_number_inj, UInt32.toNat_inj, UInt32.toNat_inj, Prod.mk.injEq,
      and_assoc]
  refine ⟨⟨_, _, hnumbers, hnumbers', htext⟩, fun hpath hc h => ?_⟩
  rw [htext, ← lineAndColumn_eq_iff hc h hnumbers hnumbers']
  exact and_iff_right hpath

/-- A path that ends like a position; and between the bytes of a line end, past the end of a file. -/
theorem text_lossless_samples :
    let file : SourceFile := ⟨⟨0⟩, "x:1", "a\r\nb"⟩
    let between : SourceLocation := ⟨file, ⟨2, 2⟩, false⟩
    let past : SourceLocation := ⟨file, ⟨9, 4⟩, false⟩
    let short : SourceLocation := ⟨⟨⟨1⟩, "x", "a\r\nb"⟩, ⟨2, 2⟩, false⟩
    between.text = .ok "x:1:1:3" ∧ past.text = .ok "x:1:2:7" ∧ short.text = .ok "x:1:3" ∧
      (∃ numbers numbers', between.lineAndColumn = .ok numbers ∧
        short.lineAndColumn = .ok numbers' ∧
        ("x:1:1:3" = "x:1:3" ↔ between.path = short.path ∧ numbers = numbers')) ∧
      file.byteCount ≤ maxWord ∧
      ("x:1:1:3" = "x:1:2:7" ↔ between.span.start = past.span.start) := by
  intro file between past short
  have hbetween : between.text = .ok "x:1:1:3" := by decide +kernel
  have hpast : past.text = .ok "x:1:2:7" := by decide +kernel
  have hshort : short.text = .ok "x:1:3" := by decide +kernel
  have hbytes : file.byteCount ≤ maxWord := by decide +kernel
  exact ⟨hbetween, hpast, hshort, (text_lossless hbetween hshort).1, hbytes,
    (text_lossless hbetween hpast).2 rfl rfl hbytes⟩

end SourceLocation

end SourceDiagnostics
