import SourceDiagnostics.Proofs.LineTable

/-!
Offsets and positions, one to one.

A table of lines admits the bytes that do not reach past their line (`LineTable.Admits`), and
`LineTable.offset?` reads such a byte as an offset again.

* `LineTable.position_spec_last`: the position of an offset is in the last line that starts at or
  before it;
* `LineTable.position_eq_ok_iff`: it is the one admitted position that reads as the offset;
* `LineTable.lex_of_lt`: a later offset has a later position;
* `SourceFile.position_bijective`: the order of offsets is the order of positions, and there and
  back leads to the same place.
-/

namespace SourceDiagnostics

open Text

namespace LineTable

/-- The offset of a byte of a line, whether or not the line is that long. -/
def offset? (t : LineTable) (line character : Nat) : Option Nat :=
  t.starts[line]?.map fun start => start.toNat + character

/-- There is such a line, and the byte stands before the next one. In the last line, its offset is a
word. -/
structure Admits (t : LineTable) (line character : Nat) : Prop where
  line_lt : line < t.lineCount
  before_next : ∀ {start next}, t.starts[line]? = some start → t.starts[line + 1]? = some next →
    character < next.toNat - start.toNat
  fits : ∀ {start}, line + 1 = t.lineCount → t.starts[line]? = some start →
    start.toNat + character ≤ maxWord

/-- Line `i` is the last one that starts at or before the offset. -/
structure LastStarted (t : LineTable) (offset : UInt32) (i : Nat) : Prop where
  started : ∃ start, t.starts[i]? = some start ∧ start ≤ offset
  before_next : ∀ {next}, t.starts[i + 1]? = some next → offset < next

variable {cs : List Char} {i j : Nat} {offset offset' a b : UInt32} {p q : Position}

theorem Increasing.le {starts : Array UInt32} (hs : Increasing starts) (hij : i ≤ j)
    (hi : starts[i]? = some a) (hj : starts[j]? = some b) : a ≤ b := by
  rcases Nat.lt_or_eq_of_le hij with hij | rfl
  · exact UInt32.le_of_lt (hs hij hi hj)
  · exact UInt32.le_of_eq (Option.some.inj (hi.symm.trans hj))

/-- The lines that start at or before the offset are those up to line `i`. -/
theorem LastStarted.le_iff (hcs : byteLength cs ≤ maxWord) (h : (ofText cs).LastStarted offset i)
    (hj : (ofText cs).starts[j]? = some a) : a ≤ offset ↔ j ≤ i := by
  obtain ⟨start, hstart, hle⟩ := h.started
  constructor
  · intro ha
    by_contra hij
    have hsize := (Array.getElem?_eq_some_iff.mp hj).1
    have hnext := Array.getElem?_eq_getElem (Nat.lt_of_le_of_lt (Nat.lt_of_not_le hij) hsize)
    have hnextle := Increasing.le (increasing_starts hcs) (Nat.lt_of_not_le hij) hnext hj
    exact UInt32.not_le.mpr (h.before_next hnext) (UInt32.le_trans hnextle ha)
  · intro hij
    exact UInt32.le_trans (Increasing.le (increasing_starts hcs) hij hj hstart) hle

theorem LastStarted.unique (hcs : byteLength cs ≤ maxWord) (hi : (ofText cs).LastStarted offset i)
    (hj : (ofText cs).LastStarted offset j) : i = j := by
  obtain ⟨a, ha, hale⟩ := hi.started
  obtain ⟨b, hb, hble⟩ := hj.started
  exact Nat.le_antisymm ((hj.le_iff hcs ha).mp hale) ((hi.le_iff hcs hb).mp hble)

/-- Every offset has a position, in the last line that starts at or before it. -/
theorem position_spec_last (hcs : byteLength cs ≤ maxWord) (offset : UInt32) :
    ∃ p, (ofText cs).position offset = .ok p ∧ (ofText cs).LastStarted offset p.line.toNat ∧
      (ofText cs).offset? p.line.toNat p.character.toNat = some offset.toNat := by
  obtain ⟨p, start, hp, hline, hstart, hnext, hcharacter⟩ := position_spec hcs offset
  have hword : (ofText cs).starts[p.line.toNat]? = some (clampWord start) := by
    rw [getElem?_starts, hline]
    rfl
  have hclamp : (clampWord start).toNat = start := by
    have := offset.toNat_lt
    rw [toNat_clampWord, maxWord]
    omega
  refine ⟨p, hp, ⟨⟨_, hword, ?_⟩, ?_⟩, ?_⟩
  · rw [UInt32.le_iff_toNat_le, hclamp]
    exact hstart
  · intro next h
    exact UInt32.lt_iff_toNat_lt.mpr (hnext _ (toNat_of_starts hcs h))
  · rw [offset?, hword, Option.map_some, hclamp, hcharacter, Nat.add_sub_cancel' hstart]

/-- An admitted byte is in the last line that starts at or before its offset. -/
theorem Admits.lastStarted (h : (ofText cs).Admits i j)
    (hoffset : (ofText cs).offset? i j = some offset.toNat) :
    (ofText cs).LastStarted offset i := by
  obtain ⟨start, hstart, hsum⟩ := Option.map_eq_some_iff.mp hoffset
  refine ⟨⟨start, hstart, UInt32.le_iff_toNat_le.mpr (by omega)⟩, ?_⟩
  intro next hnext
  have := h.before_next hstart hnext
  exact UInt32.lt_iff_toNat_lt.mpr (by omega)

theorem LastStarted.admits (h : (ofText cs).LastStarted offset i)
    (hoffset : (ofText cs).offset? i j = some offset.toNat) : (ofText cs).Admits i j := by
  obtain ⟨start, hstart, hsum⟩ := Option.map_eq_some_iff.mp hoffset
  refine ⟨(Array.getElem?_eq_some_iff.mp hstart).1, ?_, ?_⟩
  · intro a next ha hnext
    obtain rfl : start = a := Option.some.inj (hstart.symm.trans ha)
    have := UInt32.lt_iff_toNat_lt.mp (h.before_next hnext)
    omega
  · intro a _ ha
    obtain rfl : start = a := Option.some.inj (hstart.symm.trans ha)
    have := offset.toNat_lt
    rw [maxWord]
    omega

/-- The position of an offset is the admitted position that reads as the offset. -/
theorem position_eq_ok_iff (hcs : byteLength cs ≤ maxWord) :
    (ofText cs).position offset = .ok p ↔
      (ofText cs).Admits p.line.toNat p.character.toNat ∧
        (ofText cs).offset? p.line.toNat p.character.toNat = some offset.toNat := by
  obtain ⟨q, hq, hlast, hoffset⟩ := position_spec_last hcs offset
  constructor
  · intro hp
    obtain rfl : q = p := Except.ok.inj (hq.symm.trans hp)
    exact ⟨hlast.admits hoffset, hoffset⟩
  · rintro ⟨hadmits, hp⟩
    have hline : q.line.toNat = p.line.toNat :=
      hlast.unique hcs (hadmits.lastStarted hp)
    have hcharacter : q.character.toNat = p.character.toNat := by
      rw [hline] at hoffset
      obtain ⟨start, hstart, hsum⟩ := Option.map_eq_some_iff.mp hoffset
      obtain ⟨start', hstart', hsum'⟩ := Option.map_eq_some_iff.mp hp
      obtain rfl : start = start' := Option.some.inj (hstart.symm.trans hstart')
      omega
    rw [hq]
    cases p
    cases q
    exact congrArg Except.ok
      (congrArg₂ Position.mk (UInt32.toNat_inj.mp hline) (UInt32.toNat_inj.mp hcharacter))

theorem exists_word {n : Nat} (h : n ≤ maxWord) : ∃ w : UInt32, w.toNat = n :=
  ⟨clampWord n, by rw [toNat_clampWord, Nat.min_eq_left h]⟩

/-- Line, character and offset of an admitted byte are words. -/
theorem Admits.exists_words (hcs : byteLength cs ≤ maxWord) (h : (ofText cs).Admits i j) :
    ∃ (offset : UInt32) (p : Position), (ofText cs).offset? i j = some offset.toNat ∧
      p.line.toNat = i ∧ p.character.toNat = j := by
  obtain ⟨start, hstart⟩ : ∃ start, (ofText cs).starts[i]? = some start :=
    ⟨_, Array.getElem?_eq_getElem h.line_lt⟩
  have hsum : start.toNat + j ≤ maxWord := by
    rcases Nat.lt_or_eq_of_le (Nat.succ_le_of_lt h.line_lt) with hlt | hlast
    · obtain ⟨next, hnext⟩ : ∃ next, (ofText cs).starts[i + 1]? = some next :=
        ⟨_, Array.getElem?_eq_getElem hlt⟩
      have := h.before_next hstart hnext
      have := next.toNat_lt
      rw [maxWord]
      omega
    · exact h.fits hlast hstart
  have hindex := index_le_of_lineStarts (toNat_of_starts hcs hstart)
  obtain ⟨offset, hoffset⟩ := exists_word hsum
  obtain ⟨line, hline⟩ := exists_word (show i ≤ maxWord by omega)
  obtain ⟨character, hcharacter⟩ := exists_word (show j ≤ maxWord by omega)
  refine ⟨offset, ⟨line, character⟩, ?_, hline, hcharacter⟩
  rw [offset?, hstart, Option.map_some, hoffset]

/-! ## Order -/

/-- Line first, then character. -/
theorem lex_of_lt (hcs : byteLength cs ≤ maxWord) (hp : (ofText cs).position offset = .ok p)
    (hq : (ofText cs).position offset' = .ok q) (h : offset < offset') :
    Prod.Lex (· < ·) (· < ·) (p.line, p.character) (q.line, q.character) := by
  obtain ⟨hpadmits, hpoffset⟩ := (position_eq_ok_iff hcs).mp hp
  obtain ⟨hqadmits, hqoffset⟩ := (position_eq_ok_iff hcs).mp hq
  obtain ⟨start, hstart, hsum⟩ := Option.map_eq_some_iff.mp hpoffset
  obtain ⟨start', hstart', hsum'⟩ := Option.map_eq_some_iff.mp hqoffset
  have hlt := UInt32.lt_iff_toNat_lt.mp h
  -- The line of the earlier offset starts before the later one as well.
  have hline : p.line.toNat ≤ q.line.toNat :=
    ((hqadmits.lastStarted hqoffset).le_iff hcs hstart).mp
      (UInt32.le_iff_toNat_le.mpr (by omega))
  rcases Nat.lt_or_eq_of_le hline with hline | hline
  · exact Prod.Lex.left _ _ (UInt32.lt_iff_toNat_lt.mpr hline)
  · rw [← hline] at hstart'
    obtain rfl : start = start' := Option.some.inj (hstart.symm.trans hstart')
    have hcharacter : p.character < q.character := UInt32.lt_iff_toNat_lt.mpr (by omega)
    exact Prod.lex_def.mpr (Or.inr ⟨UInt32.toNat_inj.mp hline, hcharacter⟩)

theorem not_lex_of_le (hcs : byteLength cs ≤ maxWord) (hp : (ofText cs).position offset = .ok p)
    (hq : (ofText cs).position offset' = .ok q) (h : offset' ≤ offset) :
    ¬ Prod.Lex (· < ·) (· < ·) (p.line, p.character) (q.line, q.character) := by
  rw [Prod.lex_def]
  rcases UInt32.lt_or_eq_of_le h with h | rfl
  · have hqp := Prod.lex_def.mp (lex_of_lt hcs hq hp h)
    simp only [UInt32.lt_iff_toNat_lt, ← UInt32.toNat_inj] at hqp ⊢
    omega
  · obtain rfl : p = q := Except.ok.inj (hp.symm.trans hq)
    simp

end LineTable

/-- **Offsets and positions are one to one, in the same order.** In a text that fits the words of
its offsets every offset has a position: a byte of a line of the table, which is the last one that
starts at or before the offset. Of two offsets the smaller one has the smaller position, line first.
Each byte that a line has before the next one, and in the last line each byte whose offset is a
word, is the position of its offset. -/
theorem SourceFile.position_bijective (f : SourceFile) (h : f.byteCount ≤ maxWord) :
    (∀ offset, ∃ p start, f.position offset = .ok p ∧ p.line.toNat < f.lineTable.lineCount ∧
      f.lineTable.starts[p.line.toNat]? = some start ∧
      start.toNat + p.character.toNat = offset.toNat ∧
      ∀ i s, f.lineTable.starts[i]? = some s → (s ≤ offset ↔ i ≤ p.line.toNat)) ∧
    (∀ offset offset' p p', f.position offset = .ok p → f.position offset' = .ok p' →
      (offset < offset' ↔
        Prod.Lex (· < ·) (· < ·) (p.line, p.character) (p'.line, p'.character))) ∧
    ∀ line character, f.lineTable.Admits line character →
      ∃ offset p, f.lineTable.offset? line character = some offset.toNat ∧
        f.position offset = .ok p ∧ p.line.toNat = line ∧ p.character.toNat = character := by
  refine ⟨?_, ?_, ?_⟩
  · intro offset
    obtain ⟨p, hp, hlast, hoffset⟩ := LineTable.position_spec_last h offset
    obtain ⟨start, hstart, hsum⟩ := Option.map_eq_some_iff.mp hoffset
    exact ⟨p, start, hp, (hlast.admits hoffset).line_lt, hstart, hsum,
      fun i s hs => hlast.le_iff h hs⟩
  · intro offset offset' p p' hp hp'
    refine ⟨LineTable.lex_of_lt h hp hp', fun hlex => ?_⟩
    by_contra hle
    exact LineTable.not_lex_of_le h hp hp' (UInt32.not_lt.mp hle) hlex
  · intro line character hadmits
    obtain ⟨offset, p, hoffset, rfl, rfl⟩ := hadmits.exists_words h
    exact ⟨offset, p, hoffset, (LineTable.position_eq_ok_iff h).mpr ⟨hadmits, hoffset⟩, rfl, rfl⟩

/-- Around the two bytes of a line end, and the last of all offsets in a text of three lines. -/
theorem position_bijective_samples :
    let f : SourceFile := ⟨⟨0⟩, "main.tsp", "a\r\nb\rc"⟩
    f.byteCount ≤ maxWord ∧
      (∃ p, f.position 2 = .ok p ∧ p.line.toNat < f.lineTable.lineCount) ∧
      f.position 2 = .ok ⟨0, 2⟩ ∧ f.position 3 = .ok ⟨1, 0⟩ ∧
      Prod.Lex (· < ·) (· < ·) ((0, 2) : UInt32 × UInt32) (1, 0) ∧
      f.lineTable.Admits 2 4294967290 ∧
      ∃ offset p, f.lineTable.offset? 2 4294967290 = some offset.toNat ∧
        f.position offset = .ok p ∧ p.line.toNat = 2 ∧ p.character.toNat = 4294967290 := by
  intro f
  have h : f.byteCount ≤ maxWord := by decide +kernel
  have h2 : f.position 2 = .ok ⟨0, 2⟩ := by decide +kernel
  have h3 : f.position 3 = .ok ⟨1, 0⟩ := by decide +kernel
  have hadmits : f.lineTable.Admits 2 4294967290 := by
    have hstart : f.lineTable.starts[2]? = some 5 := by decide +kernel
    have hend : f.lineTable.starts[3]? = none := by decide +kernel
    refine ⟨by decide +kernel, ?_, ?_⟩
    · intro start next _ hnext
      rw [hend] at hnext
      cases hnext
    · intro start _ h
      rw [hstart] at h
      cases h
      decide
  obtain ⟨hall, hlex, hback⟩ := SourceFile.position_bijective f h
  obtain ⟨p, _, hp, hline, _⟩ := hall 2
  exact ⟨h, ⟨p, hp, hline⟩, h2, h3, (hlex 2 3 _ _ h2 h3).mp (by decide), hadmits,
    hback _ _ hadmits⟩

end SourceDiagnostics
