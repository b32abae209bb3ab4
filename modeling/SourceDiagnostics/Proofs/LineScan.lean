import SourceDiagnostics.Proofs.LineTable

/-!
The position of an offset found by reading bytes, without a table of lines.

`terminatorEnds` reads the line terminators of a text from left to right, `linearPosition` walks up
to an offset and counts lines on the way.

* `terminatorEnds_utf8`: the bytes of a text have its terminators where its characters do, for no
  byte of another character is a line feed or a carriage return;
* `linearFrom_eq`: the walk counts the terminators that end at or before the offset;
* `SourceFile.position_eq_linear`: the table of lines gives the same position, for every text that
  fits the words of its offsets and every offset.
-/

namespace SourceDiagnostics

open Text

/-! ## Terminators -/

def carriageReturn : UInt8 := 13

def lineFeed : UInt8 := 10

/-- Where the terminators end in bytes that stand at offset `offset`, read from left to right: the
pair of carriage return and line feed is one, and each of the two is one when alone. -/
def terminatorEnds (offset : Nat) : List UInt8 → List Nat
  | [] => []
  | [b] => if b = carriageReturn ∨ b = lineFeed then [offset + 1] else []
  | b :: c :: rest =>
    if b = carriageReturn ∧ c = lineFeed then (offset + 2) :: terminatorEnds (offset + 2) rest
    else if b = carriageReturn ∨ b = lineFeed then
      (offset + 1) :: terminatorEnds (offset + 1) (c :: rest)
    else terminatorEnds (offset + 1) (c :: rest)

example : terminatorEnds 0 [97, 13, 10, 13, 98, 10] = [3, 4, 6] := by decide

variable {o i position line start : Nat} {b : UInt8} {bytes rest : List UInt8}

theorem terminatorEnds_crlf (o : Nat) (rest : List UInt8) :
    terminatorEnds o (carriageReturn :: lineFeed :: rest) =
      (o + 2) :: terminatorEnds (o + 2) rest := by
  rw [terminatorEnds, if_pos ⟨rfl, rfl⟩]

theorem terminatorEnds_single (hb : b = carriageReturn ∨ b = lineFeed)
    (h : ¬ (b = carriageReturn ∧ rest.head? = some lineFeed)) :
    terminatorEnds o (b :: rest) = (o + 1) :: terminatorEnds (o + 1) rest := by
  cases rest with
  | nil => exact if_pos hb
  | cons c rest => rw [terminatorEnds, if_neg (by simpa using h), if_pos hb]

theorem terminatorEnds_lineFeed (o : Nat) (rest : List UInt8) :
    terminatorEnds o (lineFeed :: rest) = (o + 1) :: terminatorEnds (o + 1) rest :=
  terminatorEnds_single (Or.inr rfl) (by simp [lineFeed, carriageReturn])

theorem terminatorEnds_other (hb : ¬ (b = carriageReturn ∨ b = lineFeed)) :
    terminatorEnds o (b :: rest) = terminatorEnds (o + 1) rest := by
  cases rest with
  | nil => exact if_neg hb
  | cons c rest => rw [terminatorEnds, if_neg (fun h => hb (Or.inl h.1)), if_neg hb]

theorem terminatorEnds_append (h : ∀ b ∈ bytes, ¬ (b = carriageReturn ∨ b = lineFeed)) :
    terminatorEnds o (bytes ++ rest) = terminatorEnds (o + bytes.length) rest := by
  induction bytes generalizing o with
  | nil => rfl
  | cons b bytes ih =>
    rw [List.cons_append, terminatorEnds_other (h b List.mem_cons_self),
      ih fun c hc => h c (List.mem_cons_of_mem b hc), List.length_cons]
    congr 1
    omega

theorem lt_of_mem_terminatorEnds {s : Nat} (h : s ∈ terminatorEnds o bytes) : o < s := by
  fun_induction terminatorEnds o bytes with
  | case1 => cases h
  | case2 o b hb => simp at h; omega
  | case3 => cases h
  | case4 o b c rest _ ih =>
    rcases List.mem_cons.mp h with rfl | h
    · omega
    · have := ih h
      omega
  | case5 o b c rest _ _ ih =>
    rcases List.mem_cons.mp h with rfl | h
    · omega
    · exact Nat.lt_of_succ_lt (ih h)
  | case6 o b c rest _ _ ih => exact Nat.lt_of_succ_lt (ih h)

/-! ## Characters and bytes -/

theorem utf8EncodeChar_of_lt {c : Char} (h : c.toNat < 128) :
    String.utf8EncodeChar c = [UInt8.ofNat c.toNat] := if_pos (Nat.le_of_lt_succ h)

theorem le_of_mem_utf8EncodeChar {c : Char} (h : 128 ≤ c.toNat)
    (hb : b ∈ String.utf8EncodeChar c) : 128 ≤ b.toNat := by
  have hc : ¬ c.toNat ≤ 0x7f := by omega
  unfold String.utf8EncodeChar at hb
  change b ∈ ite (c.toNat ≤ _) _ _ at hb
  rw [if_neg hc] at hb
  split at hb
  · simp only [List.mem_cons, List.not_mem_nil, or_false] at hb
    rcases hb with rfl | rfl <;> rw [UInt8.toNat_ofNat'] <;> omega
  · split at hb
    · simp only [List.mem_cons, List.not_mem_nil, or_false] at hb
      rcases hb with rfl | rfl | rfl <;> rw [UInt8.toNat_ofNat'] <;> omega
    · simp only [List.mem_cons, List.not_mem_nil, or_false] at hb
      rcases hb with rfl | rfl | rfl | rfl <;> rw [UInt8.toNat_ofNat'] <;> omega

/-- A byte below 128 stands for the character of that code point only. -/
theorem eq_ofNat_of_mem_utf8EncodeChar {c : Char} (hb : b ∈ String.utf8EncodeChar c)
    (h : b.toNat < 128) : c.toNat = b.toNat := by
  have hc : c.toNat < 128 := by
    by_contra hc
    have := le_of_mem_utf8EncodeChar (Nat.le_of_not_lt hc) hb
    omega
  rw [utf8EncodeChar_of_lt hc, List.mem_singleton] at hb
  rw [hb, UInt8.toNat_ofNat']
  omega

/-- The two bytes that end lines stand for themselves only. -/
theorem not_terminator_of_mem_utf8EncodeChar {c : Char} (hr : c ≠ '\r') (hn : c ≠ '\n')
    (hb : b ∈ String.utf8EncodeChar c) : ¬ (b = carriageReturn ∨ b = lineFeed) := by
  rintro (rfl | rfl)
  · exact hr (Char.ext (UInt32.toNat_inj.mp (eq_ofNat_of_mem_utf8EncodeChar hb (by decide))))
  · exact hn (Char.ext (UInt32.toNat_inj.mp (eq_ofNat_of_mem_utf8EncodeChar hb (by decide))))

theorem head?_utf8_ne {c : Char} (hn : c ≠ '\n') (cs : List Char) :
    (utf8 (c :: cs)).head? ≠ some lineFeed := by
  intro h
  have hmem : lineFeed ∈ String.utf8EncodeChar c := by
    obtain ⟨b, bytes, hbytes⟩ := List.exists_cons_of_ne_nil (String.utf8EncodeChar_ne_nil (c := c))
    rw [utf8, List.flatMap_cons, hbytes] at h
    rw [hbytes]
    cases h
    exact List.mem_cons_self
  exact hn (Char.ext (UInt32.toNat_inj.mp (eq_ofNat_of_mem_utf8EncodeChar hmem (by decide))))

theorem utf8_lineFeed (cs : List Char) : utf8 ('\n' :: cs) = lineFeed :: utf8 cs := rfl

theorem utf8_carriageReturn (cs : List Char) :
    utf8 ('\r' :: cs) = carriageReturn :: utf8 cs := rfl

/-- A text and its bytes have the same line ends. -/
theorem terminatorEnds_utf8 (o : Nat) (cs : List Char) :
    terminatorEnds o (utf8 cs) = startsAfter o cs := by
  induction cs generalizing o with
  | nil => rfl
  | cons c cs ih =>
    by_cases hn : c = '\n'
    · subst hn
      rw [utf8_lineFeed, terminatorEnds_lineFeed, ih]
      rfl
    · by_cases hr : c = '\r'
      · subst hr
        rw [utf8_carriageReturn]
        cases cs with
        | nil => rfl
        | cons d cs =>
          by_cases hd : d = '\n'
          · subst hd
            -- The pair ends where its line feed alone would end a line.
            have hrest := ih (o + 1)
            rw [utf8_lineFeed, terminatorEnds_lineFeed] at hrest
            rw [utf8_lineFeed, terminatorEnds_crlf]
            exact hrest
          · have he : endsLine '\r' (d :: cs) = true := by simp [endsLine, hd]
            rw [terminatorEnds_single (Or.inl rfl) fun h => head?_utf8_ne hd cs h.2, ih]
            exact (if_pos he).symm
      · have he : endsLine c cs = false := by simp [endsLine, hn, hr]
        rw [startsAfter, he, utf8, List.flatMap_cons,
          terminatorEnds_append fun b hb => not_terminator_of_mem_utf8EncodeChar hr hn hb,
          String.length_utf8EncodeChar]
        exact ih _

/-! ## Walking -/

/-- Where reading goes on after byte `i`: a pair of carriage return and line feed is read at
once. -/
def afterByte (bytes : List UInt8) (i : Nat) : Nat :=
  if bytes[i]? = some carriageReturn ∧ bytes[i + 1]? = some lineFeed then i + 2 else i + 1

theorem lt_afterByte (bytes : List UInt8) (i : Nat) : i < afterByte bytes i := by
  unfold afterByte
  split <;> omega

/-- Walk from byte `i` up to `position`. So far `line` terminators have ended, the last of them at
`start`. The walk may pass `position` by one byte, between the two bytes of a pair. -/
def linearFrom (bytes : List UInt8) (position i line start : Nat) : Nat × Nat :=
  if h : i < min position bytes.length then
    let next := afterByte bytes i
    have := lt_afterByte bytes i
    if (bytes[i] = carriageReturn ∨ bytes[i] = lineFeed) ∧ next ≤ position then
      linearFrom bytes position next (line + 1) next
    else linearFrom bytes position next line start
  else (line, position - start)
  termination_by bytes.length - i

/-- The line of an offset and the byte in the line, counted from the start of the text. -/
def linearPosition (bytes : List UInt8) (position : Nat) : Nat × Nat :=
  linearFrom bytes position 0 0 0

/-- One reading step, and the terminator that it may have ended. -/
theorem terminatorEnds_drop (h : i < bytes.length) :
    terminatorEnds i (bytes.drop i) =
      (if bytes[i] = carriageReturn ∨ bytes[i] = lineFeed then [afterByte bytes i] else []) ++
        terminatorEnds (afterByte bytes i) (bytes.drop (afterByte bytes i)) := by
  rw [List.drop_eq_getElem_cons h]
  by_cases hpair : bytes[i]? = some carriageReturn ∧ bytes[i + 1]? = some lineFeed
  · have hnext : afterByte bytes i = i + 2 := if_pos hpair
    obtain ⟨hlt, hlf⟩ := List.getElem?_eq_some_iff.mp hpair.2
    have hcr : bytes[i] = carriageReturn :=
      Option.some.inj ((List.getElem?_eq_getElem h).symm.trans hpair.1)
    rw [hnext, hcr, if_pos (Or.inl rfl), List.drop_eq_getElem_cons hlt, hlf, terminatorEnds_crlf]
    rfl
  · have hnext : afterByte bytes i = i + 1 := if_neg hpair
    rw [hnext]
    by_cases hb : bytes[i] = carriageReturn ∨ bytes[i] = lineFeed
    · have hnot : ¬ (bytes[i] = carriageReturn ∧ (bytes.drop (i + 1)).head? = some lineFeed) := by
        rintro ⟨hcr, hlf⟩
        rw [List.head?_drop] at hlf
        exact hpair ⟨hcr ▸ List.getElem?_eq_getElem h, hlf⟩
      rw [if_pos hb, terminatorEnds_single hb hnot]
      rfl
    · rw [if_neg hb, terminatorEnds_other hb]
      rfl

/-- The walk counts the terminators from `i` on that end at or before `position`. -/
theorem linearFrom_eq (bytes : List UInt8) (position i line start : Nat) :
    linearFrom bytes position i line start =
      (line + ((terminatorEnds i (bytes.drop i)).filter (· ≤ position)).length,
        position - ((terminatorEnds i (bytes.drop i)).filter (· ≤ position)).getLastD start) := by
  fun_induction linearFrom bytes position i line start with
  | case1 i line start h next _ hend ih =>
    have hkeep : decide (afterByte bytes i ≤ position) = true := decide_eq_true hend.2
    rw [ih, terminatorEnds_drop (i := i) (by omega), if_pos hend.1, List.singleton_append,
      List.filter_cons, if_pos hkeep, List.length_cons, List.getLastD_cons]
    congr 1
    exact Nat.add_right_comm line 1 _
  | case2 i line start h next _ hend ih =>
    rw [ih, terminatorEnds_drop (i := i) (by omega), List.filter_append]
    have hnone : (if bytes[i] = carriageReturn ∨ bytes[i] = lineFeed then [afterByte bytes i]
        else []).filter (· ≤ position) = [] := by
      split
      · next hb =>
        have : ¬ next ≤ position := fun hle => hend ⟨hb, hle⟩
        simpa using this
      · rfl
    rw [hnone, List.nil_append]
  | case3 i line start h =>
    have hnone : (terminatorEnds i (bytes.drop i)).filter (· ≤ position) = [] := by
      refine List.filter_eq_nil_iff.mpr fun s hs => ?_
      rcases Nat.lt_or_ge i bytes.length with hi | hi
      · have := lt_of_mem_terminatorEnds hs
        simp
        omega
      · rw [List.drop_eq_nil_of_le hi] at hs
        cases hs
    rw [hnone]
    rfl

/-- **The table agrees with the walk.** In a text that fits the words of its offsets every offset
has a position: its line is the number of terminators that end at or before the offset, and its
character is counted from the end of the last of them. That is what the walk finds. -/
theorem SourceFile.position_eq_linear (f : SourceFile) (h : f.byteCount ≤ maxWord)
    (offset : UInt32) :
    ∃ p, f.position offset = .ok p ∧
      p.line.toNat = ((terminatorEnds 0 (utf8 f.content.toList)).filter (· ≤ offset.toNat)).length ∧
      p.character.toNat = offset.toNat -
        ((terminatorEnds 0 (utf8 f.content.toList)).filter (· ≤ offset.toNat)).getLastD 0 ∧
      (p.line.toNat, p.character.toNat) =
        linearPosition (utf8 f.content.toList) offset.toNat := by
  obtain ⟨p, start, hp, hline, hstart, hnext, hcharacter⟩ := LineTable.position_spec h offset
  have hpassed : 0 :: (startsAfter 0 f.content.toList).filter (· ≤ offset.toNat) =
      (lineStarts f.content.toList).take (p.line.toNat + 1) :=
    filter_lineStarts hline hstart hnext
  have hlength : ((startsAfter 0 f.content.toList).filter (· ≤ offset.toNat)).length =
      p.line.toNat := by
    have hlt := (List.getElem?_eq_some_iff.mp hline).1
    have := congrArg List.length hpassed
    rw [List.length_cons, List.length_take] at this
    omega
  have hlast : ((startsAfter 0 f.content.toList).filter (· ≤ offset.toNat)).getLastD 0 = start := by
    have := congrArg (·[p.line.toNat]?) hpassed
    simp only [List.getElem?_take, Nat.lt_succ_self, if_true, hline] at this
    rw [← hlength, ← Nat.add_sub_cancel (List.length _) 1, ← List.length_cons,
      ← List.getLast?_eq_getElem?, List.getLast?_cons] at this
    rw [List.getLastD_eq_getLast?]
    exact Option.some.inj this
  refine ⟨p, hp, ?_⟩
  rw [linearPosition, linearFrom_eq, List.drop_zero, terminatorEnds_utf8, hlength, hlast,
    Nat.zero_add, hcharacter]
  exact ⟨rfl, rfl, rfl⟩

/-- Between the two bytes of a pair, and past the end of the text. -/
theorem position_eq_linear_samples :
    let f : SourceFile := ⟨⟨0⟩, "main.tsp", "a\r\nb\rc"⟩
    f.byteCount ≤ maxWord ∧
      (∃ p, f.position 2 = .ok p ∧ (p.line.toNat, p.character.toNat) = (0, 2)) ∧
      ∃ p, f.position 9 = .ok p ∧ (p.line.toNat, p.character.toNat) = (2, 4) := by
  have h : (SourceFile.mk ⟨0⟩ "main.tsp" "a\r\nb\rc").byteCount ≤ maxWord := by decide +kernel
  refine ⟨h, ?_, ?_⟩
  · obtain ⟨p, hp, hline, hcharacter, _⟩ := SourceFile.position_eq_linear _ h 2
    exact ⟨p, hp, Prod.ext (hline.trans (by decide +kernel)) (hcharacter.trans (by decide +kernel))⟩
  · obtain ⟨p, hp, hline, hcharacter, _⟩ := SourceFile.position_eq_linear _ h 9
    exact ⟨p, hp, Prod.ext (hline.trans (by decide +kernel)) (hcharacter.trans (by decide +kernel))⟩

end SourceDiagnostics
