import SourceDiagnostics.Proofs.TextLines

/-!
Line tables of texts put together from two.

The lines of the first text stay where they are and those of the second follow, moved by the length
of the first. Only a carriage return at the end of the first text and a line feed at the beginning
of the second make a difference (`PairsUp`): then they are one line end, and the line that began
between them is gone.

* `startsAfter_append`, `exists_kept_of_pairsUp`: what becomes of the line starts;
* `LineTable.position_eq_of_filter`: the line starts up to an offset decide about its position;
* `SourceFile.lines_append`: the table of a file put together from two, and the positions in it.
-/

namespace SourceDiagnostics

open Text

variable {c d : Char} {cs ds : List Char} {o n p : Nat} {offset : UInt32}

/-! ## The seam -/

/-- A carriage return comes before a line feed where the two texts meet. -/
def PairsUp (cs ds : List Char) : Prop := cs.getLast? = some '\r' ∧ ds.head? = some '\n'

theorem pairsUp_cons_cons : PairsUp (c :: d :: cs) ds ↔ PairsUp (d :: cs) ds := by
  simp [PairsUp]

theorem not_pairsUp_of_cons (h : ¬ PairsUp (c :: cs) ds) : ¬ PairsUp cs ds := by
  cases cs with
  | nil => simp [PairsUp]
  | cons d cs => exact fun h' => h (pairsUp_cons_cons.mpr h')

/-- What follows a text has a say in its last line end only. -/
theorem endsLine_append (h : ¬ PairsUp (c :: cs) ds) : endsLine c (cs ++ ds) = endsLine c cs := by
  cases cs with
  | nil =>
    rw [List.nil_append, endsLine, endsLine]
    by_cases hc : c = '\r'
    · have hd : (ds.head? != some '\n') = true :=
        bne_iff_ne.mpr fun hd => h ⟨by simp [hc], hd⟩
      rw [hd]
      rfl
    · have hc : (c == '\r') = false := beq_eq_false_iff_ne.mpr hc
      rw [hc]
      rfl
  | cons d cs => rfl

/-! ## Line starts -/

theorem startsAfter_add (o n : Nat) (cs : List Char) :
    startsAfter (o + n) cs = (startsAfter o cs).map (· + n) := by
  induction cs generalizing o with
  | nil => rfl
  | cons c cs ih =>
    rw [startsAfter, startsAfter, Nat.add_right_comm, ih]
    split <;> rfl

theorem startsAfter_append (h : ¬ PairsUp cs ds) :
    startsAfter o (cs ++ ds) = startsAfter o cs ++ startsAfter (o + byteLength cs) ds := by
  induction cs generalizing o with
  | nil => rfl
  | cons c cs ih =>
    rw [List.cons_append, startsAfter, startsAfter, endsLine_append h, ih (not_pairsUp_of_cons h),
      byteLength_cons, Nat.add_assoc]
    split <;> rfl

/-- Where a pair comes about, the last line start of the first text goes. -/
theorem exists_kept_of_pairsUp (o : Nat) (h : PairsUp cs ds) :
    ∃ kept, startsAfter o cs = kept ++ [o + byteLength cs] ∧
      startsAfter o (cs ++ ds) = kept ++ startsAfter (o + byteLength cs) ds := by
  obtain ⟨first, rfl⟩ := List.getLast?_eq_some_iff.mp h.1
  obtain ⟨rest, rfl⟩ := List.head?_eq_some_iff.mp h.2
  have halone : ¬ PairsUp first ['\r'] := by simp [PairsUp]
  have hpair : ¬ PairsUp first ('\r' :: '\n' :: rest) := by simp [PairsUp]
  refine ⟨startsAfter o first, ?_, ?_⟩
  · rw [startsAfter_append halone, byteLength_append, ← Nat.add_assoc]
    rfl
  · rw [List.append_assoc, List.singleton_append, startsAfter_append hpair, byteLength_append,
      ← Nat.add_assoc]
    rfl

/-! ## Positions -/

/-- The line starts up to an offset decide about its position. -/
theorem LineTable.position_eq_of_filter (hcs : byteLength cs ≤ maxWord)
    (hds : byteLength ds ≤ maxWord)
    (h : (lineStarts cs).filter (· ≤ offset.toNat) = (lineStarts ds).filter (· ≤ offset.toNat)) :
    ∃ p, (ofText cs).position offset = .ok p ∧ (ofText ds).position offset = .ok p := by
  obtain ⟨p, start, hp, hline, hstart, hnext, hcharacter⟩ := position_spec hcs offset
  obtain ⟨q, start', hq, hline', hstart', hnext', hcharacter'⟩ := position_spec hds offset
  rw [filter_lineStarts hline hstart hnext, filter_lineStarts hline' hstart' hnext'] at h
  have hlines : p.line.toNat = q.line.toNat := by
    have hlt := (List.getElem?_eq_some_iff.mp hline).1
    have hlt' := (List.getElem?_eq_some_iff.mp hline').1
    have := congrArg List.length h
    rw [List.length_take, List.length_take] at this
    omega
  have hstarts : start = start' := by
    have := congrArg (·[p.line.toNat]?) h
    simp only [List.getElem?_take, hlines, Nat.lt_succ_self, if_true, hline'] at this
    rw [← hlines, hline] at this
    exact Option.some.inj this
  have hcharacters : p.character.toNat = q.character.toNat := by omega
  refine ⟨p, hp, ?_⟩
  rw [hq]
  cases p
  cases q
  exact congrArg Except.ok
    (congrArg₂ Position.mk (UInt32.toNat_inj.mp hlines.symm) (UInt32.toNat_inj.mp hcharacters.symm))

/-- Nothing that follows a text starts a line in it. -/
theorem filter_startsAfter_eq_nil (h : p ≤ o) : (startsAfter o cs).filter (· ≤ p) = [] := by
  refine List.filter_eq_nil_iff.mpr fun s hs => ?_
  have := (bounds_of_mem_startsAfter hs).1
  simp
  omega

theorem filter_lineStarts_append (hp : p < byteLength cs ∨ p = byteLength cs ∧ ¬ PairsUp cs ds) :
    (lineStarts (cs ++ ds)).filter (· ≤ p) = (lineStarts cs).filter (· ≤ p) := by
  have hle : p ≤ 0 + byteLength cs := by omega
  rw [lineStarts, lineStarts, List.filter_cons, List.filter_cons]
  by_cases h : PairsUp cs ds
  · have hlt : p < byteLength cs := hp.resolve_right fun hend => hend.2 h
    obtain ⟨kept, hcs, happend⟩ := exists_kept_of_pairsUp 0 h
    rw [hcs, happend, List.filter_append, List.filter_append, filter_startsAfter_eq_nil hle]
    simp [hlt]
  · rw [startsAfter_append h, List.filter_append, filter_startsAfter_eq_nil hle, List.append_nil]

/-! ## Files -/

theorem LineTable.tail_offsets (h : byteLength cs ≤ maxWord) :
    (ofText cs).offsets.tail = startsAfter 0 cs := by
  rw [offsets_ofText h]
  rfl

/-- **The table of two texts is put together from their tables.** Unless a pair comes about between
the texts, it has the entries of the first table and then those of the second but its first, moved
by the length of the first text. If a pair comes about, the last entry of the first table is left
out. Either way the offsets before the end of the first text keep their positions, and so does its
end itself unless a pair comes about. -/
theorem SourceFile.lines_append (f g joined : SourceFile)
    (hcontent : joined.content = f.content ++ g.content)
    (hsize : f.byteCount + g.byteCount ≤ maxWord) :
    (¬ PairsUp f.content.toList g.content.toList →
      joined.lineTable.offsets =
        f.lineTable.offsets ++ g.lineTable.offsets.tail.map (· + f.byteCount)) ∧
    (PairsUp f.content.toList g.content.toList →
      joined.lineTable.offsets =
        f.lineTable.offsets.dropLast ++ g.lineTable.offsets.tail.map (· + f.byteCount)) ∧
    ∀ offset : UInt32, (offset.toNat < f.byteCount ∨
        offset.toNat = f.byteCount ∧ ¬ PairsUp f.content.toList g.content.toList) →
      ∃ p, f.position offset = .ok p ∧ joined.position offset = .ok p := by
  have htext : joined.content.toList = f.content.toList ++ g.content.toList := by
    rw [hcontent, String.toList_append]
  have hf : byteLength f.content.toList ≤ maxWord := by
    rw [byteCount, byteCount] at hsize
    omega
  have hg : byteLength g.content.toList ≤ maxWord := by
    rw [byteCount, byteCount] at hsize
    omega
  have hjoined : byteLength (f.content.toList ++ g.content.toList) ≤ maxWord := by
    rwa [byteLength_append]
  have hmoved : g.lineTable.offsets.tail.map (· + f.byteCount) =
      startsAfter (0 + byteLength f.content.toList) g.content.toList := by
    rw [startsAfter_add, lineTable, LineTable.tail_offsets hg, byteCount]
  rw [hmoved, lineTable, lineTable, htext, LineTable.offsets_ofText hjoined,
    LineTable.offsets_ofText hf]
  refine ⟨fun h => ?_, fun h => ?_, fun offset hoffset => ?_⟩
  · rw [lineStarts, startsAfter_append h]
    rfl
  · obtain ⟨kept, hfirst, happend⟩ := exists_kept_of_pairsUp 0 h
    rw [lineStarts, lineStarts, hfirst, happend, ← List.cons_append, ← List.cons_append,
      List.dropLast_concat]
  · obtain ⟨p, hp, hp'⟩ :=
      LineTable.position_eq_of_filter hjoined hf (filter_lineStarts_append hoffset)
    refine ⟨p, hp', ?_⟩
    rw [position, lineTable, htext]
    exact hp

/-- A carriage return twice and a line feed: the first carriage return stays a line end of its own,
the second one becomes part of a pair. Between the two texts the line is another one then. -/
theorem lines_append_samples :
    let f : SourceFile := ⟨⟨0⟩, "a.tsp", "é\r\r"⟩
    let g : SourceFile := ⟨⟨1⟩, "b.tsp", "\nb\n"⟩
    let joined : SourceFile := ⟨⟨2⟩, "c.tsp", "é\r\r\nb\n"⟩
    PairsUp f.content.toList g.content.toList ∧ joined.lineTable.offsets = [0, 3, 5, 7] ∧
      (∃ p, f.position 3 = .ok p ∧ joined.position 3 = .ok p) ∧
      f.position 4 = .ok ⟨2, 0⟩ ∧ joined.position 4 = .ok ⟨1, 1⟩ := by
  intro f g joined
  have hcontent : joined.content = f.content ++ g.content := by decide +kernel
  have hsize : f.byteCount + g.byteCount ≤ maxWord := by decide +kernel
  have hpair : PairsUp f.content.toList g.content.toList := by
    simp [PairsUp, f, g]
  obtain ⟨_, htable, hposition⟩ := SourceFile.lines_append f g joined hcontent hsize
  refine ⟨hpair, ?_, hposition 3 (Or.inl (by decide +kernel)), by decide +kernel,
    by decide +kernel⟩
  rw [htable hpair]
  decide +kernel

end SourceDiagnostics
