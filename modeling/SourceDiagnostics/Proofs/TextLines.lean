import Mathlib.Data.List.Chain
import SourceDiagnostics.Proofs.LineScan

/-!
Texts cut into lines.

A `Cut` is a list of lines, each with its body and its ending, and a last line without an ending. No
line end stands in a body, and none comes about where two lines meet. A cut knows nothing of offsets
or of tables.

* `mem_lineStarts_iff`: line starts are read off the bytes right before and at them;
* `Cut.exists_text_eq`: every text has a cut;
* `Cut.lineStarts_text`: the lines of a cut start at the sums of the lengths before them;
* `Cut.slice?_line`: cutting at consecutive starts gives the lines;
* `SourceFile.lines_exact`: all of it for the table of a file.
-/

namespace SourceDiagnostics

open Text

variable {b : UInt8} {bytes rest : List UInt8} {o p s i : Nat} {c : Char} {cs ds : List Char}

/-! ## Starts read off the bytes -/

/-- A line ends with byte `i`: a line feed, or a carriage return that no line feed follows. -/
def EndsLineAt (bytes : List UInt8) (i : Nat) : Prop :=
  bytes[i]? = some lineFeed ∨ bytes[i]? = some carriageReturn ∧ bytes[i + 1]? ≠ some lineFeed

theorem endsLineAt_cons_succ : EndsLineAt (b :: rest) (i + 1) ↔ EndsLineAt rest i := Iff.rfl

theorem endsLineAt_cons_zero :
    EndsLineAt (b :: rest) 0 ↔ b = lineFeed ∨ b = carriageReturn ∧ rest.head? ≠ some lineFeed := by
  simp [EndsLineAt, List.head?_eq_getElem?]

/-- Reading goes byte by byte if the pair is taken to end with its second byte. -/
theorem mem_terminatorEnds_cons : s ∈ terminatorEnds o (b :: rest) ↔
    s = o + 1 ∧ EndsLineAt (b :: rest) 0 ∨ s ∈ terminatorEnds (o + 1) rest := by
  rw [endsLineAt_cons_zero]
  by_cases hn : b = lineFeed
  · rw [hn, terminatorEnds_lineFeed]
    simp
  · by_cases hr : b = carriageReturn
    · by_cases hpair : rest.head? = some lineFeed
      · obtain ⟨rest, rfl⟩ := List.head?_eq_some_iff.mp hpair
        rw [hr, terminatorEnds_crlf, terminatorEnds_lineFeed]
        simp [carriageReturn, lineFeed]
      · rw [terminatorEnds_single (Or.inl hr) fun h => hpair h.2]
        simp [hr, hpair]
    · rw [terminatorEnds_other (not_or.mpr ⟨hr, hn⟩)]
      simp [hr, hn]

theorem mem_terminatorEnds_iff :
    s ∈ terminatorEnds o bytes ↔ ∃ i, s = o + i + 1 ∧ EndsLineAt bytes i := by
  induction bytes generalizing o with
  | nil => simp [terminatorEnds, EndsLineAt]
  | cons b rest ih =>
    rw [mem_terminatorEnds_cons, ih,
      ← Nat.or_exists_add_one (p := fun i => s = o + i + 1 ∧ EndsLineAt (b :: rest) i)]
    refine or_congr Iff.rfl (exists_congr fun i => ?_)
    rw [endsLineAt_cons_succ, Nat.add_right_comm o 1 i, Nat.add_assoc o i 1]

/-- An offset past the first starts a line if the byte before it ends one. -/
theorem mem_lineStarts_iff (hp : 1 ≤ p) : p ∈ lineStarts cs ↔ EndsLineAt (utf8 cs) (p - 1) := by
  obtain ⟨i, rfl⟩ := Nat.exists_eq_add_of_le' hp
  rw [lineStarts, ← terminatorEnds_utf8, List.mem_cons, mem_terminatorEnds_iff]
  simp

/-! ## Lines -/

/-- How a line ends. -/
inductive LineEnd where
  | feed
  | carriageReturn
  /-- A carriage return and a line feed. -/
  | pair
  deriving DecidableEq, Repr

def LineEnd.text : LineEnd → List Char
  | .feed => ['\n']
  | .carriageReturn => ['\r']
  | .pair => ['\r', '\n']

/-- No carriage return and no line feed. -/
def Unbroken (cs : List Char) : Prop := ∀ c ∈ cs, c ≠ '\r' ∧ c ≠ '\n'

structure Line where
  body : List Char
  ending : LineEnd
  unbroken : Unbroken body

namespace Line

def text (l : Line) : List Char := l.body ++ l.ending.text

theorem text_of_head? {l : Line} (h : l.text.head? = some '\n') : l.text = ['\n'] := by
  obtain ⟨body, ending, hbody⟩ := l
  cases body with
  | nil => cases ending <;> simp_all [text, LineEnd.text]
  | cons c body =>
    have hc : c = '\n' := by simpa [text] using h
    exact absurd hc (hbody c List.mem_cons_self).2

/-- No pair comes about where line `m` follows line `l`. -/
def Apart (l m : Line) : Prop := l.ending = .carriageReturn → m.text.head? ≠ some '\n'

end Line

/-- A text as its lines. The last one has no ending, and may be empty. -/
structure Cut where
  lines : List Line
  last : List Char
  unbroken : Unbroken last
  apart : lines.IsChain Line.Apart

namespace Cut

/-- The lines one by one. -/
def pieces (k : Cut) : List (List Char) := k.lines.map Line.text ++ [k.last]

/-- The lines one by one without their endings. -/
def bodies (k : Cut) : List (List Char) := k.lines.map Line.body ++ [k.last]

def text (k : Cut) : List Char := k.pieces.flatten

/-- The sums of the lengths of the lines: zero, that of the first line, that of the first two. -/
def starts (k : Cut) : List Nat := k.lines.scanl (fun o l => o + byteLength l.text) 0

end Cut

theorem unbroken_nil : Unbroken [] := by simp [Unbroken]

theorem unbroken_cons : Unbroken (c :: cs) ↔ (c ≠ '\r' ∧ c ≠ '\n') ∧ Unbroken cs :=
  List.forall_mem_cons

theorem endsLine_of_ne (hr : c ≠ '\r') (hn : c ≠ '\n') : endsLine c cs = false := by
  simp [endsLine, hr, hn]

theorem startsAfter_unbroken (h : Unbroken cs) :
    startsAfter o (cs ++ ds) = startsAfter (o + byteLength cs) ds := by
  induction cs generalizing o with
  | nil => rfl
  | cons c cs ih =>
    obtain ⟨⟨hr, hn⟩, hcs⟩ := unbroken_cons.mp h
    rw [List.cons_append, startsAfter, endsLine_of_ne hr hn, byteLength_cons, ← Nat.add_assoc]
    exact ih hcs

/-- After a line the next one starts. -/
theorem startsAfter_line (l : Line) (h : l.ending = .carriageReturn → ds.head? ≠ some '\n') :
    startsAfter o (l.text ++ ds) =
      (o + byteLength l.text) :: startsAfter (o + byteLength l.text) ds := by
  rw [Line.text, List.append_assoc, startsAfter_unbroken l.unbroken, byteLength_append,
    ← Nat.add_assoc]
  cases he : l.ending with
  | feed => rfl
  | carriageReturn =>
    have hends : endsLine '\r' ds = true := by simpa [endsLine] using h he
    exact if_pos hends
  | pair => rfl

/-- Lines that follow a line without making a pair with it do not begin with a line feed. -/
theorem head?_lines_ne {l : Line} {lines : List Line} (h : (l :: lines).IsChain Line.Apart)
    (hcs : Unbroken cs) (hl : l.ending = .carriageReturn) :
    ((lines.map Line.text).flatten ++ cs).head? ≠ some '\n' := by
  cases lines with
  | nil =>
    cases cs with
    | nil => simp
    | cons c cs => simpa using (unbroken_cons.mp hcs).1.2
  | cons m lines =>
    have hm := (List.isChain_cons_cons.mp h).1 hl
    have hne : m.text ≠ [] := by
      cases he : m.ending <;> simp [Line.text, LineEnd.text, he]
    obtain ⟨c, cs, hc⟩ := List.exists_cons_of_ne_nil hne
    rw [hc] at hm
    simpa [hc] using hm

theorem startsAfter_lines {lines : List Line} (h : lines.IsChain Line.Apart) (hcs : Unbroken cs) :
    o :: startsAfter o ((lines.map Line.text).flatten ++ cs) =
      lines.scanl (fun o l => o + byteLength l.text) o := by
  induction lines generalizing o with
  | nil =>
    have hnone : startsAfter o (cs ++ []) = [] := startsAfter_unbroken hcs
    rw [List.append_nil] at hnone
    rw [List.map_nil, List.flatten_nil, List.nil_append, hnone, List.scanl_nil]
  | cons l lines ih =>
    rw [List.map_cons, List.flatten_cons, List.append_assoc,
      startsAfter_line l (head?_lines_ne h hcs), List.scanl_cons,
      ih (List.isChain_cons.mp h).2]

namespace Cut

variable {k : Cut}

theorem text_eq (k : Cut) : k.text = (k.lines.map Line.text).flatten ++ k.last := by
  simp [text, pieces]

/-- The lines of a cut are the lines of its text. -/
theorem lineStarts_text (k : Cut) : lineStarts k.text = k.starts := by
  rw [text_eq]
  exact startsAfter_lines k.apart k.unbroken

/-! ## Every text has a cut -/

/-- A character that ends no line goes to the first line. -/
theorem exists_cons_other (hr : c ≠ '\r') (hn : c ≠ '\n') (k : Cut) :
    ∃ k' : Cut, k'.text = c :: k.text := by
  obtain ⟨lines, last, hlast, hlines⟩ := k
  cases lines with
  | nil => exact ⟨⟨[], c :: last, unbroken_cons.mpr ⟨⟨hr, hn⟩, hlast⟩, hlines⟩, rfl⟩
  | cons l lines =>
    have hbody : Unbroken (c :: l.body) := unbroken_cons.mpr ⟨⟨hr, hn⟩, l.unbroken⟩
    refine ⟨⟨⟨c :: l.body, l.ending, hbody⟩ :: lines, last, hlast, ?_⟩, rfl⟩
    exact List.isChain_cons.mpr ⟨(List.isChain_cons.mp hlines).1, (List.isChain_cons.mp hlines).2⟩

theorem exists_cons_feed (k : Cut) : ∃ k' : Cut, k'.text = '\n' :: k.text := by
  refine ⟨⟨⟨[], .feed, unbroken_nil⟩ :: k.lines, k.last, k.unbroken, ?_⟩, rfl⟩
  exact List.isChain_cons.mpr ⟨fun _ _ he => (by cases he), k.apart⟩

/-- A carriage return is a line of its own, unless the first line is only a line feed. -/
theorem exists_cons_carriageReturn (k : Cut) : ∃ k' : Cut, k'.text = '\r' :: k.text := by
  obtain ⟨lines, last, hlast, hlines⟩ := k
  cases lines with
  | nil => exact ⟨⟨[⟨[], .carriageReturn, unbroken_nil⟩], last, hlast, .singleton _⟩, rfl⟩
  | cons l lines =>
    by_cases h : l.text.head? = some '\n'
    · refine ⟨⟨⟨[], .pair, unbroken_nil⟩ :: lines, last, hlast, ?_⟩, ?_⟩
      · exact List.isChain_cons.mpr
          ⟨fun _ _ he => (by cases he), (List.isChain_cons.mp hlines).2⟩
      · simp only [text, pieces, List.map_cons, List.cons_append, List.flatten_cons,
          Line.text_of_head? h]
        rfl
    · exact ⟨⟨⟨[], .carriageReturn, unbroken_nil⟩ :: l :: lines, last, hlast,
        List.isChain_cons_cons.mpr ⟨fun _ => h, hlines⟩⟩, rfl⟩

theorem exists_text_eq (cs : List Char) : ∃ k : Cut, k.text = cs := by
  induction cs with
  | nil => exact ⟨⟨[], [], unbroken_nil, .nil⟩, rfl⟩
  | cons c cs ih =>
    obtain ⟨k, rfl⟩ := ih
    by_cases hn : c = '\n'
    · exact hn ▸ exists_cons_feed k
    · by_cases hr : c = '\r'
      · exact hr ▸ exists_cons_carriageReturn k
      · exact exists_cons_other hr hn k

/-! ## Lines by their starts -/

theorem foldl_lengths (o : Nat) (lines : List Line) :
    lines.foldl (fun o l => o + byteLength l.text) o =
      o + byteLength (lines.map Line.text).flatten := by
  induction lines generalizing o with
  | nil => rfl
  | cons l lines ih =>
    rw [List.foldl_cons, ih, List.map_cons, List.flatten_cons, byteLength_append, Nat.add_assoc]

/-- A line starts after all lines before it. -/
theorem getElem?_starts (k : Cut) (i : Nat) :
    k.starts[i]? = k.pieces[i]?.map fun _ => byteLength (k.pieces.take i).flatten := by
  rw [starts, List.getElem?_scanl, foldl_lengths, Nat.zero_add]
  by_cases hi : i ≤ k.lines.length
  · have htake : k.pieces.take i = (k.lines.take i).map Line.text := by
      rw [pieces, List.take_append_of_le_length (by simpa using hi), List.map_take]
    have hlt : i < k.pieces.length := by simp [pieces]; omega
    rw [if_pos hi, htake, List.getElem?_eq_getElem hlt, Option.map_some]
  · have hle : k.pieces.length ≤ i := by simp [pieces]; omega
    rw [if_neg hi, List.getElem?_eq_none hle, Option.map_none]

/-- A line goes up to the next start, and the last one to the end of the text. -/
theorem next_start (k : Cut) (i : Nat) :
    k.starts[i + 1]?.getD (byteLength k.text) = byteLength (k.pieces.take (i + 1)).flatten := by
  rw [getElem?_starts]
  cases h : k.pieces[i + 1]? with
  | some piece => rfl
  | none => rw [List.take_of_length_le (List.getElem?_eq_none_iff.mp h)]; rfl

theorem text_eq_of_piece (k : Cut) {piece : List Char} (h : k.pieces[i]? = some piece) :
    k.text = (k.pieces.take i).flatten ++ piece ++ (k.pieces.drop (i + 1)).flatten := by
  obtain ⟨hi, rfl⟩ := List.getElem?_eq_some_iff.mp h
  rw [text, List.append_assoc, ← List.flatten_cons, ← List.drop_eq_getElem_cons hi,
    ← List.flatten_append, List.take_append_drop]

theorem slice?_line (k : Cut) {piece : List Char} (h : k.pieces[i]? = some piece) :
    k.starts[i]? = some (byteLength (k.pieces.take i).flatten) ∧
      slice? k.text (byteLength (k.pieces.take i).flatten)
        (k.starts[i + 1]?.getD (byteLength k.text)) = some piece := by
  refine ⟨by rw [getElem?_starts, h, Option.map_some], ?_⟩
  have hnext : k.starts[i + 1]?.getD (byteLength k.text) =
      byteLength (k.pieces.take i).flatten + byteLength piece := by
    rw [next_start, List.take_add_one, h, List.flatten_append, byteLength_append]
    simp
  rw [hnext, k.text_eq_of_piece h]
  exact slice?_append _ _ _

end Cut

/-! ## The table of a file -/

/-- The line starts of the table as numbers. -/
def LineTable.offsets (t : LineTable) : List Nat := t.starts.toList.map UInt32.toNat

theorem LineTable.offsets_ofText (h : byteLength cs ≤ maxWord) :
    (ofText cs).offsets = lineStarts cs := by
  rw [offsets, ofText, List.map_map]
  refine (List.map_congr_left fun s hs => ?_).trans (List.map_id _)
  have := le_of_mem_lineStarts hs
  rw [Function.comp_apply, toNat_clampWord, Nat.min_eq_left (by omega)]
  rfl

/-- **The table of lines holds the line starts and nothing else.** For a text that fits the words of
its offsets it begins with 0, increases strictly and stays in the text; a later offset is in it
exactly if a line feed stands before it, or a carriage return that no line feed follows. Cutting the
text at consecutive entries gives lines: all of them end in one of the three ways but the last one,
and no other line end is left in them. And wherever a text is put together from such lines, the
entries are the sums of their lengths. -/
theorem SourceFile.lines_exact (f : SourceFile) (h : f.byteCount ≤ maxWord) :
    f.lineTable.offsets.Pairwise (· < ·) ∧ f.lineTable.offsets.head? = some 0 ∧
    (∀ s ∈ f.lineTable.offsets, s ≤ f.byteCount) ∧
    (∀ p, 1 ≤ p → (p ∈ f.lineTable.offsets ↔
      (utf8 f.content.toList)[p - 1]? = some lineFeed ∨
        (utf8 f.content.toList)[p - 1]? = some carriageReturn ∧
          (utf8 f.content.toList)[p]? ≠ some lineFeed)) ∧
    (∃ k : Cut, k.pieces.flatten = f.content.toList ∧
      k.pieces.length = f.lineTable.offsets.length ∧
      ∀ i start, f.lineTable.offsets[i]? = some start → ∃ piece, k.pieces[i]? = some piece ∧
        slice? f.content.toList start (f.lineTable.offsets[i + 1]?.getD f.byteCount) =
          some piece) ∧
    ∀ k : Cut, k.text = f.content.toList →
      f.lineTable.offsets = k.lines.scanl (fun o l => o + byteLength l.text) 0 := by
  have hoffsets : f.lineTable.offsets = lineStarts f.content.toList := LineTable.offsets_ofText h
  rw [hoffsets]
  refine ⟨pairwise_lineStarts _, rfl, fun s hs => le_of_mem_lineStarts hs, ?_, ?_, ?_⟩
  · intro p hp
    rw [mem_lineStarts_iff hp, EndsLineAt, Nat.sub_add_cancel hp]
  · obtain ⟨k, hk⟩ := Cut.exists_text_eq f.content.toList
    have hlength : k.pieces.length = k.starts.length := by simp [Cut.pieces, Cut.starts]
    rw [SourceFile.byteCount, ← hk, k.lineStarts_text]
    refine ⟨k, rfl, hlength, fun i start hi => ?_⟩
    have hlt : i < k.pieces.length := hlength ▸ (List.getElem?_eq_some_iff.mp hi).1
    have hpiece := List.getElem?_eq_getElem hlt
    obtain ⟨hstart, hslice⟩ := k.slice?_line hpiece
    obtain rfl := Option.some.inj (hi.symm.trans hstart)
    exact ⟨_, hpiece, hslice⟩
  · intro k hk
    rw [← hk, k.lineStarts_text, Cut.starts]

/-- Two carriage returns and a line feed are two line ends: the first one alone, then the pair. -/
theorem lines_exact_samples :
    let f : SourceFile := ⟨⟨0⟩, "main.tsp", "a\r\r\né\n"⟩
    let k : Cut := ⟨[⟨['a'], .carriageReturn, by simp [Unbroken]⟩, ⟨[], .pair, unbroken_nil⟩,
      ⟨['é'], .feed, by simp [Unbroken]⟩], [], unbroken_nil,
        by simp [Line.Apart, Line.text, LineEnd.text]⟩
    f.byteCount ≤ maxWord ∧ k.text = f.content.toList ∧ f.lineTable.offsets = [0, 2, 4, 7] ∧
      4 ∈ f.lineTable.offsets ∧ 3 ∉ f.lineTable.offsets := by
  intro f k
  have h : f.byteCount ≤ maxWord := by decide +kernel
  have hk : k.text = f.content.toList := by decide +kernel
  obtain ⟨_, _, _, hmem, _, hall⟩ := SourceFile.lines_exact f h
  refine ⟨h, hk, ?_, ?_, ?_⟩
  · rw [hall k hk]
    decide +kernel
  · exact (hmem 4 (by decide)).mpr (by decide +kernel)
  · rw [hmem 3 (by decide)]
    decide +kernel

end SourceDiagnostics
