import SourceDiagnostics.Proofs.CodeFrame

/-!
The columns of the markers in a code frame, beside the characters above them.

The line is written character by character, while blanks and tildes are counted in bytes. So the
tildes have the columns of the bytes that the span underlines (`Span.Underlines`), and stand below
its characters only where those are the same columns.

* `Between.exists_take`: an offset between characters counts the characters before it;
* `SourceLocation.BeginsIn.exists_runs`: the part of a line that a span takes, in characters;
* `Span.Runs.below_iff_narrow`: the markers stand below that part exactly if every character of the
  line before the end of the span takes one byte;
* `LogEntry.markers_in_bytes`: both laws, for the row of markers that there always is;
* `LogEntry.markers_beside_characters`: a row that stands beside the characters of its span.
-/

namespace SourceDiagnostics

open Text

variable {cs before mid after body : List Char} {i j n p start first last : Nat} {s : Span}
  {k : Cut} {l : SourceLocation}

/-! ## Bytes and characters -/

theorem length_le_byteLength (cs : List Char) : cs.length ≤ byteLength cs := by
  induction cs with
  | nil => exact Nat.le_refl 0
  | cons c cs ih =>
    have := c.utf8Size_pos
    rw [List.length_cons, byteLength_cons]
    omega

theorem byteLength_eq_length_iff : byteLength cs = cs.length ↔ ∀ c ∈ cs, c.utf8Size = 1 := by
  induction cs with
  | nil => simp
  | cons c cs ih =>
    have := c.utf8Size_pos
    have := length_le_byteLength cs
    rw [List.forall_mem_cons, ← ih, List.length_cons, byteLength_cons]
    omega

theorem byteLength_take_le (cs : List Char) (h : i ≤ j) :
    byteLength (cs.take i) ≤ byteLength (cs.take j) := by
  obtain ⟨d, rfl⟩ := Nat.exists_eq_add_of_le h
  rw [List.take_add, byteLength_append]
  exact Nat.le_add_right _ _

theorem byteLength_take_add_le (cs : List Char) (hij : i ≤ j) (hj : j ≤ cs.length) :
    byteLength (cs.take i) + (j - i) ≤ byteLength (cs.take j) := by
  obtain ⟨d, rfl⟩ := Nat.exists_eq_add_of_le hij
  have hlength : ((cs.drop i).take d).length = d := by
    rw [List.length_take, List.length_drop]
    omega
  have := length_le_byteLength ((cs.drop i).take d)
  rw [List.take_add, byteLength_append]
  omega

theorem byteLength_take_lt_iff (h : i < cs.length) :
    byteLength (cs.take i) < byteLength (cs.take j) ↔ i < j := by
  constructor
  · intro hlt
    by_contra hij
    have := byteLength_take_le cs (Nat.le_of_not_lt hij)
    omega
  · intro hij
    have := byteLength_take_add_le cs (Nat.le_succ i) h
    have := byteLength_take_le cs (Nat.succ_le_of_lt hij)
    omega

theorem byteLength_take_lt (h : i < cs.length) : byteLength (cs.take i) < byteLength cs := by
  have := (byteLength_take_lt_iff h).mpr h
  rwa [List.take_length] at this

theorem intervals_eq_iff {a b c d : Nat} (hab : a < b) (hcd : c < d) :
    (∀ n, a ≤ n ∧ n < b ↔ c ≤ n ∧ n < d) ↔ a = c ∧ b = d := by
  constructor
  · intro h
    have := h a
    have := h c
    have := h (b - 1)
    have := h (d - 1)
    omega
  · rintro ⟨rfl, rfl⟩ n
    exact Iff.rfl

/-- Offset `p` stands between characters, or at an end of the text. -/
def Between (cs : List Char) (p : Nat) : Prop :=
  ∃ before after, cs = before ++ after ∧ byteLength before = p

/-- In a part of the text, an offset between characters has some of the characters before it. -/
theorem Between.exists_take (h : Between (before ++ (mid ++ after)) p)
    (hle : byteLength before ≤ p) (hp : p ≤ byteLength before + byteLength mid) :
    ∃ n ≤ mid.length, p = byteLength before + byteLength (mid.take n) := by
  obtain ⟨front, rest, heq, rfl⟩ := h
  rcases List.append_eq_append_iff.mp heq with ⟨ds, rfl, hds⟩ | ⟨ds, rfl, _⟩
  · rw [byteLength_append] at hp ⊢
    rcases List.append_eq_append_iff.mp hds with ⟨es, rfl, _⟩ | ⟨es, rfl, _⟩
    · -- The offset is that of the end of the part.
      rw [byteLength_append] at hp ⊢
      exact ⟨mid.length, Nat.le_refl _, by rw [List.take_length]; omega⟩
    · exact ⟨ds.length, by simp, by rw [List.take_left]⟩
  · rw [byteLength_append] at hle ⊢
    exact ⟨0, Nat.zero_le _, by rw [List.take_zero, byteLength_nil]; omega⟩

/-! ## The part of a line that a span takes -/

/-- The offsets to underline: those of the span, or the one at which an empty span stands. -/
def Span.Underlines (s : Span) (p : Nat) : Prop :=
  s.start.toNat ≤ p ∧ p < s.stop.toNat ∨ s.start = s.stop ∧ p = s.start.toNat

instance : Decidable (s.Underlines p) := inferInstanceAs (Decidable (_ ∨ _))

/-- In a body that starts at offset `start`, the span takes the characters from `first` up to, and
without, `last`. There is a character at its start. -/
structure Span.Runs (s : Span) (start : Nat) (body : List Char) (first last : Nat) : Prop where
  first_lt : first < body.length
  first_le : first ≤ last
  last_le : last ≤ body.length
  start_eq : s.start.toNat = start + byteLength (body.take first)
  stop_eq : min s.stop.toNat (start + byteLength body) = start + byteLength (body.take last)

/-- The columns that are marked for these characters: one for each byte, and one at least. -/
def Marked (body : List Char) (first last n : Nat) : Prop :=
  byteLength (body.take first) ≤ n ∧ n < byteLength (body.take first) +
    max 1 (byteLength (body.take last) - byteLength (body.take first))

namespace Span.Runs

variable (h : s.Runs start body first last)
include h

theorem lt_stop_iff (hj : j < body.length) :
    start + byteLength (body.take j) < s.stop.toNat ↔ j < last := by
  have hend := byteLength_take_lt hj
  have := h.stop_eq
  rw [← byteLength_take_lt_iff hj]
  omega

theorem start_le_iff (hj : j < body.length) :
    s.start.toNat ≤ start + byteLength (body.take j) ↔ first ≤ j := by
  have := h.start_eq
  rw [← not_iff_not, Nat.not_le, Nat.not_le, ← byteLength_take_lt_iff hj]
  omega

theorem start_eq_stop_iff : s.start = s.stop ↔ first = last := by
  have hfirst := h.lt_stop_iff h.first_lt
  have hend := byteLength_take_lt h.first_lt
  have hle := byteLength_take_le body h.first_le
  have := h.start_eq
  have := h.stop_eq
  have := h.first_le
  rw [← UInt32.toNat_inj]
  omega

/-- The characters to underline are those of the run, or the first one if there are none. -/
theorem underlines_iff (hj : j < body.length) :
    s.Underlines (start + byteLength (body.take j)) ↔ first ≤ j ∧ j < max (first + 1) last := by
  have hat : start + byteLength (body.take j) = s.start.toNat ↔ j = first := by
    have := byteLength_take_lt_iff hj (j := first)
    have := byteLength_take_lt_iff h.first_lt (j := j)
    have := h.start_eq
    omega
  have := h.first_le
  rw [Underlines, h.start_le_iff hj, h.lt_stop_iff hj, h.start_eq_stop_iff, hat]
  omega

/-- Every character before the end of the span takes one byte exactly if those are as many
characters as bytes. -/
theorem narrow_iff :
    (∀ j (hj : j < body.length), start + byteLength (body.take j) < s.stop.toNat →
      body[j].utf8Size = 1) ↔ byteLength (body.take last) = last := by
  have hbytes : byteLength (body.take last) = last ↔ ∀ c ∈ body.take last, c.utf8Size = 1 := by
    rw [← byteLength_eq_length_iff, List.length_take_of_le h.last_le]
  rw [hbytes]
  constructor
  · intro hnarrow c hc
    obtain ⟨j, hj, rfl⟩ := List.mem_take_iff_getElem.mp hc
    exact hnarrow j (by omega) ((h.lt_stop_iff (by omega)).mpr (by omega))
  · intro hnarrow j hj hlt
    have := (h.lt_stop_iff hj).mp hlt
    exact hnarrow _ (List.mem_take_iff_getElem.mpr ⟨j, by omega, rfl⟩)

/-- The columns of the bytes to underline are marked. -/
theorem marked_iff (n : Nat) :
    Marked body first last n ↔ n < byteLength body ∧ s.Underlines (start + n) := by
  have hend := byteLength_take_lt h.first_lt
  have hlt := byteLength_take_lt_iff h.first_lt (j := last)
  have hle := byteLength_take_le body h.first_le
  have := h.first_le
  have := h.start_eq
  have := h.stop_eq
  rw [Marked, Span.Underlines, h.start_eq_stop_iff]
  omega

/-- The columns of the characters to underline are marked, and no others, exactly if every character
of the line before the end of the span takes one byte. -/
theorem below_iff_narrow :
    (∀ j, Marked body first last j ↔
      j < body.length ∧ s.Underlines (start + byteLength (body.take j))) ↔
    ∀ j (hj : j < body.length), start + byteLength (body.take j) < s.stop.toNat →
      body[j].utf8Size = 1 := by
  have hcharacters : ∀ j, j < body.length ∧ s.Underlines (start + byteLength (body.take j)) ↔
      first ≤ j ∧ j < max (first + 1) last := by
    intro j
    have := h.first_lt
    have := h.last_le
    rw [and_congr_right fun hj => h.underlines_iff hj]
    omega
  have hlt := byteLength_take_lt_iff h.first_lt (j := last)
  have hfirst := byteLength_take_add_le body (Nat.zero_le first) (Nat.le_of_lt h.first_lt)
  rw [List.take_zero, byteLength_nil] at hfirst
  have hrun := byteLength_take_add_le body h.first_le h.last_le
  have := h.first_le
  rw [h.narrow_iff, forall_congr' fun j => iff_congr Iff.rfl (hcharacters j)]
  simp only [Marked]
  rw [intervals_eq_iff (by omega) (by omega)]
  omega

end Span.Runs

/-! ## Rows of markers -/

namespace CodeFrame

variable (f : CodeFrame)

/-- What stands below the line. -/
def markerRow : List Char := List.replicate f.indent ' ' ++ List.replicate f.markers '~'

theorem getElem?_markerRow (n : Nat) :
    f.markerRow[n]? = some '~' ↔ f.indent ≤ n ∧ n < f.indent + f.markers := by
  rw [markerRow, List.getElem?_append, List.length_replicate]
  split
  · simp [List.getElem?_replicate]
    omega
  · simp [List.getElem?_replicate]
    omega

theorem render_eq : f.render = "\n\n" ++ toString f.line.toNat ++ " | " ++
    String.ofList f.body ++ "\n" ++
      String.ofList (List.replicate (toString f.line.toNat).length ' ') ++ " | " ++
      String.ofList f.markerRow := by
  rw [render, markerRow, String.ofList_append, ← String.append_assoc]

end CodeFrame

/-! ## Locations that begin in a line -/

/-- The line that begins next begins after the body of this one. -/
theorem Cut.le_next_start (hbody : k.bodies[i]? = some body) (hstart : k.starts[i]? = some start) :
    start + byteLength body ≤ k.starts[i + 1]?.getD (byteLength k.text) := by
  rw [k.getElem?_starts] at hstart
  obtain ⟨piece, hpiece, rfl⟩ := Option.map_eq_some_iff.mp hstart
  obtain ⟨body', ending, hbody', _, rfl, _⟩ := k.exists_ending hpiece
  obtain rfl : body' = body := Option.some.inj (hbody'.symm.trans hbody)
  rw [k.next_start, List.take_add_one, hpiece, List.flatten_append, byteLength_append]
  simp

namespace SourceLocation

/-- The span begins at a character of line `i`, which starts at offset `start`, and its end is not
before its start nor within a character. -/
structure BeginsIn (l : SourceLocation) (i start : Nat) (body : List Char) : Prop where
  line : ∃ k : Cut, k.text = l.file.content.toList ∧ k.bodies[i]? = some body
  line_start : l.file.lineTable.offsets[i]? = some start
  ordered : l.span.start ≤ l.span.stop
  after_start : start ≤ l.span.start.toNat
  before_end : l.span.start.toNat < start + byteLength body
  start_between : Between l.file.content.toList l.span.start.toNat
  stop_between : Between l.file.content.toList l.span.stop.toNat

namespace BeginsIn

variable (h : l.BeginsIn i start body)
include h

theorem exists_start : ∃ word : UInt32, l.file.lineTable.starts[i]? = some word ∧
    word.toNat = start := by
  have hstart := h.line_start
  rw [LineTable.getElem?_offsets] at hstart
  exact Option.map_eq_some_iff.mp hstart

variable (hl : l.file.byteCount ≤ maxWord)
include hl

theorem exists_around : ∃ before after, l.file.content.toList = before ++ (body ++ after) ∧
    byteLength before = start := by
  obtain ⟨k, hk, hbody⟩ := h.line
  obtain ⟨word, hword, rfl⟩ := h.exists_start
  obtain ⟨before, body', ending, after, hbody', _, _, htext, hbefore, _⟩ :=
    l.file.line_of_start hl hk hword
  obtain rfl : body' = body := Option.some.inj (hbody'.symm.trans hbody)
  refine ⟨before, ending ++ after, ?_, hbefore⟩
  rw [htext, List.append_assoc, List.append_assoc]

theorem exists_runs : ∃ first last, l.span.Runs start body first last := by
  obtain ⟨before, after, htext, rfl⟩ := h.exists_around hl
  have hstart := h.start_between
  have hstop := h.stop_between
  have hordered := UInt32.le_iff_toNat_le.mp h.ordered
  have := h.after_start
  have hbefore := h.before_end
  rw [htext] at hstart hstop
  obtain ⟨first, _, hfirst⟩ := hstart.exists_take h.after_start (Nat.le_of_lt hbefore)
  have hfirst_lt : first < body.length := by
    by_contra hge
    rw [List.take_of_length_le (Nat.le_of_not_lt hge)] at hfirst
    omega
  -- A span that reaches past the body takes all that is left of it.
  obtain ⟨last, hlast_le, hlast⟩ : ∃ last ≤ body.length,
      min l.span.stop.toNat (byteLength before + byteLength body) =
        byteLength before + byteLength (body.take last) := by
    by_cases hend : l.span.stop.toNat ≤ byteLength before + byteLength body
    · obtain ⟨last, hle, hlast⟩ := hstop.exists_take (by omega) hend
      exact ⟨last, hle, by rw [Nat.min_eq_left hend, hlast]⟩
    · exact ⟨body.length, Nat.le_refl _, by rw [List.take_length]; omega⟩
  refine ⟨first, last, hfirst_lt, ?_, hlast_le, hfirst, hlast⟩
  by_contra hlt
  have hbody : last < body.length := by omega
  have := (byteLength_take_lt_iff hbody (j := first)).mpr (by omega)
  omega

/-- The line is the last one that starts at or before the span. -/
theorem lastStarted : l.file.lineTable.LastStarted l.span.start i := by
  obtain ⟨k, hk, hbody⟩ := h.line
  obtain ⟨word, hword, rfl⟩ := h.exists_start
  have hoffsets := SourceFile.offsets_eq hl hk
  refine ⟨⟨word, hword, UInt32.le_iff_toNat_le.mpr h.after_start⟩, fun {next} hnext => ?_⟩
  have hle := k.le_next_start hbody (hoffsets ▸ h.line_start)
  rw [← hoffsets, LineTable.getElem?_offsets, hnext] at hle
  exact UInt32.lt_iff_toNat_lt.mpr (Nat.lt_of_lt_of_le h.before_end hle)

theorem startPosition_eq : ∃ p, l.startPosition = .ok p ∧ ¬ p.Full ∧ p.line.toNat = i ∧
    start + p.character.toNat = l.span.start.toNat := by
  obtain ⟨before, after, htext, hbefore⟩ := h.exists_around hl
  obtain ⟨word, hword, hstart⟩ := h.exists_start
  obtain ⟨p, hp, hlast, hoffset⟩ := LineTable.position_spec_last hl l.span.start
  have hline : p.line.toNat = i := hlast.unique hl (h.lastStarted hl)
  refine ⟨p, hp, fun hfull => ?_, hline, ?_⟩
  · -- A span that begins in a body does not begin at the last of all offsets.
    have hmax := ((l.file.full_iff hl hp).mp hfull).1
    have := h.before_end
    rw [SourceFile.byteCount, htext] at hl
    simp only [byteLength_append] at hl
    omega
  · rw [LineTable.offset?, hline] at hoffset
    obtain ⟨word', hword', hsum⟩ := Option.map_eq_some_iff.mp hoffset
    obtain rfl : word' = word := Option.some.inj (hword'.symm.trans hword)
    omega

/-- There is a frame, which shows the line and marks the part that the span takes. -/
theorem exists_frame : ∃ (text : String) (frame : CodeFrame) (first last : Nat),
    l.text = .ok text ∧ CodeFrame.ofLocation l = .ok (some frame) ∧ frame.line.toNat = i + 1 ∧
      frame.body = body ∧ l.span.Runs start body first last ∧
      ∀ n, frame.markerRow[n]? = some '~' ↔ Marked body first last n := by
  obtain ⟨first, last, hruns⟩ := h.exists_runs hl
  obtain ⟨p, hp, hfull, rfl, hcharacter⟩ := h.startPosition_eq hl
  obtain ⟨k, hk, hbody⟩ := h.line
  obtain ⟨word, hword, rfl⟩ := h.exists_start
  have hindent : p.character.toNat = byteLength (body.take first) :=
    Nat.add_left_cancel (hcharacter.trans hruns.start_eq)
  refine ⟨_, _, first, last, text_of_not_full hp hfull,
    CodeFrame.ofLocation_eq hl hp (not_or.mp hfull).1 hk hword hbody,
    Position.toNat_add_one (not_or.mp hfull).1, rfl, hruns, fun n => ?_⟩
  rw [CodeFrame.getElem?_markerRow, hindent, hruns.stop_eq, hruns.start_eq,
    Nat.add_sub_add_left, Marked]

end BeginsIn

end SourceLocation

/-- **The markers are below the bytes of the span.** Of a real location whose span begins in the
body of a line, in a file that fits the words of its offsets, the frame shows that line and one row
of markers. A column of that row has a tilde exactly if the byte of the line in that column is to be
underlined. So the same can be said of its characters exactly if each of them before the end of the
span takes one byte. -/
theorem LogEntry.markers_in_bytes (e : LogEntry) (l : SourceLocation) (i start : Nat)
    (body : List Char) (he : e.location = some l) (hs : l.isSynthetic = false)
    (hl : l.file.byteCount ≤ maxWord) (h : l.BeginsIn i start body) :
    ∃ (header : String) (row : List Char), e.render .plain = .ok header ∧
      e.render .framed = .ok (header ++
        ("\n\n" ++ toString (i + 1) ++ " | " ++ String.ofList body ++ "\n" ++
          String.ofList (List.replicate (toString (i + 1)).length ' ') ++ " | " ++
          String.ofList row)) ∧
      (∀ n, row[n]? = some '~' ↔ n < byteLength body ∧ l.span.Underlines (start + n)) ∧
      ((∀ j, row[j]? = some '~' ↔
          j < body.length ∧ l.span.Underlines (start + byteLength (body.take j))) ↔
        ∀ j (hj : j < body.length), start + byteLength (body.take j) < l.span.stop.toNat →
          body[j].utf8Size = 1) := by
  obtain ⟨text, frame, first, last, htext, hframe, hline, hbody, hruns, hrow⟩ := h.exists_frame hl
  have hplain : e.render .plain = .ok (text ++ " - " ++ e.label) :=
    congrArg (· >>= pure) (header_of_location he htext)
  refine ⟨text ++ " - " ++ e.label, frame.markerRow, hplain, ?_, fun n => ?_, ?_⟩
  · rw [render_framed_eq, hplain, frame_of_location he hs hframe, CodeFrame.render_eq, hline, hbody]
    rfl
  · rw [hrow, hruns.marked_iff]
  · rw [forall_congr' fun j => iff_congr (hrow j) Iff.rfl, hruns.below_iff_narrow]

/-- A character of two bytes behind the span leaves the markers in their places. -/
theorem markers_in_bytes_samples :
    let l : SourceLocation :=
      ⟨⟨⟨0⟩, "main.tsp", "a\nmodel é \x7b\x7d\n"⟩, ⟨2, 7⟩, false⟩
    let e : LogEntry := { level := .error, message := "bad", location := some l }
    let body := "model é \x7b\x7d".toList
    e.location = some l ∧ l.isSynthetic = false ∧ l.file.byteCount ≤ maxWord ∧
      l.BeginsIn 1 2 body ∧
      e.render .framed =
        .ok "main.tsp:2:1 - error: bad\n\n2 | model é \x7b\x7d\n  | ~~~~~" ∧
      ∃ row : List Char, ∀ j, row[j]? = some '~' ↔
        j < body.length ∧ l.span.Underlines (2 + byteLength (body.take j)) := by
  intro l e body
  have hl : l.file.byteCount ≤ maxWord := by decide +kernel
  have hin : l.BeginsIn 1 2 body := by
    refine ⟨⟨⟨[⟨['a'], .feed, by simp [Unbroken]⟩, ⟨body, .feed, by simp [Unbroken, body]⟩], [],
      unbroken_nil, by simp [Line.Apart]⟩, by decide +kernel, rfl⟩, by decide +kernel,
      by decide, by decide, by decide +kernel, ⟨"a\n".toList, "model é \x7b\x7d\n".toList, ?_⟩,
      ⟨"a\nmodel".toList, " é \x7b\x7d\n".toList, ?_⟩⟩
    · decide +kernel
    · decide +kernel
  obtain ⟨_, row, _, _, _, hrow⟩ := LogEntry.markers_in_bytes e l 1 2 body rfl rfl hl hin
  exact ⟨rfl, rfl, hl, hin, by decide +kernel, row, hrow.mpr (by decide +kernel)⟩

/-- A character of two bytes before the span moves the markers one column to the right: the first
character of the span has none, and the one behind the span has one. -/
theorem LogEntry.markers_beside_characters :
    let l : SourceLocation := ⟨⟨⟨0⟩, "main.tsp", "alias é = string;\n"⟩, ⟨11, 17⟩, false⟩
    let e : LogEntry := { level := .error, message := "bad", location := some l }
    let body := "alias é = string;".toList
    let row := "           ~~~~~~".toList
    l.isSynthetic = false ∧ l.file.byteCount ≤ maxWord ∧ l.BeginsIn 0 0 body ∧
      e.render .framed = .ok ("main.tsp:1:12 - error: bad\n\n1 | " ++ String.ofList body ++
        "\n  | " ++ String.ofList row) ∧
      l.span.Underlines (byteLength (body.take 10)) ∧ body[10]? = some 's' ∧
      row[10]? = some ' ' ∧
      ¬ l.span.Underlines (byteLength (body.take 16)) ∧ body[16]? = some ';' ∧
      row[16]? = some '~' := by
  intro l e body row
  have hin : l.BeginsIn 0 0 body := by
    refine ⟨⟨⟨[⟨body, .feed, by simp [Unbroken, body]⟩], [], unbroken_nil, .singleton _⟩,
      by decide +kernel, rfl⟩, by decide +kernel, by decide, by decide, by decide +kernel,
      ⟨"alias é = ".toList, "string;\n".toList, ?_⟩,
      ⟨"alias é = string".toList, ";\n".toList, ?_⟩⟩
    · decide +kernel
    · decide +kernel
  exact ⟨rfl, by decide +kernel, hin, by decide +kernel, by decide +kernel, by decide,
    by decide, by decide +kernel, by decide, by decide⟩

end SourceDiagnostics
