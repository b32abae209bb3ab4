import SourceDiagnostics.Fault
import SourceDiagnostics.Text.Quoted
import SourceDiagnostics.Text.Bytes

/-!
Line tables: the offsets at which the lines of a text start, and the position of an offset.

A line ends after a line feed, or after a carriage return that no line feed follows; the pair of
the two is one ending. `lineStarts` lists where the lines of a text start, `LineTable.position`
finds the line of an offset by bisection. Characters of a position count bytes.
-/

namespace SourceDiagnostics

/-! ## Line starts -/

/-- Whether a line ends right after `c`, which stands before `rest`. -/
def endsLine (c : Char) (rest : List Char) : Bool :=
  c == '\n' || (c == '\r' && rest.head? != some '\n')

/-- Where the lines after the first start, in a text that stands at offset `offset`. -/
def startsAfter (offset : Nat) : List Char → List Nat
  | [] => []
  | c :: rest =>
    if endsLine c rest then (offset + c.utf8Size) :: startsAfter (offset + c.utf8Size) rest
    else startsAfter (offset + c.utf8Size) rest

/-- Where the lines of a text start. Even an empty text has one line. -/
def lineStarts (text : List Char) : List Nat := 0 :: startsAfter 0 text

example : lineStarts "a\r\nb\rc\n\n".toList = [0, 3, 5, 7, 8] := by decide +kernel

/-! ## Positions -/

/-- A line and a byte of that line, both counted from zero. -/
structure Position where
  line : UInt32
  character : UInt32
  deriving DecidableEq, Repr, Inhabited

namespace Position

/-- Line and column counted from one, as people count them. -/
def oneBased (p : Position) : Except Fault (UInt32 × UInt32) := do
  let line ← checkedAdd p.line 1
  let column ← checkedAdd p.character 1
  return (line, column)

def inspect (p : Position) : String :=
  Text.record "LineAndCharacter"
    [("line", toString p.line.toNat), ("character", toString p.character.toNat)]

end Position

/-- The line starts of a text as words. -/
structure LineTable where
  starts : Array UInt32
  deriving DecidableEq, Repr

namespace LineTable

def ofText (text : List Char) : LineTable := ⟨((lineStarts text).map clampWord).toArray⟩

def lineCount (t : LineTable) : Nat := t.starts.size

/-- The first index in `[lo, hi)` whose entry is greater than `offset`, or `hi`, for entries in
increasing order. -/
def bisect (starts : Array UInt32) (offset : UInt32) (lo hi : Nat) : Nat :=
  if lo < hi then
    let mid := lo + (hi - lo) / 2
    match starts[mid]? with
    | none => lo
    | some start => if start ≤ offset then bisect starts offset (mid + 1) hi
      else bisect starts offset lo mid
  else lo
  termination_by hi - lo

/-- The number of lines that start at or before `offset`. -/
def startedBy (t : LineTable) (offset : UInt32) : Nat := bisect t.starts offset 0 t.starts.size

/-- The position of an offset: the last line that starts at or before it. Offsets past the end of
the text belong to the last line. A table without such a line has no answer but a fault. -/
def position (t : LineTable) (offset : UInt32) : Except Fault Position := do
  match t.startedBy offset with
  | 0 => throw .differenceOverflow
  | line + 1 =>
    match t.starts[line]? with
    | none => throw (.outOfRange t.starts.size line)
    | some start => return ⟨clampWord line, ← checkedSub offset start⟩

end LineTable

end SourceDiagnostics
