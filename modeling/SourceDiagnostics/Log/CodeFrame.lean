import SourceDiagnostics.Source.Location

/-!
Code frames: the line where a location starts, with the bytes of its span underlined.

Below the line stands one blank for each byte before the span and one tilde for each byte of the
span in that line, at least one. Line ends do not belong to the line.
-/

namespace SourceDiagnostics

structure CodeFrame where
  /-- The number of the line, counted from one. -/
  line : UInt32
  /-- The text of the line. -/
  body : List Char
  /-- How many bytes of the line stand before the span. -/
  indent : Nat
  /-- How many bytes to underline. -/
  markers : Nat
  deriving DecidableEq, Repr

/-- A line without the line feeds and carriage returns at its end. -/
def trimLineEnd (line : List Char) : List Char :=
  (line.reverse.dropWhile fun c => c == '\n' || c == '\r').reverse

namespace CodeFrame

/-- The frame of a location. There is none where the table of lines does not fit the text. -/
def ofLocation (l : SourceLocation) : Except Fault (Option CodeFrame) := do
  let position ← l.startPosition
  let starts := l.file.lineTable.starts
  match starts[position.line.toNat]? with
  | none => return none
  | some lineStart =>
    let lineEnd := starts[position.line.toNat + 1]?.getD l.file.len
    match Text.slice? l.file.content.toList lineStart.toNat lineEnd.toNat with
    | none => return none
    | some line =>
      let body := trimLineEnd line
      let bodyEnd ← checkedAdd lineStart (clampWord (Text.byteLength body))
      let number ← checkedAdd position.line 1
      return some {
        line := number
        body
        indent := position.character.toNat
        markers := max 1 (min l.span.stop.toNat bodyEnd.toNat - l.span.start.toNat) }

/-- An empty line, the line of the text after its number, and the line of the markers. -/
def render (f : CodeFrame) : String :=
  let number := toString f.line.toNat
  "\n\n" ++ number ++ " | " ++ String.ofList f.body ++ "\n" ++
    String.ofList (List.replicate number.length ' ') ++ " | " ++
    String.ofList (List.replicate f.indent ' ') ++ String.ofList (List.replicate f.markers '~')

example : (⟨12, "let x".toList, 4, 1⟩ : CodeFrame).render = "\n\n12 | let x\n   |     ~" := by
  decide +kernel

end CodeFrame

end SourceDiagnostics
