/-!
Texts measured in bytes of UTF-8.

`byteLength` is the size of a text, `utf8` its bytes, and `slice?` the part of it between two byte
offsets, which exists only when both offsets stand between characters (`slice?_append`).
-/

namespace SourceDiagnostics.Text

/-- The number of bytes that a text takes. -/
def byteLength (cs : List Char) : Nat := cs.foldr (fun c n => c.utf8Size + n) 0

@[simp] theorem byteLength_nil : byteLength [] = 0 := rfl

@[simp] theorem byteLength_cons (c : Char) (cs : List Char) :
    byteLength (c :: cs) = c.utf8Size + byteLength cs := rfl

@[simp] theorem byteLength_append (cs ds : List Char) :
    byteLength (cs ++ ds) = byteLength cs + byteLength ds := by
  induction cs with
  | nil => simp
  | cons c cs ih => simp [ih, Nat.add_assoc]

/-- The bytes of a text. -/
def utf8 (cs : List Char) : List UInt8 := cs.flatMap String.utf8EncodeChar

/-- The text after its first `n` bytes; `none` when offset `n` lies within a character or past
the end. -/
def dropBytes? (n : Nat) (cs : List Char) : Option (List Char) :=
  if n = 0 then some cs
  else match cs with
    | [] => none
    | c :: rest => if c.utf8Size ≤ n then dropBytes? (n - c.utf8Size) rest else none

/-- The first `n` bytes of a text; `none` when offset `n` lies within a character or past the
end. -/
def takeBytes? (n : Nat) (cs : List Char) : Option (List Char) :=
  if n = 0 then some []
  else match cs with
    | [] => none
    | c :: rest =>
      if c.utf8Size ≤ n then (takeBytes? (n - c.utf8Size) rest).map (c :: ·) else none

/-- The part of a text from byte `start` up to byte `stop`. -/
def slice? (cs : List Char) (start stop : Nat) : Option (List Char) :=
  if start ≤ stop then (dropBytes? start cs).bind (takeBytes? (stop - start)) else none

theorem dropBytes?_append (cs ds : List Char) :
    dropBytes? (byteLength cs) (cs ++ ds) = some ds := by
  induction cs with
  | nil => unfold dropBytes?; simp
  | cons c cs ih =>
    have := c.utf8Size_pos
    unfold dropBytes?
    simp [ih]
    omega

theorem takeBytes?_append (cs ds : List Char) :
    takeBytes? (byteLength cs) (cs ++ ds) = some cs := by
  induction cs with
  | nil => unfold takeBytes?; simp
  | cons c cs ih =>
    have := c.utf8Size_pos
    unfold takeBytes?
    simp [ih]
    omega

/-- Offsets between characters cut out what stands between them. -/
theorem slice?_append (cs ds es : List Char) :
    slice? (cs ++ ds ++ es) (byteLength cs) (byteLength cs + byteLength ds) = some ds := by
  simp [slice?, dropBytes?_append, takeBytes?_append]

end SourceDiagnostics.Text
