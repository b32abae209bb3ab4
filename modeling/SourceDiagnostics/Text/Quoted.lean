/-!
The written form of values for readers of the program itself: quoted text, and records with named
fields.

`quote` puts a text between double quotes. Quotes, backslashes and the common control characters
are written with a backslash, every other control character by its hexadecimal code point, and
all else as it stands.

Other characters should be written by their code points as well: those that cannot be seen, such as
a soft hyphen (U+00AD) or a zero width space (U+200B), and those that join the character before
them, such as a combining accent (U+0301). The tables of these are left out, so they stand as they
are, and the written form is meant for texts without them.
-/

namespace SourceDiagnostics.Text

/-- The control characters: code points below 32 and from 127 to 159. -/
def isControl (c : Char) : Bool := c.val < 0x20 || (0x7f ≤ c.val && c.val ≤ 0x9f)

def hexDigits (n : Nat) : List Char := Nat.toDigits 16 n

/-- How one character stands inside a quoted text. Of the characters that cannot be seen only the
control characters are given by their code points. -/
def quoteChar (c : Char) : List Char :=
  match c with
  | '"' => ['\\', '"']
  | '\\' => ['\\', '\\']
  | '\n' => ['\\', 'n']
  | '\r' => ['\\', 'r']
  | '\t' => ['\\', 't']
  | '\x00' => ['\\', '0']
  | c => if isControl c then '\\' :: 'u' :: '\x7b' :: (hexDigits c.toNat ++ ['\x7d']) else [c]

def quote (s : String) : String :=
  String.ofList ('"' :: (s.toList.flatMap quoteChar ++ ['"']))

example : quote "a\"\\\x1b'" = "\"a\\\"\\\\\\u\x7b1b\x7d'\"" := by decide +kernel

/-- A record written as its title and its fields, such as `Entry { level: 1, text: "a" }`. -/
def record (title : String) (fields : List (String × String)) : String :=
  title ++ " \x7b " ++ ", ".intercalate (fields.map fun f => f.1 ++ ": " ++ f.2) ++ " \x7d"

/-- A constructor applied to one argument, such as `Some(3)`. -/
def applied (title argument : String) : String := title ++ "(" ++ argument ++ ")"

end SourceDiagnostics.Text
