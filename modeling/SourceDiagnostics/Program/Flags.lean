import SourceDiagnostics.Text.Quoted

/-!
Sets of named flags in one word.

A `Vocabulary` names bits. A value of `Flags v` is a word whose bits the vocabulary `v` names;
bits without a name are kept by every operation but `complement` and `truncate`, and shown as a
number after the names.
-/

namespace SourceDiagnostics

/-- Names for single bits, in the order in which they are shown. -/
structure Vocabulary where
  title : String
  entries : List (String × UInt32)

/-- All bits that have a name. -/
def Vocabulary.known (v : Vocabulary) : UInt32 := v.entries.foldl (fun bits e => bits ||| e.2) 0

structure Flags (v : Vocabulary) where
  bits : UInt32
  deriving DecidableEq, Repr, Inhabited

namespace Flags

variable {v : Vocabulary}

def empty : Flags v := ⟨0⟩

/-- Every flag that has a name. -/
def all : Flags v := ⟨v.known⟩

def isEmpty (a : Flags v) : Bool := a.bits == 0

/-- Whether every flag with a name is set. Other bits may be set as well. -/
def isAll (a : Flags v) : Bool := (v.known ||| a.bits) == a.bits

def contains (a b : Flags v) : Bool := a.bits &&& b.bits == b.bits

def intersects (a b : Flags v) : Bool := a.bits &&& b.bits != 0

def union (a b : Flags v) : Flags v := ⟨a.bits ||| b.bits⟩

def inter (a b : Flags v) : Flags v := ⟨a.bits &&& b.bits⟩

def diff (a b : Flags v) : Flags v := ⟨a.bits &&& ~~~b.bits⟩

def symmDiff (a b : Flags v) : Flags v := ⟨a.bits ^^^ b.bits⟩

/-- The flags without the bits that have no name. -/
def truncate (a : Flags v) : Flags v := ⟨a.bits &&& v.known⟩

/-- The flags with a name that are not set. -/
def complement (a : Flags v) : Flags v := truncate ⟨~~~a.bits⟩

/-- The flags of a word, all of whose bits must have a name. -/
def ofBits? (bits : UInt32) : Option (Flags v) :=
  if bits &&& v.known == bits then some ⟨bits⟩ else none

/-- The names of the flags that are set. -/
def names (a : Flags v) : List String :=
  (v.entries.filter fun e => a.contains ⟨e.2⟩).map Prod.fst

/-- The bits without a name, as one hexadecimal number if there are any. -/
def unnamed (a : Flags v) : List String :=
  let rest := (a.diff all).bits
  if rest == 0 then [] else ["0x" ++ String.ofList (Text.hexDigits rest.toNat)]

def inspect (a : Flags v) : String :=
  Text.applied v.title (if a.isEmpty then "0x0" else " | ".intercalate (a.names ++ a.unnamed))

example : (⟨0x1b⟩ : Flags ⟨"Marks", [("A", 1), ("B", 2)]⟩).inspect = "Marks(A | B | 0x18)" := by
  decide +kernel

end Flags

end SourceDiagnostics
