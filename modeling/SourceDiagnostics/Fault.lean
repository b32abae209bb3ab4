/-!
Faults: the ways in which a computation stops for good.

Offsets, lines and columns are 32-bit words. A sum or a difference that does not fit is a fault
and never wraps (`checkedAdd`, `checkedSub`), while a size taken from a long text is cut to the
largest word (`clampWord`). A fault is not a diagnostic: nobody collects it, it only has a message.

There is no fault for a table that has run out of ids: tables grow without a bound here.
-/

namespace SourceDiagnostics

/-- Why a computation stopped. -/
inductive Fault where
  /-- A span was asked for whose end lies before its start. -/
  | invertedSpan
  /-- A source root was asked for with a kind that is not a source root. -/
  | notSourceRoot
  | sumOverflow
  | differenceOverflow
  /-- An entry was asked for past the end of a table. -/
  | outOfRange (size index : Nat)
  /-- A bug of the compiler, with the text it was reported with. -/
  | compilerBug (message : String)
  deriving DecidableEq, Repr

def Fault.message : Fault → String
  | .invertedSpan => "assertion failed: start <= end"
  | .notSourceRoot => "assertion failed: kind.is_source_root()"
  | .sumOverflow => "attempt to add with overflow"
  | .differenceOverflow => "attempt to subtract with overflow"
  | .outOfRange size index =>
    "index out of bounds: the len is " ++ toString size ++ " but the index is " ++ toString index
  | .compilerBug message => message

/-! ## Words -/

def maxWord : Nat := 4294967295

/-- The word of value `n`, or the largest word when `n` does not fit. -/
def clampWord (n : Nat) : UInt32 := UInt32.ofNat (min n maxWord)

def checkedAdd (a b : UInt32) : Except Fault UInt32 :=
  if a.toNat + b.toNat ≤ maxWord then .ok (a + b) else .error .sumOverflow

def checkedSub (a b : UInt32) : Except Fault UInt32 :=
  if b ≤ a then .ok (a - b) else .error .differenceOverflow

theorem toNat_clampWord (n : Nat) : (clampWord n).toNat = min n maxWord := by
  simp only [clampWord, UInt32.toNat_ofNat', maxWord]
  omega

theorem checkedAdd_eq_ok {a b : UInt32} (h : a.toNat + b.toNat ≤ maxWord) :
    checkedAdd a b = .ok (a + b) := if_pos h

theorem checkedSub_eq_ok {a b : UInt32} (h : b ≤ a) : checkedSub a b = .ok (a - b) := if_pos h

end SourceDiagnostics
