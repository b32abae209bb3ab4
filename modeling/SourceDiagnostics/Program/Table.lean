import SourceDiagnostics.Text.Quoted

/-!
Tables of a program's entities, addressed by id.

An id is the index of its entry and says of which kind of entity it is, so that the id of a symbol
cannot be looked up among the nodes. Entries are added at the end and never removed: an id that
was given out stays that of the same entry.

A table never runs out of ids here. Where an id has to fit into a word, there is a fault when an
entry is added to a table that has given out all words up to `maxWord`. That fault is left out: what
is said of a table is meant as long as it has no more entries than there are words.
-/

namespace SourceDiagnostics

/-- What a program consists of. -/
inductive Entity where
  | node | symbol | type
  deriving DecidableEq, Repr

/-- The index of an entry in the table of its kind of entity. -/
structure Id (e : Entity) where
  index : Nat
  deriving DecidableEq, Repr, Inhabited, Ord

abbrev NodeId := Id .node
abbrev SymbolId := Id .symbol
abbrev TypeId := Id .type

def Entity.idTitle : Entity → String
  | .node => "NodeId"
  | .symbol => "SymbolId"
  | .type => "TypeId"

def Id.inspect {e : Entity} (id : Id e) : String := Text.applied e.idTitle (toString id.index)

/-- Entries in order of creation. -/
structure Table (e : Entity) (α : Type) where
  entries : Array α := #[]
  deriving Repr, Inhabited

namespace Table

variable {e : Entity} {α : Type}

def size (t : Table e α) : Nat := t.entries.size

def isEmpty (t : Table e α) : Bool := t.entries.isEmpty

def get? (t : Table e α) (id : Id e) : Option α := t.entries[id.index]?

/-- The id that the next entry gets. -/
def nextId (t : Table e α) : Id e := ⟨t.size⟩

/-- Add an entry under `nextId`. There is always room for it. -/
def push (t : Table e α) (a : α) : Table e α := ⟨t.entries.push a⟩

/-- Change one entry. An id that is not in the table changes nothing. -/
def modify (t : Table e α) (id : Id e) (f : α → α) : Table e α := ⟨t.entries.modify id.index f⟩

@[simp] theorem size_push (t : Table e α) (a : α) : (t.push a).size = t.size + 1 := by
  simp [push, size]

@[simp] theorem size_modify (t : Table e α) (id : Id e) (f : α → α) :
    (t.modify id f).size = t.size := by
  simp [modify, size]

theorem get?_push (t : Table e α) (a : α) (id : Id e) :
    (t.push a).get? id = if id = t.nextId then some a else t.get? id := by
  cases id
  simp [push, get?, nextId, size, Array.getElem?_push]

theorem get?_modify (t : Table e α) (id other : Id e) (f : α → α) :
    (t.modify id f).get? other = if other = id then (t.get? id).map f else t.get? other := by
  cases id; cases other
  simp only [modify, get?, Array.getElem?_modify, Id.mk.injEq, eq_comm]
  split <;> simp_all

end Table

end SourceDiagnostics
