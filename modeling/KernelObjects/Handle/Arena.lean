import KernelObjects.Reference
import KernelObjects.Handle.Value

/-
# Arenas: where handles get their values

An arena has a fixed number of slots.  It opens a new slot only when no freed one is left, and it
takes the slot freed last first.  A slot remembers its generation when it is empty, so a value that
was given back is recognised as stale until the generations have gone round once.
-/

namespace KernelObjects

/-- The identity of an arena. -/
abbrev ArenaId := Nat

/-- A place for a handle. -/
structure Slot where
  generation : Nat
  handle : Option HandleId
  deriving DecidableEq, Repr

/-- A bounded supply of handle values. -/
structure Arena where
  capacity : Nat
  /-- The slots opened so far. -/
  slots : Array Slot := #[]
  /-- The indexes of the empty slots, the one freed last in front. -/
  free : List Nat := []
  /-- The number of handles. -/
  outstanding : Nat := 0
  /-- The largest number of handles that there ever were. -/
  highWater : Nat := 0
  deriving DecidableEq, Repr

namespace Arena

/-- An empty arena; it has at least one slot and at most as many as a value can tell apart. -/
def ofCapacity (capacity : Nat) : Arena := { capacity := max 1 (min capacity indexCount) }

/-- Whether every slot is taken. -/
def isFull (a : Arena) : Bool := a.free.isEmpty && a.capacity ≤ a.slots.size

/-- The generation of a slot. -/
def generation (a : Arena) (index : Nat) : Nat := (a.slots[index]?.map Slot.generation).getD 1

/-- Counts one more handle. -/
def countIn (a : Arena) : Arena :=
  { a with outstanding := a.outstanding + 1, highWater := max a.highWater (a.outstanding + 1) }

/-- Puts a handle into the slot freed last, or else into a new one.  Gives its value too. -/
def insert (a : Arena) (h : HandleId) : Nat × Arena :=
  match a.free with
  | i :: rest =>
    (HandleValue.encode (a.generation i) i,
      { a with
        slots := a.slots.modify i fun s => { s with handle := some h }
        free := rest }.countIn)
  | [] =>
    (HandleValue.encode 1 a.slots.size, { a with slots := a.slots.push ⟨1, some h⟩ }.countIn)

/-- Empties the slot that a value points to and moves its generation on. -/
def erase (a : Arena) (value : Nat) : Arena :=
  let i := HandleValue.index value
  { a with
    slots := a.slots.modify i fun s => ⟨HandleValue.nextGeneration s.generation, none⟩
    free := i :: a.free
    outstanding := a.outstanding - 1 }

/-- The handle of a value, if the value is not stale. -/
def find? (a : Arena) (value : Nat) : Option HandleId :=
  if a.capacity ≤ HandleValue.index value then none
  else match a.slots[HandleValue.index value]? with
    | none => none
    | some s => if s.generation = HandleValue.generation value then s.handle else none

end Arena

end KernelObjects
