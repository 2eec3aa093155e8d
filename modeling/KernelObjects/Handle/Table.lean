import KernelObjects.ObjectType
import KernelObjects.Rights
import KernelObjects.Handle.Arena

/-
# Handles and tables

A handle binds an object, a set of rights and, once it lies in a table, a process.  A table owns
the handles of one process.  It finds a handle by way of the arena and then checks the process, so
a value of another process's handle is refused like a value of no handle.
-/

namespace KernelObjects

/-- The identity of a table. -/
abbrev TableId := Nat

/-- The process id of a handle that lies in no table. -/
def noProcess : Nat := 0

/-- A handle. -/
structure Handle where
  /-- The value in the arena. -/
  base : Nat
  object : Koid
  rights : Rights
  arena : ArenaId
  process : Nat := noProcess
  deriving DecidableEq, Repr

namespace Handle

/-- Whether a handle grants at least what is required. -/
def hasRights (h : Handle) (required : Rights) : Bool := decide (required ⊆ h.rights)

/-- A handle written out with the type of its object. -/
def text (h : Handle) (type : ObjectType) : String :=
  "Handle \x7b base_value: " ++ Rights.hex h.base ++ ", koid: " ++ toString h.object ++
    ", type: " ++ type.title ++ ", rights: Rights(" ++ h.rights.text ++ "), process_id: " ++
    toString h.process ++ " \x7d"

/-- A handle written out by its owner. -/
def ownerText (h : Handle) (type : ObjectType) : String := "HandleOwner(" ++ h.text type ++ ")"

end Handle

/-- A table of handles. -/
structure Table where
  process : Nat
  arena : ArenaId
  /-- The handles under their values in the arena. -/
  owned : Store HandleId := ∅

namespace Table

/-- The value under which the process of the table sees a value of the arena, and the reverse. -/
def masked (t : Table) (value : Nat) : Nat := HandleValue.masked t.process value

end Table

end KernelObjects
