import KernelObjects.Refusal

/-
# Configuration

Two limits are chosen once: the size of the system-wide handle arena and the height of root jobs.
The first reader settles them, with the defaults if nothing was installed before.
-/

namespace KernelObjects

/-- The number of low bits of a handle value that hold a slot index. -/
def indexBits : Nat := 18

/-- The number of slots that a handle value can tell apart. -/
def indexCount : Nat := 1 <<< indexBits

/-- The limits that are chosen once. -/
structure Config where
  /-- The number of slots of the system-wide arena. -/
  arenaCapacity : Nat := indexCount
  /-- How many generations of jobs fit below a root job. -/
  rootHeight : Nat := 32
  deriving DecidableEq, Repr

namespace Config

/-- Refuses an arena without slots or with more than a handle value can tell apart. -/
def validate (c : Config) : Outcome Unit :=
  if c.arenaCapacity = 0 ∨ indexCount < c.arenaCapacity then .error .invalidArgs else .ok ()

end Config

end KernelObjects
