/-
# Refusals: why an operation was turned down

Every operation that can fail does so for one of thirteen causes.  A cause has a status number,
which is what a caller outside the kernel sees, and a short upper-case name.  The text of a refusal
is made of the two and of nothing else, so no operation words its own errors.
-/

namespace KernelObjects

/-- Why an operation was turned down. -/
inductive Refusal where
  /-- No slot or no memory is left. -/
  | noMemory
  /-- Malformed option bits, enumeration values or arguments. -/
  | invalidArgs
  /-- An index, size or depth lies outside the permitted range. -/
  | outOfRange
  /-- The object is in the wrong state for the operation. -/
  | badState
  /-- An entry is already present with a conflicting value. -/
  | alreadyExists
  /-- A place that holds one thing, such as a port slot, is taken. -/
  | alreadyBound
  /-- The handle lacks a required right. -/
  | accessDenied
  /-- The value names no live handle of the caller. -/
  | badHandle
  /-- The object is not of the requested type. -/
  | wrongType
  /-- A lookup found nothing. -/
  | notFound
  /-- The object does not offer the operation. -/
  | notSupported
  /-- A device reported a failed transfer. -/
  | transferFailed
  /-- A device reported damaged data. -/
  | dataDamaged
  deriving DecidableEq, Repr

namespace Refusal

/-- All causes, in the order in which they are numbered from zero. -/
def all : List Refusal :=
  [noMemory, invalidArgs, outOfRange, badState, alreadyExists, alreadyBound, accessDenied,
    badHandle, wrongType, notFound, notSupported, transferFailed, dataDamaged]

/-- The status number seen outside the kernel. -/
def status : Refusal → Int
  | noMemory => -4
  | invalidArgs => -10
  | outOfRange => -14
  | badState => -20
  | alreadyExists => -26
  | alreadyBound => -27
  | accessDenied => -30
  | badHandle => -11
  | wrongType => -12
  | notFound => -25
  | notSupported => -2
  | transferFailed => -40
  | dataDamaged => -42

/-- The short name of the status number. -/
def name : Refusal → String
  | noMemory => "NO_MEMORY"
  | invalidArgs => "INVALID_ARGS"
  | outOfRange => "OUT_OF_RANGE"
  | badState => "BAD_STATE"
  | alreadyExists => "ALREADY_EXISTS"
  | alreadyBound => "ALREADY_BOUND"
  | accessDenied => "ACCESS_DENIED"
  | badHandle => "BAD_HANDLE"
  | wrongType => "WRONG_TYPE"
  | notFound => "NOT_FOUND"
  | notSupported => "NOT_SUPPORTED"
  | transferFailed => "IO"
  | dataDamaged => "IO_DATA_INTEGRITY"

/-- The whole text of a refusal: the name, then the status number in parentheses. -/
def message (e : Refusal) : String := s!"{e.name} ({e.status})"

end Refusal

/-- What an operation that can be refused gives back. -/
abbrev Outcome (α : Type) := Except Refusal α

end KernelObjects
