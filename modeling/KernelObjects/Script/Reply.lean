import KernelObjects.System.Info

/-
# What a command of a script answers

Each command has one kind of answer, given here as a value.  How an answer is written down is left
to whoever shows it.
-/

namespace KernelObjects.Script

/-- The answer of a command. -/
inductive Reply where
  /-- Done, with nothing to tell. -/
  | done
  /-- The command names something that is not there or is of the wrong kind. -/
  | noRef (name : String)
  /-- The command could not be read because of one of its fields. -/
  | unreadable (field : String)
  | refused (cause : Refusal)
  | flag (b : Bool)
  | number (n : Nat)
  /-- A number, if there is one. -/
  | perhaps (n : Option Nat)
  | text (s : String)
  /-- An object was created; the rights are those of its kernel handle. -/
  | created (koid : Koid) (rights : Rights)
  | job (info : JobInfo)
  | process (info : ProcessInfo)
  | object (info : ObjectInfo)
  | handle (info : HandleInfo)
  | arena (info : ArenaInfo)
  | vmo (info : VmoInfo)
  | view (info : ViewInfo)
  | mapping (m : Mapping)
  | port (p : Port)
  | policy (p : Policy)
  | policyEntry (e : PolicyEntry)
  /-- The process and the number of handles of a table. -/
  | table (process count : Nat)
  /-- A handle that a table found. -/
  | found (koid : Koid) (rights : Rights) (process : Nat)
  /-- A handle that left a table. -/
  | removed (base process : Nat)
  /-- What a kernel handle holds. -/
  | kernel (held : Option Koid)
  | space (a : AddressSpace)
  /-- The jobs that a scan came by, and how it ended. -/
  | scanned (seen : List Koid) (ended : Outcome Unit)
  | objectType (t : ObjectType)
  | condition (c : Condition)
  | action (a : Action)
  | status (e : Refusal)
  /-- The masks of rights and the signals that have a meaning. -/
  | constants
  /-- The page boundaries around an offset. -/
  | page (floor : Nat) (ceil : Option Nat)
  | config (c : Config)
  | counter (c : Counter)
  | counters (c : Counters)

/-- The answer of a command that can be refused. -/
def Reply.ofOutcome {α : Type} (f : α → Reply) : Outcome α → Reply
  | .ok a => f a
  | .error e => .refused e

/-- The answer of a command that can be refused and has nothing to tell. -/
def Reply.ofUnit : Outcome Unit → Reply := Reply.ofOutcome fun _ => .done

end KernelObjects.Script
