/-
# Object types

The type numbers and names under which objects are known outside the kernel.
-/

namespace KernelObjects

/-- The type of a kernel object. -/
inductive ObjectType where
  | unknown | process | thread | vmo | channel | event | port | job
  deriving DecidableEq, Repr

namespace ObjectType

/-- The type number. -/
def raw : ObjectType → Nat
  | unknown => 0
  | process => 1
  | thread => 2
  | vmo => 3
  | channel => 4
  | event => 5
  | port => 6
  | job => 17

/-- The type with a given number; a number of no type stands for `unknown`. -/
def ofRaw : Nat → ObjectType
  | 1 => process
  | 2 => thread
  | 3 => vmo
  | 4 => channel
  | 5 => event
  | 6 => port
  | 17 => job
  | _ => unknown

/-- The lower-case name used in listings. -/
def name : ObjectType → String
  | unknown => "unknown"
  | process => "process"
  | thread => "thread"
  | vmo => "vmo"
  | channel => "channel"
  | event => "event"
  | port => "port"
  | job => "job"

/-- The capitalised name used where a handle is written out. -/
def title : ObjectType → String
  | unknown => "Unknown"
  | process => "Process"
  | thread => "Thread"
  | vmo => "Vmo"
  | channel => "Channel"
  | event => "Event"
  | port => "Port"
  | job => "Job"

end ObjectType

end KernelObjects
