import KernelObjects.Script.Reply

/-
# Sessions: a system and the names by which a script holds things

A script names what it gets.  A name holds one thing: a reference, the ownership of a handle, a
kernel handle, a table, or a plain value.  Putting something under a name that is in use drops what
was there, after the new thing is in place.

A command holds the objects that its arguments name until it is done.  So nothing that a command
works on is destroyed under its hands, even if the command drops the name.
-/

namespace KernelObjects.Script

/-! ## 1. Names -/

/-- What a name stands for. -/
inductive Binding where
  /-- A reference to an object. -/
  | object (k : Koid)
  /-- A kernel handle for objects of one type, which may be empty. -/
  | kernel (type : ObjectType) (held : Option Koid)
  /-- A reference to a VM object. -/
  | vmo (v : VmoId)
  /-- The reference that keeps a listener there. -/
  | listener (o : ListenerId)
  /-- The ownership of a handle. -/
  | owner (h : HandleId)
  /-- A shared reference to a handle. -/
  | handle (h : HandleId)
  | port (p : PortId)
  | space (a : AddressSpace)
  /-- A reference to a mapping. -/
  | mapping (m : MappingId)
  | table (t : TableId)
  | arena (a : ArenaId)
  | policy (p : Policy)
  | name (n : Name)
  | counter (c : Counter)
  | value (v : Nat)

/-- Drops what a name stood for.  A kernel handle tells its object before it lets go. -/
def Binding.drop (b : Binding) (s : System) : System :=
  match b with
  | .object k => s.release (.object k)
  | .kernel _ none => s
  | .kernel _ (some k) => (s.zeroHandles k).release (.object k)
  | .vmo v => s.release (.vmo v)
  | .listener o => s.release (.listener o)
  | .owner h => s.close h
  | .handle h => s.release (.handle h)
  | .mapping m => s.release (.mapping m)
  | .table t => s.settle [.closeTable t]
  | .port _ | .space _ | .arena _ | .policy _ | .name _ | .counter _ | .value _ => s

/-- The names of a script, in the order of their characters. -/
abbrev Names := Std.ExtTreeMap String Binding

/-- A system, the names by which a script holds things in it, and the counters as last told. -/
structure Session where
  system : System := System.initial
  names : Names := ∅
  told : Counters := {}

namespace Session

/-- Changes the system. -/
def act (s : Session) (f : System → System) : Session := { s with system := f s.system }

/-- Puts something under a name and then drops what was there. -/
def put (s : Session) (name : String) (b : Binding) : Session :=
  let s' := { s with names := s.names.insert name b }
  match s.names[name]? with
  | none => s'
  | some old => s'.act old.drop

/-- Puts something under a name, or drops it if there is no name for it. -/
def keep (s : Session) (name : Option String) (b : Binding) : Session :=
  match name with
  | none => s.act b.drop
  | some n => s.put n b

/-- Takes a name away without dropping what it stands for. -/
def forget (s : Session) (name : String) : Session := { s with names := s.names.erase name }

/-- Changes what a name stands for, without dropping anything. -/
def rebind (s : Session) (name : String) (b : Binding) : Session :=
  { s with names := s.names.insert name b }

/-! ## 2. Arguments -/

/-- An argument that was looked up, or the name that stands for nothing suitable. -/
abbrev Found (α : Type) := Except String α

/-- Looks up a name and asks whether what it stands for is suitable. -/
def find {α : Type} (s : Session) (name : String) (suits : Binding → Option α) : Found α :=
  match s.names[name]?.bind suits with
  | none => .error name
  | some a => .ok a

/-- The object of a reference or of a kernel handle, if it satisfies a test. -/
def referred (test : Koid → Bool) : Binding → Option Koid
  | .object k => if test k then some k else none
  | .kernel _ (some k) => if test k then some k else none
  | _ => none

/-- The job that a name refers to. -/
def job (s : Session) (name : String) : Found Koid :=
  s.find name (referred fun k => s.system.jobs.contains k)

/-- The process that a name refers to. -/
def process (s : Session) (name : String) : Found Koid :=
  s.find name (referred fun k => s.system.processes.contains k)

/-- The view that a name refers to. -/
def view (s : Session) (name : String) : Found Koid :=
  s.find name (referred fun k => s.system.views.contains k)

/-- A job or a process. -/
def task (s : Session) (name : String) : Found Koid :=
  s.find name (referred fun k => s.system.jobs.contains k || s.system.processes.contains k)

/-- An object of any type, by a reference; a kernel handle will not do. -/
def reference (s : Session) (name : String) : Found Koid :=
  s.find name fun
    | .object k => some k
    | _ => none

/-- An object of any type, also by way of a handle to it. -/
def object (s : Session) (name : String) : Found Koid :=
  s.find name fun
    | .owner h | .handle h => s.system.handles[h]?.map Handle.object
    | b => referred (fun _ => true) b

/-- A VM object, also by way of its view. -/
def vmo (s : Session) (name : String) : Found VmoId :=
  s.find name fun
    | .vmo v => some v
    | b => (referred (fun _ => true) b).bind fun k => s.system.views[k]?.map View.vmo

/-- A handle, owned or shared. -/
def handle (s : Session) (name : String) : Found HandleId :=
  s.find name fun
    | .owner h | .handle h => some h
    | _ => none

/-- A handle that the name owns. -/
def owner (s : Session) (name : String) : Found HandleId :=
  s.find name fun
    | .owner h => some h
    | _ => none

/-- The kernel handle that a name stands for, with the type that it was made for. -/
def kernel (s : Session) (name : String) : Found (ObjectType × Option Koid) :=
  s.find name fun
    | .kernel t k => some (t, k)
    | _ => none

/-- The port that a name stands for. -/
def port (s : Session) (name : String) : Found PortId :=
  s.find name fun
    | .port p => some p
    | _ => none

/-- The address space that a name stands for. -/
def space (s : Session) (name : String) : Found AddressSpace :=
  s.find name fun
    | .space a => some a
    | _ => none

/-- The mapping that a name stands for. -/
def mapping (s : Session) (name : String) : Found MappingId :=
  s.find name fun
    | .mapping m => some m
    | _ => none

/-- The counter of its own that a name stands for. -/
def counter (s : Session) (name : String) : Found Counter :=
  s.find name fun
    | .counter c => some c
    | _ => none

/-- A table, and the reference that has to be held while it is used. -/
def table (s : Session) (name : String) : Found (TableId × List Ref) :=
  s.find name fun
    | .table t => some (t, [])
    | b => (referred (fun _ => true) b).bind fun k =>
      s.system.processes[k]?.map fun p => (p.table, [.object k])

/-- An arena; without a name, the one that everybody shares. -/
def arena (s : Session) (name : Option String) : Found ArenaId :=
  match name with
  | none => .ok System.sharedArena
  | some n => s.find n fun
    | .arena a => some a
    | _ => none

/-- A number, or a name for something that has one. -/
inductive Numeral where
  | number (n : Nat)
  | ref (name : String)

/-- A koid, given as a number or by an object. -/
def koid (s : Session) : Numeral → Found Koid
  | .number n => .ok n
  | .ref name => s.object name

/-- A handle value, given as a number, by a value or by a handle. -/
def value (s : Session) : Numeral → Found Nat
  | .number n => .ok n
  | .ref name => s.find name fun
    | .value v => some v
    | .owner h | .handle h => s.system.handles[h]?.map Handle.base
    | _ => none

/-! ## 3. Running a command on its arguments -/

/-- Goes on with an argument, or answers that the name stands for nothing suitable. -/
def given {α : Type} (s : Session) (a : Found α) (f : α → Session × Reply) : Session × Reply :=
  match a with
  | .error name => (s, .noRef name)
  | .ok a => f a

/-- Holds references while a command runs. -/
def holding (s : Session) (rs : List Ref) (f : Session → Session × Reply) : Session × Reply :=
  let (s, r) := f (s.act fun t => t.retainAll rs)
  (s.act fun t => t.releaseAll rs.reverse, r)

/-- Runs an operation of the system whose outcome is all there is to tell. -/
def attempt {α : Type} (s : Session) (f : System → Outcome α × System) (reply : α → Reply) :
    Session × Reply :=
  let (r, t) := f s.system
  ({ s with system := t }, Reply.ofOutcome reply r)

/-- Runs an operation of the system whose result is put under a name. -/
def attemptKeeping {α : Type} (s : Session) (f : System → Outcome α × System)
    (name : Option String) (bind : α → Binding) (reply : System → α → Reply) : Session × Reply :=
  match f s.system with
  | (.error e, t) => ({ s with system := t }, .refused e)
  | (.ok a, t) => (({ s with system := t } : Session).keep name (bind a), reply t a)

/-- Stores a new object, whose one reference is its kernel handle's: the kernel handle under one
name and a further reference under another.  Without a name for it, the kernel handle is dropped
first. -/
def keepCreated (s : Session) (k : Koid) (kernelName name : Option String) : Session :=
  let s := s.act fun t => t.retain (.object k)
  let s := s.keep kernelName (.kernel (s.system.typeOf k) (some k))
  s.keep name (.object k)

/-- Creates an object that comes with a kernel handle. -/
def create (s : Session) (f : System → Outcome Koid × System) (kernelName name : Option String) :
    Session × Reply :=
  match f s.system with
  | (.error e, t) => ({ s with system := t }, .refused e)
  | (.ok k, t) =>
    (({ s with system := t } : Session).keepCreated k kernelName name,
      .created k (t.defaultRights k))

/-- Opens the shared arena if that is the one to be used. -/
def openArena (s : Session) (a : ArenaId) : Session :=
  if a = System.sharedArena then s.act System.openSharedArena else s

end Session

end KernelObjects.Script
