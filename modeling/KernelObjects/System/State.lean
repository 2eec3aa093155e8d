import KernelObjects.Counters
import KernelObjects.Total
import KernelObjects.Signals
import KernelObjects.Policy
import KernelObjects.Handle.Table
import KernelObjects.Memory.Member
import KernelObjects.Memory.Mapping

/-
# The state of the kernel's object layer

One value holds everything: a store for each kind of record, the table of reference counts, the
registry of jobs, the counters and the numbers handed out next.  A record stands in its store as
long as something refers to it; what is being destroyed has already left its store, so nobody can
find it again.

What happened is written into a trace: hooks that ran, objects that went, tasks that changed state.
The trace decides nothing; it is there to be read.

**Numbers.**  Sizes, offsets, counters and the values of handles are those of machine words, with
what happens at the end of a word written out.  Koids, the ids of VM objects and address spaces, and
the numbers of handles to an object and of clones of one have a word too, 64 bits for the former and
32 for the latter; they go up by one at a time and are taken to stay below its end, so they are
natural numbers here.
-/

namespace KernelObjects

/-! ## 1. Records -/

/-- What every object has, whatever its type. -/
structure Object where
  /-- The number of handles to the object. -/
  handles : Nat := 0
  signals : Signals
  deriving DecidableEq, Repr

/-- The identity of an exception port. -/
abbrev PortId := Nat

/-- What an exception port can be bound to. -/
inductive PortKind where
  | job | debugger | process
  deriving DecidableEq, Repr

/-- A port to which exceptions are reported. -/
structure Port where
  kind : PortKind
  key : Nat
  /-- How often a target gave up its binding, counted in 32 bits. -/
  unbinds : Nat := 0
  deriving DecidableEq, Repr

/-- Counts one more target that gave up its binding. -/
def Port.told (q : Port) : Port := { q with unbinds := (q.unbinds + 1) % UInt32.size }

/-- A job accepts children while it is ready; a killed job is dead once its last child is gone. -/
inductive JobState where
  | ready | killing | dead
  deriving DecidableEq, Repr

/-- A container of processes and of further jobs. -/
structure Job where
  parent : Option Koid
  /-- How many generations of jobs may be created below this one. -/
  maxHeight : Nat
  name : Name
  /-- Whether somebody is told when the job, as a root, runs out of children. -/
  hasHaltHandler : Bool := false
  state : JobState := .ready
  returnCode : Int := 0
  killOnOom : Bool := false
  /-- Whether the system was already halted because of this job. -/
  halted : Bool := false
  /-- The child jobs, oldest first. -/
  jobs : List Koid := []
  /-- The child processes, oldest first. -/
  processes : List Koid := []
  policy : Policy
  port : Option PortId := none
  debuggerPort : Option PortId := none

/-- A process runs until it is killed. -/
inductive ProcessState where
  | running | dead
  deriving DecidableEq, Repr

/-- An exception that waits to be handled at a port. -/
structure Report where
  port : PortId
  type : Nat
  deriving DecidableEq, Repr

/-- A process, as far as jobs and handles need it. -/
structure Process where
  job : Koid
  name : Name
  /-- The job's policy when the process was created. -/
  policy : Policy
  table : TableId
  state : ProcessState := .running
  returnCode : Int := 0
  /-- The exceptions that wait, oldest first. -/
  pending : List Report := []

/-- The object through which handles reach a VM object. -/
structure View where
  vmo : VmoId
  deriving DecidableEq, Repr

/-- An object of somebody else, known by a label. -/
structure Witness where
  label : String
  deriving DecidableEq, Repr

/-! ## 2. The trace -/

/-- Something that happened. -/
inductive Event where
  /-- The handler of a root job was called while the given jobs were alive. -/
  | halted (root : Koid) (jobs : List Koid)
  /-- An object was told that its last handle or its kernel handle is gone. -/
  | zeroHandles (koid : Koid) (label : Option String)
  /-- An object was destroyed. -/
  | destroyed (koid : Koid) (label : Option String)
  /-- A watcher was told of the first clone of a VM object. -/
  | firstClone (vmo : VmoId) (watcher : Watcher) (label : Option String)
  /-- A watcher was told that the last clone of a VM object is gone. -/
  | lastClone (vmo : VmoId) (watcher : Watcher) (label : Option String)
  /-- A VM object was destroyed. -/
  | vmoDestroyed (vmo : VmoId)
  /-- A handle was deleted from its arena. -/
  | handleClosed (base : Nat)
  /-- A job left its ready state. -/
  | jobKilled (koid : Koid) (code : Int)
  /-- A job died. -/
  | jobDied (koid : Koid)
  /-- A process was killed. -/
  | processKilled (koid : Koid) (code : Int)
  deriving DecidableEq, Repr

/-! ## 3. The whole state -/

/-- The state of the object layer. -/
structure System where
  /-- The limits, once somebody has read or installed them. -/
  config : Option Config := none
  counters : Counters := {}
  nextKoid : Koid := 1024
  nextVmo : VmoId := 1
  nextSpace : Nat := 1
  /-- The next identity of a handle, arena, table, port, mapping or listener. -/
  nextId : Nat := 1
  refs : RefCounts := ∅
  objects : Store Object := ∅
  jobs : Store Job := ∅
  processes : Store Process := ∅
  views : Store View := ∅
  witnesses : Store Witness := ∅
  /-- All jobs, every one after its parent and its older siblings. -/
  registry : List Koid := []
  handles : Store Handle := ∅
  arenas : Store Arena := ∅
  tables : Store Table := ∅
  ports : Store Port := ∅
  vmos : Store Vmo := ∅
  /-- The list of all VM objects, which keeps none of them alive. -/
  vmoList : Store Unit := ∅
  families : Store Family := ∅
  mappings : Store Mapping := ∅
  listeners : Store String := ∅
  /-- What happened, latest first. -/
  trace : List Event := []

namespace System

/-- The state before anything happened. -/
def initial : System := {}

/-- Writes an event into the trace. -/
def log (s : System) (e : Event) : System := { s with trace := e :: s.trace }

/-- Counts an event. -/
def bump (s : System) (m : Meter) : System := { s with counters := s.counters.bump m }

/-! ## 4. Identities -/

/-- A koid that was never used. -/
def freshKoid (s : System) : Koid × System := (s.nextKoid, { s with nextKoid := s.nextKoid + 1 })

/-- An identity that was never used. -/
def freshId (s : System) : Nat × System := (s.nextId, { s with nextId := s.nextId + 1 })

/-! ## 5. References and objects -/

/-- The number of references to a thing. -/
def refCount (s : System) (r : Ref) : Nat := s.refs.count r

/-- Takes one more reference. -/
def retain (s : System) (r : Ref) : System := { s with refs := s.refs.retain r }

/-- Takes one more reference to each of several things. -/
def retainAll (s : System) (rs : List Ref) : System := rs.foldl retain s

/-- The signals of an object. -/
def signals (s : System) (k : Koid) : Signals := (s.objects[k]?.map Object.signals).getD .empty

/-- The number of handles to an object. -/
def handleCount (s : System) (k : Koid) : Nat := (s.objects[k]?.map Object.handles).getD 0

/-- Clears and sets signals of an object. -/
def signal (s : System) (k : Koid) (clear set : Signals) : System :=
  { s with objects := s.objects.modify k fun o => { o with signals := o.signals.update clear set } }

/-- The type of an object. -/
def typeOf (s : System) (k : Koid) : ObjectType :=
  if s.jobs.contains k then .job
  else if s.processes.contains k then .process
  else if s.views.contains k then .vmo
  else if s.witnesses.contains k then .event
  else .unknown

/-- The koid of the object that an object belongs to: the parent job of a task, zero for others. -/
def relatedKoid (s : System) (k : Koid) : Koid :=
  match s.jobs[k]?, s.processes[k]? with
  | some j, _ => j.parent.getD 0
  | none, some p => p.job
  | none, none => 0

/-- The rights of a fresh handle to an object. -/
def defaultRights (s : System) (k : Koid) : Rights :=
  match s.typeOf k with
  | .job => .defaultJob
  | .process => .defaultProcess
  | .vmo => .defaultView
  | _ => .basic

/-- The label of a witness. -/
def labelOf (s : System) (k : Koid) : Option String := s.witnesses[k]?.map Witness.label

/-- Changes the record of a job. -/
def modifyJob (s : System) (k : Koid) (f : Job → Job) : System :=
  { s with jobs := s.jobs.modify k f }

/-- Changes the record of a process. -/
def modifyProcess (s : System) (k : Koid) (f : Process → Process) : System :=
  { s with processes := s.processes.modify k f }

/-! ## 6. Configuration and the system-wide arena -/

/-- The limits; reading them settles them. -/
def settledConfig (s : System) : Config × System :=
  match s.config with
  | some c => (c, s)
  | none => ({}, { s with config := some {} })

/-- Installs limits, unless they are settled. -/
def installConfig (s : System) (c : Config) : Outcome Unit × System :=
  match c.validate, s.config with
  | .error e, _ => (.error e, s)
  | .ok _, some _ => (.error .badState, s)
  | .ok _, none => (.ok (), { s with config := some c })

/-- The identity of the arena that everybody shares. -/
def sharedArena : ArenaId := 0

/-- Sets up the shared arena on its first use, which settles the limits. -/
def openSharedArena (s : System) : System :=
  if s.arenas.contains sharedArena then s
  else
    let (c, s) := s.settledConfig
    { s with arenas := s.arenas.insert sharedArena (Arena.ofCapacity c.arenaCapacity) }

end System

end KernelObjects
