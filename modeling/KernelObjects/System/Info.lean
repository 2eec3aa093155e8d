import KernelObjects.System.Tasks
import KernelObjects.System.Views

/-
# Descriptions

What the kernel tells about an object, a handle or an arena at one moment.
-/

namespace KernelObjects

/-- What a job tells of itself. -/
structure JobInfo where
  koid : Koid
  name : Name
  state : JobState
  maxHeight : Nat
  parent : Option Koid
  relatedKoid : Koid
  jobCount : Nat
  processCount : Nat
  signals : Signals
  returnCode : Int
  exited : Bool
  killOnOom : Bool
  debuggerAttached : Bool
  /-- The key of the bound port. -/
  port : Option Nat
  /-- The key of the bound debugger port. -/
  debuggerPort : Option Nat

/-- What a process tells of itself. -/
structure ProcessInfo where
  koid : Koid
  name : Name
  state : ProcessState
  returnCode : Int
  job : Koid
  relatedKoid : Koid
  signals : Signals
  handleCount : Nat
  /-- The keys of the ports at which exceptions wait, and the types of these. -/
  pending : List (Nat × Nat)

/-- What any object tells of itself. -/
structure ObjectInfo where
  koid : Koid
  relatedKoid : Koid
  type : ObjectType
  defaultRights : Rights
  handleCount : Nat
  signals : Signals

/-- What a handle tells of itself. -/
structure HandleInfo where
  base : Nat
  rights : Rights
  process : Nat
  koid : Koid
  text : String

/-- How full an arena is, and how full it has been. -/
structure ArenaInfo where
  capacity : Nat
  outstanding : Nat
  highWater : Nat
  slotsTouched : Nat

/-- What a VM object tells of itself. -/
structure VmoInfo where
  id : VmoId
  userId : Koid
  parentUserId : Koid
  parent : Option VmoId
  size : Nat
  name : Name
  clones : Nat
  mappings : Nat
  shareCount : Nat
  userMapped : Bool
  pages : Nat
  cachePolicy : CachePolicy
  options : BitVec 32
  resizable : Bool
  isClone : Bool

/-- What a view tells to the holder of a handle, whose rights it repeats. -/
structure ViewInfo where
  koid : Koid
  name : Name
  size : Nat
  options : BitVec 32
  parentKoid : Koid
  clones : Nat
  mappings : Nat
  shareCount : Nat
  committedBytes : Nat
  cachePolicy : CachePolicy
  isClone : Bool
  rights : Rights

namespace System

/-- The key of a port. -/
def portKey (s : System) (p : PortId) : Nat := (s.ports[p]?.map Port.key).getD 0

/-- Asks a job. -/
def jobInfo (s : System) (k : Koid) : Option JobInfo :=
  s.jobs[k]?.map fun j => {
    koid := k
    name := j.name
    state := j.state
    maxHeight := j.maxHeight
    parent := j.parent
    relatedKoid := s.relatedKoid k
    jobCount := j.jobs.length
    processCount := j.processes.length
    signals := s.signals k
    returnCode := j.returnCode
    exited := j.state = .dead
    killOnOom := j.killOnOom
    debuggerAttached := j.debuggerPort.isSome
    port := j.port.map s.portKey
    debuggerPort := j.debuggerPort.map s.portKey }

/-- Asks a process. -/
def processInfo (s : System) (k : Koid) : Option ProcessInfo :=
  s.processes[k]?.map fun p => {
    koid := k
    name := p.name
    state := p.state
    returnCode := p.returnCode
    job := p.job
    relatedKoid := s.relatedKoid k
    signals := s.signals k
    handleCount := s.tableCount p.table
    pending := p.pending.map fun r => (s.portKey r.port, r.type) }

/-- Asks an object of any type. -/
def objectInfo (s : System) (k : Koid) : ObjectInfo where
  koid := k
  relatedKoid := s.relatedKoid k
  type := s.typeOf k
  defaultRights := s.defaultRights k
  handleCount := s.handleCount k
  signals := s.signals k

/-- Describes a handle, to its owner or to somebody who shares it. -/
def handleInfo (s : System) (h : HandleId) (owned : Bool) : Option HandleInfo :=
  s.handles[h]?.map fun r => {
    base := r.base
    rights := r.rights
    process := r.process
    koid := r.object
    text := if owned then r.ownerText (s.typeOf r.object) else r.text (s.typeOf r.object) }

/-- Asks an arena. -/
def arenaInfo (s : System) (a : ArenaId) : Option ArenaInfo :=
  s.arenas[a]?.map fun r => {
    capacity := r.capacity
    outstanding := r.outstanding
    highWater := r.highWater
    slotsTouched := r.slots.size }

/-- The number of handles of the arena that everybody shares. -/
def sharedHandles (s : System) : Nat := (s.arenas[sharedArena]?.map Arena.outstanding).getD 0

/-- Asks a VM object. -/
def vmoInfo (s : System) (v : VmoId) : Option VmoInfo :=
  s.vmos[v]?.map fun o => {
    id := v
    userId := s.userId v
    parentUserId := s.parentUserId v
    parent := o.parent
    size := s.vmoSize v
    name := o.name
    clones := s.cloneCount v
    mappings := (s.liveMappings v).length
    shareCount := s.shareCount v
    userMapped := s.isMappedByUser v
    pages := s.committedPages v
    cachePolicy := s.cachePolicy v
    options := o.options
    resizable := o.isResizable
    isClone := o.isClone }

/-- Asks the VM object of a view, for a handle with some rights. -/
def viewInfo (s : System) (v : VmoId) (rights : Rights) : Option ViewInfo :=
  s.vmos[v]?.map fun o => {
    koid := s.userId v
    name := o.name
    size := s.vmoSize v
    options := o.options
    parentKoid := s.parentUserId v
    clones := s.cloneCount v
    mappings := (s.liveMappings v).length
    shareCount := s.shareCount v
    committedBytes := s.committedPages v * Page.size
    cachePolicy := s.cachePolicy v
    isClone := o.isClone
    rights }

end System

end KernelObjects
