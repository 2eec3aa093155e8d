import KernelObjects.System.State

/-
# The job tree: children and the registry

A job lists its children; a child refers to its parent and takes itself off the list when it goes.
The lists drive everything else: the two "no children" signals follow them, a job that is being
killed dies when both are empty, and a root job asks for a halt the first time both are empty after
a child has left.

The registry holds all jobs in one list.  A new job is put right after the youngest of its older
siblings, or after its parent if it has none, so a job always comes after its parent.
-/

namespace KernelObjects.System

/-! ## 1. The registry -/

/-- A list with an entry put right after another one, or at the end if that one is not listed. -/
def insertAfter (neighbor x : Koid) : List Koid → List Koid
  | [] => [x]
  | y :: ys => if y = neighbor then y :: x :: ys else y :: insertAfter neighbor x ys

/-- Enters a job into the registry. -/
def register (s : System) (k : Koid) (parent : Option Koid) : System :=
  match parent with
  | none => { s with registry := s.registry ++ [k] }
  | some p =>
    let siblings := (s.jobs[p]?.map Job.jobs).getD []
    { s with registry := insertAfter (siblings.getLastD p) k s.registry }

/-- Takes a job off the registry. -/
def unregister (s : System) (k : Koid) : System :=
  { s with registry := s.registry.filter (· ≠ k) }

/-- The jobs that are alive, in the order of the registry. -/
def liveJobs (s : System) : List Koid := s.registry.filter fun k => s.jobs.contains k

/-! ## 2. Death of a job and halt of the system -/

/-- Tells a port that its target gave it up. -/
def unbindPort (s : System) (p : PortId) : System :=
  { s with ports := s.ports.modify p Port.told }

/-- Tells the port in a slot, if there is one. -/
def unbindSlot (s : System) (slot : Option PortId) : System :=
  match slot with
  | none => s
  | some p => s.unbindPort p

/-- A job whose last child is gone dies: its ports are given up and it counts as terminated. -/
def markDead (s : System) (k : Koid) : System :=
  match s.jobs[k]? with
  | none => s
  | some j =>
    let s := s.modifyJob k fun j => { j with state := .dead, port := none, debuggerPort := none }
    let s := (s.unbindSlot j.port).unbindSlot j.debuggerPort
    (s.signal k .empty .taskTerminated).log (.jobDied k)

/-- Calls the halt handler of a root job, if it has one. -/
def halt (s : System) (k : Koid) : System :=
  match s.jobs[k]? with
  | none => s
  | some j => if j.hasHaltHandler then s.log (.halted k s.liveJobs) else s

/-! ## 3. Children come and go -/

/-- The "no children" signals to clear after a child was listed. -/
def arrivalSignals (j : Job) : Signals :=
  (if j.processes.length = 1 then Signals.noProcesses else .empty) ∪
    (if j.jobs.length = 1 then Signals.noJobs else .empty)

/-- The "no children" signals to set after a child was taken off. -/
def departureSignals (j : Job) : Signals :=
  (if j.processes.isEmpty then Signals.noProcesses else .empty) ∪
    (if j.jobs.isEmpty then Signals.noJobs else .empty)

/-- Lists a child with `add`, if the job is ready; says whether it was. -/
def attach (s : System) (k : Koid) (add : Job → Job) : Bool × System :=
  match s.jobs[k]? with
  | none => (false, s)
  | some j =>
    if j.state = .ready then
      (true, (s.modifyJob k add).signal k (arrivalSignals (add j)) .empty)
    else (false, s)

/-- Lists a process as a child. -/
def attachProcess (s : System) (k : Koid) (process : Koid) : Bool × System :=
  s.attach k fun j => { j with processes := j.processes ++ [process] }

/-- Lists a job as a child. -/
def attachJob (s : System) (k : Koid) (job : Koid) : Bool × System :=
  s.attach k fun j => { j with jobs := j.jobs ++ [job] }

/-- Books that a child has left a job, which may have been its last one. -/
def childLeft (s : System) (k : Koid) : System :=
  match s.jobs[k]? with
  | none => s
  | some j =>
    let vacant := j.processes.isEmpty && j.jobs.isEmpty
    let halts := vacant && j.parent.isNone && !j.halted
    let s := if vacant && j.state = .killing then s.markDead k else s
    let s := if halts then s.modifyJob k fun j => { j with halted := true } else s
    let s := s.signal k .empty (departureSignals j)
    if halts then s.halt k else s

/-- Takes a process off a job's list; nothing happens if it is not listed. -/
def detachProcess (s : System) (k : Koid) (process : Koid) : System :=
  match s.jobs[k]? with
  | none => s
  | some j =>
    if process ∈ j.processes then
      (s.modifyJob k fun j => { j with processes := j.processes.erase process }).childLeft k
    else s

/-- Takes a job off a job's list; nothing happens if it is not listed. -/
def detachJob (s : System) (k : Koid) (job : Koid) : System :=
  match s.jobs[k]? with
  | none => s
  | some j =>
    if job ∈ j.jobs then
      (s.modifyJob k fun j => { j with jobs := j.jobs.erase job }).childLeft k
    else s

/-! ## 4. What stays as it is -/

section Frame

variable (s : System) (k c : Koid)

@[simp] theorem refs_unbindSlot (p : Option PortId) : (s.unbindSlot p).refs = s.refs := by
  cases p <;> rfl

@[simp] theorem tables_unbindSlot (p : Option PortId) : (s.unbindSlot p).tables = s.tables := by
  cases p <;> rfl

@[simp] theorem refs_markDead : (s.markDead k).refs = s.refs := by
  unfold markDead; split <;> simp [modifyJob, signal, log]

@[simp] theorem tables_markDead : (s.markDead k).tables = s.tables := by
  unfold markDead; split <;> simp [modifyJob, signal, log]

@[simp] theorem refs_halt : (s.halt k).refs = s.refs := by
  unfold halt; split <;> (try split) <;> simp [log]

@[simp] theorem tables_halt : (s.halt k).tables = s.tables := by
  unfold halt; split <;> (try split) <;> simp [log]

@[simp] theorem refs_childLeft : (s.childLeft k).refs = s.refs := by
  unfold childLeft
  split
  · rfl
  · dsimp only; repeat' split
    all_goals simp [modifyJob, signal]

@[simp] theorem tables_childLeft : (s.childLeft k).tables = s.tables := by
  unfold childLeft
  split
  · rfl
  · dsimp only; repeat' split
    all_goals simp [modifyJob, signal]

@[simp] theorem refs_detachProcess : (s.detachProcess k c).refs = s.refs := by
  unfold detachProcess; split <;> (try split) <;> simp [modifyJob]

@[simp] theorem tables_detachProcess : (s.detachProcess k c).tables = s.tables := by
  unfold detachProcess; split <;> (try split) <;> simp [modifyJob]

@[simp] theorem refs_detachJob : (s.detachJob k c).refs = s.refs := by
  unfold detachJob; split <;> (try split) <;> simp [modifyJob]

@[simp] theorem tables_detachJob : (s.detachJob k c).tables = s.tables := by
  unfold detachJob; split <;> (try split) <;> simp [modifyJob]

end Frame

end KernelObjects.System
