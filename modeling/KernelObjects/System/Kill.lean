import KernelObjects.System.Snapshot

/-
# Killing processes and jobs

Killing a process closes its handles and takes it off its job.  Killing a job kills everything
below it, child jobs before processes and depth first.  A job commits to dying only after the
snapshot of its children was taken; where that fails the job stays as it is, the rest of the tree is
killed all the same, and the failure is reported at the end.

The walk keeps a stack of *frames*, one for each job entered and not yet left.

**Why this ends.**  Every frame that is pushed belongs to a job that has just stopped being ready,
and a job never becomes ready again.  So no more frames are pushed than there are jobs when the walk
starts; that number is its budget, and between two pushes the stack only shrinks.
-/

namespace KernelObjects

/-- The children of a job that still have to be killed. -/
structure KillFrame where
  jobs : List Koid
  processes : List Koid
  deriving DecidableEq, Repr

/-- What came of the attempt to start killing a job. -/
inductive KillEntry where
  /-- The job was not ready. -/
  | passed
  /-- There was no memory for the snapshot; the job stays ready. -/
  | refused
  /-- The job is being killed, and these are its children. -/
  | entered (frame : KillFrame)
  deriving DecidableEq, Repr

/-- The state of the walk: the system, the memory, and whether some job was left unkilled. -/
structure KillWalk where
  system : System
  supply : Supply
  failed : Bool := false

namespace System

/-! ## 1. Processes -/

/-- Kills a process.  A dead process stays as it is. -/
def killProcess (s : System) (code : Int) (k : Koid) : System :=
  match s.processes[k]? with
  | none => s
  | some p =>
    if p.state = .dead then s
    else
      let s := s.modifyProcess k fun p => { p with state := .dead, returnCode := code }
      let s := (s.signal k .empty .taskTerminated).log (.processKilled k code)
      (s.tableClear p.table).2.detachProcess p.job k

/-- Kills processes that are held, and gives each of them back when it is dead. -/
def killProcesses (code : Int) : List Koid → System → System
  | [], s => s
  | p :: ps, s => killProcesses code ps ((s.killProcess code p).release (.object p))

/-! ## 2. Entering a job -/

/-- Starts to kill a job: takes the snapshot and then commits.  A job without any listed child dies
at once. -/
def enterKill (s : System) (supply : Supply) (code : Int) (k : Koid) :
    KillEntry × Supply × System :=
  match s.jobs[k]? with
  | none => (.passed, supply, s)
  | some j =>
    if j.state ≠ .ready then (.passed, supply, s)
    else match s.snapshot supply k with
      | (none, supply, s) => (.refused, supply, s)
      | (some c, supply, s) =>
        let s := s.modifyJob k fun j => { j with returnCode := code, state := .killing }
        let s := s.log (.jobKilled k code)
        let s := if j.processes.isEmpty && j.jobs.isEmpty then s.markDead k else s
        (.entered ⟨c.jobs, c.processes⟩, supply, s)

end System

namespace KillWalk

/-! ## 3. The walk -/

/-- Enters the next job and gives it back; its frame, if there is one, goes on the stack. -/
def enter (w : KillWalk) (code : Int) (k : Koid) : Option KillFrame × KillWalk :=
  match w.system.enterKill w.supply code k with
  | (.passed, supply, s) => (none, { w with system := s.release (.object k), supply })
  | (.refused, supply, s) =>
    (none, { w with system := s.release (.object k), supply, failed := true })
  | (.entered f, supply, s) => (some f, { w with system := s.release (.object k), supply })

/-- Leaves a job: its processes are killed. -/
def leave (w : KillWalk) (code : Int) (processes : List Koid) : KillWalk :=
  { w with system := w.system.killProcesses code processes }

/-- Kills what the frames on the stack still hold, the top frame first. -/
def run (code : Int) : (budget : Nat) → List KillFrame → KillWalk → KillWalk
  | _, [], w => w
  | budget, ⟨[], processes⟩ :: frames, w => run code budget frames (w.leave code processes)
  | 0, ⟨j :: js, processes⟩ :: frames, w =>
    run code 0 (⟨js, processes⟩ :: frames) { w with system := w.system.release (.object j) }
  | budget + 1, ⟨j :: js, processes⟩ :: frames, w =>
    match w.enter code j with
    | (none, w) => run code (budget + 1) (⟨js, processes⟩ :: frames) w
    | (some f, w) => run code budget (f :: ⟨js, processes⟩ :: frames) w
termination_by budget frames => (budget, total (fun f : KillFrame => f.jobs.length + 1) frames)

end KillWalk

namespace System

/-- Kills a job and everything below it.  Answers whether the job was ready, or fails if some job
could not be killed for lack of memory: the job itself, which then stays as it is, or one below.

The memory that may be lacking is that of the snapshots.  Room on the stack for one more frame is
always there: that this is refused, which would leave the job at hand ready in the same way, is left
out. -/
def killJob (s : System) (refuses : Allocator) (code : Int) (k : Koid) : Outcome Bool × System :=
  match s.enterKill ⟨refuses, []⟩ code k with
  | (.passed, _, s) => (.ok false, s)
  | (.refused, _, s) => (.error .noMemory, s)
  | (.entered f, supply, s) =>
    let w := KillWalk.run code s.jobs.size [f] { system := s, supply }
    (if w.failed then .error .noMemory else .ok true, w.system)

end System

end KernelObjects
