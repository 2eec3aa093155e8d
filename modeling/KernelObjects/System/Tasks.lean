import KernelObjects.System.Kill
import KernelObjects.System.Walk

/-
# What jobs and processes offer besides being killed

Look-ups among the children of a job, the policy of a job and its enforcement in a process,
exception ports, and the search for a job to kill when memory runs out.
-/

namespace KernelObjects.System

/-! ## 1. Look-ups -/

/-- The listed child job of a koid, if it is alive. -/
def lookupJob (s : System) (k : Koid) (child : Koid) : Option Koid :=
  match s.jobs[k]? with
  | none => none
  | some j => if child ∈ j.jobs ∧ s.jobs.contains child then some child else none

/-- The listed child process of a koid, if it is alive. -/
def lookupProcess (s : System) (k : Koid) (child : Koid) : Option Koid :=
  match s.jobs[k]? with
  | none => none
  | some j => if child ∈ j.processes ∧ s.processes.contains child then some child else none

/-! ## 2. Policy -/

/-- Changes the policy of a job.  Only a job without listed children may change it, so the copies in
children never fall behind. -/
def amendPolicy (s : System) (k : Koid) (change : Policy → Outcome Policy) :
    Outcome Unit × System :=
  match s.jobs[k]? with
  | none => (.error .badState, s)
  | some j =>
    if !(j.processes.isEmpty && j.jobs.isEmpty) then (.error .badState, s)
    else match change j.policy with
      | .error e => (.error e, s)
      | .ok policy => (.ok (), s.modifyJob k fun j => { j with policy })

/-- The return code of a process that its policy killed. -/
def policyKillCode : Int := -1026

/-- Applies a process's policy to a condition: it may kill the process, and it answers with the
action if the guarded operation goes ahead. -/
def enforcePolicy (s : System) (k : Koid) (c : Condition) : Outcome Action × System :=
  match s.processes[k]? with
  | none => (.error .badState, s)
  | some p =>
    let a := p.policy.action c
    let s := if a = .kill then s.killProcess policyKillCode k else s
    (if a.isAllowed then .ok a else .error .accessDenied, s)

/-! ## 3. Exception ports -/

/-- Opens an exception port. -/
def openPort (s : System) (kind : PortKind) (key : Nat) : PortId × System :=
  let (p, s) := s.freshId
  (p, { s with ports := s.ports.insert p { kind, key } })

/-- Binds a port to the slot of a job that its kind names. -/
def bindPort (s : System) (k : Koid) (p : PortId) : Outcome Unit × System :=
  match s.jobs[k]?, s.ports[p]? with
  | some j, some port =>
    match port.kind with
    | .job =>
      if j.port.isSome then (.error .alreadyBound, s)
      else (.ok (), s.modifyJob k fun j => { j with port := some p })
    | .debugger =>
      if j.debuggerPort.isSome then (.error .alreadyBound, s)
      else (.ok (), s.modifyJob k fun j => { j with debuggerPort := some p })
    | .process => (.error .invalidArgs, s)
  | _, _ => (.error .badState, s)

/-- Queues an exception of a running process at a port. -/
def report (s : System) (k : Koid) (p : PortId) (type : Nat) (hasMemory : Bool) :
    Outcome Unit × System :=
  match s.processes[k]? with
  | none => (.error .badState, s)
  | some q =>
    if q.state = .dead then (.error .badState, s)
    else if !hasMemory then (.error .noMemory, s)
    else (.ok (), s.modifyProcess k fun q => { q with pending := q.pending ++ [⟨p, type⟩] })

/-- Drops every exception of a process that waits at a port. -/
def dropReports (s : System) (p : PortId) (k : Koid) : System :=
  s.modifyProcess k fun q => { q with pending := q.pending.filter fun r => r.port ≠ p }

/-- Drops the waiting exceptions at a port in the processes that a walk comes by. -/
def dropReportsVisitor (p : PortId) : Visitor Unit := fun v s _ =>
  match v with
  | .job _ => (true, s, ())
  | .process k => (true, s.dropReports p k, ())

/-- Empties a port slot of a job and tells the port; then the processes below the job drop what
waits there.  If that walk fails for lack of memory, the slot stays empty. -/
def resetPort (s : System) (refuses : Allocator) (k : Koid) (debugger : Bool) :
    Outcome Bool × System :=
  match s.jobs[k]? with
  | none => (.ok false, s)
  | some j =>
    match if debugger then j.debuggerPort else j.port with
    | none => (.ok false, s)
    | some p =>
      let s := s.modifyJob k fun j =>
        if debugger then { j with debuggerPort := none } else { j with port := none }
      let (e, s, _) := (s.unbindPort p).walk refuses k true (dropReportsVisitor p) ()
      (e.outcome, s)

/-! ## 4. The youngest marked job -/

/-- Marks a job as one to kill when memory runs out, or takes the mark away. -/
def setKillOnOom (s : System) (k : Koid) (mark : Bool) : System :=
  s.modifyJob k fun j => { j with killOnOom := mark }

/-- Calls a function on jobs in turn, up to the first at which it fails. -/
def eachOf {σ : Type} (f : Koid → σ → Outcome Unit × σ) : List Koid → σ → Outcome Unit × σ
  | [], own => (.ok (), own)
  | k :: ks, own =>
    match f k own with
    | (.ok _, own) => eachOf f ks own
    | (.error e, own) => (.error e, own)

/-- Calls a function on every live job in the order of the registry, up to the first at which it
fails.  The walk needs memory for as many entries as the registry has; `enough` says for which
numbers there is some.

The function is called with the lock of the registry held and must not create or destroy jobs, so it
sees one and the same system throughout and is not given one to change.  What it does to anything
else, a client can keep in `own`. -/
def eachJob {σ : Type} (s : System) (enough : Nat → Bool) (f : Koid → σ → Outcome Unit × σ)
    (own : σ) : Outcome Unit × σ :=
  if enough s.registry.length then eachOf f s.liveJobs own else (.error .noMemory, own)

/-- Whether a job is marked as one to kill when memory runs out. -/
def killOnOom (s : System) (k : Koid) : Bool := (s.jobs[k]?.map Job.killOnOom).getD false

/-- The marked job that comes last in the registry; none if there is no memory to look. -/
def oomVictim (s : System) (enough : Nat → Bool) : Option Koid :=
  match s.eachJob enough (fun k v => (.ok (), if s.killOnOom k then some k else v)) none with
  | (.ok _, victim) => victim
  | (.error _, _) => none

end KernelObjects.System
