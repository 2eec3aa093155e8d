import KernelObjects.Script.Naming
import KernelObjects.Script.Policies
import KernelObjects.Script.Processes
import KernelObjects.Script.Objects
import KernelObjects.Script.Handles
import KernelObjects.Script.Memory
import KernelObjects.Script.Facts

/-
# Running scripts

A script is a list of steps.  A step is a command, or a walk that may run further steps inside its
visits.  Each step makes an answer, which also tells what happened since the answer before: the
events that a script can see, and the counters that changed.  When the script is over, whatever its
names still hold is dropped in the order of the names.
-/

namespace KernelObjects.Script

/-! ## 1. Steps -/

/-- A command of any kind. -/
inductive Command where
  | naming (c : NamingCommand)
  | job (c : JobCommand)
  | policy (c : PolicyCommand)
  | process (c : ProcessCommand)
  | object (c : ObjectCommand)
  | handle (c : HandleCommand)
  | table (c : TableCommand)
  | vmo (c : VmoCommand)
  | mapping (c : MappingCommand)
  | view (c : ViewCommand)
  | fact (c : FactCommand)

/-- Runs a command. -/
def Command.run : Command → Session → Session × Reply
  | naming c => c.run
  | job c => c.run
  | policy c => c.run
  | process c => c.run
  | object c => c.run
  | handle c => c.run
  | table c => c.run
  | vmo c => c.run
  | mapping c => c.run
  | view c => c.run
  | fact c => c.run

/-- A step of a script. -/
inductive Step where
  | command (c : Command)
  /-- A step that could not be read because of one of its fields.  If all its names could be read,
  `rest` is the command with something in the place of the field. -/
  | unreadable (field : String) (rest : Option Command)
  /-- A walk over the children of a job.  It stops at the visit `stop`, counted from one; inside the
  visits that `during` numbers, further steps are run. -/
  | enumerate (job : String) (deep : Bool) (stop failing : Option Nat)
      (during : List (Nat × List Step))
  /-- A walk over all VM objects. -/
  | eachVmo (stop failing : Option Nat) (during : List (Nat × List Step))

instance : Inhabited Step := ⟨.unreadable "" none⟩

/-! ## 2. Answers -/

mutual

/-- What a step answers. -/
inductive Response where
  | plain (r : Reply)
  /-- What a walk came by, and how it ended. -/
  | walked (seen : List Sighting) (ended : Outcome Bool)
  /-- What is left at the end: jobs, VM objects, and handles of the shared arena. -/
  | left (jobs : List Koid) (vmos : List VmoId) (handles : Nat)

/-- What a walk notes at a visit. -/
inductive Sighting where
  | child (v : Visit)
  | vmo (v : VmoId)
  /-- The answers of the steps that were run inside the visit. -/
  | answers (as : List Answer)

/-- A response, with what happened and which counters changed since the answer before. -/
inductive Answer where
  | mk (response : Response) (events : List Event) (counters : List (String × Nat))

end

/-- Whether a script is told of an event. -/
def isVisible : Event → Bool
  | .halted _ _ => true
  | .zeroHandles _ label | .destroyed _ label => label.isSome
  | .firstClone _ _ label | .lastClone _ _ label => label.isSome
  | .vmoDestroyed _ | .handleClosed _ | .jobKilled _ _ | .jobDied _ | .processKilled _ _ => false

/-- Makes an answer and starts to note events and counters anew. -/
def Session.answer (s : Session) (r : Response) : Session × Answer :=
  let now := s.system.counters
  ({ s with system := { s.system with trace := [] }, told := now },
    .mk r (s.system.trace.reverse.filter isVisible) (now.changedSince s.told))

/-! ## 3. The visits of a walk -/

/-- What a walk of a script keeps besides the system. -/
structure Scan where
  names : Names
  told : Counters
  /-- The number of visits so far. -/
  visits : Nat := 0
  /-- What was noted, latest first. -/
  seen : List Sighting := []

/-- The session at a visit. -/
def Scan.session (c : Scan) (t : System) : Session := ⟨t, c.names, c.told⟩

/-- Notes a visit, runs the steps that belong inside it, and says whether the walk goes on.
`interlude` runs the steps for the number of a visit, if there are any. -/
def Scan.visit (interlude : Nat → Session → Option (Session × List Answer)) (stop : Option Nat)
    (x : Sighting) (t : System) (c : Scan) : Bool × System × Scan :=
  let n := c.visits + 1
  let c := { c with visits := n, seen := x :: c.seen }
  let goesOn := stop ≠ some n
  match interlude n (c.session t) with
  | none => (goesOn, t, c)
  | some (s, as) =>
    (goesOn, s.system,
      { c with names := s.names, told := s.told, seen := .answers as :: c.seen })

/-- The numbers of VM objects whose list cannot be copied if a script asks for that. -/
def scarceVmoCounts : List Nat := [5, 6, 7]

/-- Walks over the children of a job. -/
def enumerate (interlude : Nat → Session → Option (Session × List Answer)) (job : String)
    (deep : Bool) (stop failing : Option Nat) (s : Session) : Session × Response :=
  match s.job job with
  | .error name => (s, .plain (.noRef name))
  | .ok k =>
    let (e, t, c) := (s.system.retain (.object k)).walk (shortage failing) k deep
      (fun v => Scan.visit interlude stop (.child v)) { names := s.names, told := s.told }
    (c.session (t.release (.object k)), .walked c.seen.reverse e.outcome)

/-- Walks over all VM objects. -/
def eachVmo (interlude : Nat → Session → Option (Session × List Answer)) (stop failing : Option Nat)
    (s : Session) : Session × Response :=
  let (e, t, c) := s.system.eachVmo (enoughFor scarceVmoCounts failing)
    (fun v => Scan.visit interlude stop (.vmo v)) { names := s.names, told := s.told }
  (c.session t, .walked c.seen.reverse e)

/-! ## 4. The run -/

/-- Answers a step that could not be read.  What its names stand for comes first: if the command
would stop at one of them, that is the answer. -/
def unreadable (field : String) (rest : Option Command) (s : Session) : Reply :=
  match rest with
  | none => .unreadable field
  | some c =>
    match (c.run s).2 with
    | .noRef name => .noRef name
    | _ => .unreadable field

mutual

/-- Runs a step. -/
def Step.run : Step → Session → Session × Response
  | .command c, s =>
    let (s, r) := c.run s
    (s, .plain r)
  | .unreadable field rest, s => (s, .plain (Script.unreadable field rest s))
  | .enumerate job deep stop failing during, s =>
    Script.enumerate (interlude during) job deep stop failing s
  | .eachVmo stop failing during, s => Script.eachVmo (interlude during) stop failing s

/-- Runs steps in turn and collects their answers. -/
def runAll : List Step → Session → Session × List Answer
  | [], s => (s, [])
  | x :: xs, s =>
    let (s, r) := x.run s
    let (s, a) := s.answer r
    let (s, as) := runAll xs s
    (s, a :: as)

/-- Runs the first list of steps that belongs to the number of a visit. -/
def interlude : List (Nat × List Step) → Nat → Session → Option (Session × List Answer)
  | [], _, _ => none
  | (m, xs) :: rest, n, s => if m = n then some (runAll xs s) else interlude rest n s

end

/-- Drops whatever the names hold, in the order of the names. -/
def Session.dropAll (s : Session) : Session :=
  s.names.toList.foldl (fun s nb => (s.forget nb.1).act nb.2.drop) s

/-- Drops everything and answers what is left. -/
def Session.finish (s : Session) : Session × Answer :=
  let s := s.dropAll
  s.answer (.left s.system.liveJobs s.system.vmosToVisit s.system.sharedHandles)

/-- Runs a script from nothing: the answers of its steps and the answer at the end. -/
def run (steps : List Step) : List Answer × Answer :=
  let (s, answers) := runAll steps {}
  (answers, s.finish.2)

end KernelObjects.Script
