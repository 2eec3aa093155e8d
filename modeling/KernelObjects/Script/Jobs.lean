import KernelObjects.Script.Session

/-
# Commands on jobs

Creating, describing, killing and finding jobs.  A script can ask that memory runs short: the
allocations that it can make fail are told apart by their sizes, so only some numbers of children
and of registry entries can be hit.
-/

namespace KernelObjects.Script

/-! ## 1. Shortage of memory -/

/-- The numbers of entries whose allocation a script can make fail. -/
def scarceCounts : List Nat := [1, 2, 3, 5, 6, 7]

/-- The allocator of snapshots for a script that asks for a shortage. -/
def shortage (failing : Option Nat) : Allocator :=
  match failing with
  | none => .generous
  | some n => if n ∈ scarceCounts then .refusingFirst n else .generous

/-- Whether a list of so many entries can be copied while a script asks for a shortage. -/
def enoughFor (counts : List Nat) (failing : Option Nat) (length : Nat) : Bool :=
  !(failing = some length && length ∈ counts)

/-! ## 2. Commands -/

/-- A command on jobs. -/
inductive JobCommand where
  | createRoot (hasHaltHandler : Bool) (name : Option String)
  | create (parent : String) (kernelName name : Option String)
  | info (job : String)
  /-- Kills a job or a process. -/
  | kill (task : String) (code : Int) (failing : Option Nat) (noStack : Bool)
  | lookupJob (job : String) (koid : Session.Numeral) (name : Option String)
  | lookupProcess (job : String) (koid : Session.Numeral) (name : Option String)
  | attachProcess (job process : String)
  | detachProcess (job : String) (koid : Session.Numeral)
  | setKillOnOom (job : String) (mark : Bool)
  | oomVictim (failing : Option Nat) (name : Option String)
  /-- Scans the registry; the scan fails at a given visit, counted from one. -/
  | scan (failAt : Option (Nat × Refusal)) (failing : Option Nat)

namespace JobCommand

/-- What the scan does at each job: it notes it, and fails at the given visit. -/
def note (failAt : Option (Nat × Refusal)) (k : Koid) (seen : List Koid) :
    Outcome Unit × List Koid :=
  let seen := seen ++ [k]
  match failAt with
  | none => (.ok (), seen)
  | some (n, e) => (if seen.length = n then .error e else .ok (), seen)

/-- Answers a look-up and takes a reference to what was found. -/
def foundObject (s : Session) (child : Option Koid) (name : Option String) : Session × Reply :=
  match child with
  | none => (s, .perhaps none)
  | some k => ((s.act fun t => t.retain (.object k)).keep name (.object k), .perhaps (some k))

def run (c : JobCommand) (s : Session) : Session × Reply :=
  match c with
  | createRoot hasHaltHandler name =>
    let (k, t) := s.system.createRootJob hasHaltHandler
    (({ s with system := t } : Session).keep name (.object k), .number k)
  | create parent kernelName name =>
    s.given (s.job parent) fun p => s.holding [.object p] fun s =>
      s.create (fun t => t.createJob p) kernelName name
  | info job =>
    s.given (s.job job) fun k => (s, (s.system.jobInfo k).elim .done .job)
  | kill task code failing noStack =>
    s.given (s.task task) fun k => s.holding [.object k] fun s =>
      if s.system.jobs.contains k then
        if noStack then (s, .refused .noMemory)
        else s.attempt (fun t => t.killJob (shortage failing) code k) .flag
      else (s.act fun t => t.killProcess code k, .done)
  | lookupJob job koid name =>
    s.given (s.job job) fun k => s.given (s.koid koid) fun c => s.holding [.object k] fun s =>
      foundObject s (s.system.lookupJob k c) name
  | lookupProcess job koid name =>
    s.given (s.job job) fun k => s.given (s.koid koid) fun c => s.holding [.object k] fun s =>
      foundObject s (s.system.lookupProcess k c) name
  | attachProcess job process =>
    s.given (s.job job) fun k => s.given (s.process process) fun p =>
      s.holding [.object k, .object p] fun s =>
        let (taken, t) := s.system.attachProcess k p
        ({ s with system := t }, .flag taken)
  | detachProcess job koid =>
    s.given (s.koid koid) fun p => s.given (s.job job) fun k => s.holding [.object k] fun s =>
      (s.act fun t => t.detachProcess k p, .done)
  | setKillOnOom job mark =>
    s.given (s.job job) fun k => (s.act fun t => t.setKillOnOom k mark, .done)
  | oomVictim failing name =>
    foundObject s (s.system.oomVictim (enoughFor scarceCounts failing)) name
  | scan failAt failing =>
    let (ended, seen) := s.system.eachJob (enoughFor scarceCounts failing) (note failAt) []
    (s, .scanned seen ended)

end JobCommand

end KernelObjects.Script
