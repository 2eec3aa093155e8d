import KernelObjects.Script.Session

/-
# Commands on policies

A policy of its own can be changed at any time, the policy of a job only while the job is empty.
-/

namespace KernelObjects.Script

/-- A command on policies. -/
inductive PolicyCommand where
  | new (name : Option String)
  | amend (ref : String) (mode : Nat) (entries : List PolicyEntry)
  | widenSlack (ref : String) (amount : Int) (mode : Nat)
  /-- Shows the policy of a policy, a process or a job. -/
  | info (ref : String)
  | entry (c : Condition) (a : Action)

namespace PolicyCommand

/-- Where a change of policy goes. -/
inductive Target where
  | own (p : Policy)
  | job (k : Koid)

/-- The policy or the job that a name stands for. -/
def target (s : Session) (ref : String) : Session.Found Target :=
  s.find ref fun
    | .policy p => some (.own p)
    | b => (Session.referred (fun k => s.system.jobs.contains k) b).map .job

/-- The policy that can be read by a name. -/
def readable (s : Session) (ref : String) : Session.Found Policy :=
  s.find ref fun
    | .policy p => some p
    | b => (Session.referred (fun _ => true) b).bind fun k =>
      (s.system.processes[k]?.map Process.policy) <|> (s.system.jobs[k]?.map Job.policy)

/-- Changes a policy of its own or the policy of a job. -/
def change (s : Session) (ref : String) (f : Policy → Outcome Policy) : Session × Reply :=
  s.given (target s ref) fun
    | .own p =>
      match f p with
      | .error e => (s, .refused e)
      | .ok q => (s.rebind ref (.policy q), .done)
    | .job k => s.attempt (fun t => t.amendPolicy k f) fun _ => .done

def run (c : PolicyCommand) (s : Session) : Session × Reply :=
  match c with
  | new name => (s.keep name (.policy Policy.initial), .done)
  | amend ref mode entries => change s ref fun p => p.amend mode entries
  | widenSlack ref amount mode => change s ref fun p => p.widenSlack amount mode
  | info ref => s.given (readable s ref) fun p => (s, .policy p)
  | entry c a => (s, .policyEntry (PolicyEntry.of c a))

end PolicyCommand

end KernelObjects.Script
