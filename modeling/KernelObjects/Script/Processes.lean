import KernelObjects.Script.Jobs

/-
# Commands on processes and exception ports
-/

namespace KernelObjects.Script

/-- A command on processes or exception ports. -/
inductive ProcessCommand where
  | create (job : String) (text : String) (kernelName name : Option String)
  | info (process : String)
  | enforce (process : String) (c : Condition)
  | report (process port : String) (type : Nat) (noMemory : Bool)
  | dropReports (process port : String)
  | newPort (kind : PortKind) (key : Nat) (name : Option String)
  | portInfo (port : String)
  | unbindPort (port : String)
  | bindPort (job port : String)
  | resetPort (job : String) (debugger : Bool) (failing : Option Nat)

namespace ProcessCommand

def run (c : ProcessCommand) (s : Session) : Session × Reply :=
  match c with
  | create job text kernelName name =>
    s.given (s.job job) fun k => s.holding [.object k] fun s =>
      s.create (fun t => t.createProcess k (Name.ofString text)) kernelName name
  | info process =>
    s.given (s.process process) fun k => (s, (s.system.processInfo k).elim .done .process)
  | enforce process c =>
    s.given (s.process process) fun k => s.holding [.object k] fun s =>
      s.attempt (fun t => t.enforcePolicy k c) fun a => .number a.raw
  | report process port type noMemory =>
    s.given (s.process process) fun k => s.given (s.port port) fun p =>
      s.attempt (fun t => t.report k p type (!noMemory)) fun _ => .done
  | dropReports process port =>
    s.given (s.process process) fun k => s.given (s.port port) fun p =>
      (s.act fun t => t.dropReports p k, .done)
  | newPort kind key name =>
    let (p, t) := s.system.openPort kind key
    (({ s with system := t } : Session).keep name (.port p), .done)
  | portInfo port =>
    s.given (s.port port) fun p => (s, s.system.ports[p]?.elim .done .port)
  | unbindPort port => s.given (s.port port) fun p => (s.act fun t => t.unbindPort p, .done)
  | bindPort job port =>
    s.given (s.job job) fun k => s.given (s.port port) fun p =>
      s.attempt (fun t => t.bindPort k p) fun _ => .done
  | resetPort job debugger failing =>
    s.given (s.job job) fun k => s.holding [.object k] fun s =>
      s.attempt (fun t => t.resetPort (shortage failing) k debugger) .flag

end ProcessCommand

end KernelObjects.Script
