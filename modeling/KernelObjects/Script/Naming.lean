import KernelObjects.Script.Session

/-
# Commands on names

Dropping what a name stands for, giving it another name, and taking a further reference.  What is
moved or taken without a new name for it is dropped at once.
-/

namespace KernelObjects.Script

/-- A command on names. -/
inductive NamingCommand where
  /-- Drops what a name stands for. -/
  | drop (ref : String)
  /-- Moves what a name stands for under another name. -/
  | rename (ref : String) (newName : Option String)
  /-- Takes a further reference to what a name stands for. -/
  | share (ref : String) (newName : Option String)

/-- What a further reference to something is, and what it counts for.  A further reference to an
owned handle is a shared one; things of which there can be only one cannot be shared. -/
def Binding.shared : Binding → Option (Binding × List Ref)
  | .object k => some (.object k, [.object k])
  | .vmo v => some (.vmo v, [.vmo v])
  | .mapping m => some (.mapping m, [.mapping m])
  | .owner h | .handle h => some (.handle h, [.handle h])
  | .policy p => some (.policy p, [])
  | _ => none

namespace NamingCommand

def run (c : NamingCommand) (s : Session) : Session × Reply :=
  match c with
  | drop ref =>
    match s.names[ref]? with
    | none => (s, .flag false)
    | some b => ((s.forget ref).act b.drop, .flag true)
  | rename ref newName =>
    match s.names[ref]? with
    | none => (s, .noRef ref)
    | some b => ((s.forget ref).keep newName b, .done)
  | share ref newName =>
    s.given (s.find ref Binding.shared) fun (b, refs) =>
      ((s.act fun t => t.retainAll refs).keep newName b, .done)

end NamingCommand

end KernelObjects.Script
