import KernelObjects.Script.Session

/-
# Commands on objects of any type, on names of objects and on kernel handles
-/

namespace KernelObjects.Script

/-- A command on objects, names of objects or kernel handles. -/
inductive ObjectCommand where
  | createWitness (label : String) (signals : Signals) (name : Option String)
  | info (object : String)
  | updateSignals (object : String) (clear set : Signals)
  | zeroHandles (object : String)
  /-- Takes a reference to an object if it is of the given type. -/
  | downcast (object : String) (type : ObjectType) (name : Option String)
  | setName (ref : String) (text : String)
  | getName (ref : String)
  | newName (text : String) (name : Option String)
  | newKernel (object : String) (name : Option String)
  | emptyKernel (type : ObjectType) (name : Option String)
  /-- Puts an object, or nothing, into a kernel handle. -/
  | resetKernel (kernel : String) (object : Option String)
  /-- Takes the object out of a kernel handle without telling it. -/
  | releaseKernel (kernel : String) (name : Option String)
  | kernelInfo (kernel : String)

namespace ObjectCommand

/-- What has a name. -/
inductive Named where
  | own
  | job (k : Koid)
  | process (k : Koid)
  | vmo (v : VmoId)

/-- The named thing that an object is; a view stands for its VM object. -/
def namedObject (t : System) (k : Koid) : Option Named :=
  if t.jobs.contains k then some (.job k)
  else if t.processes.contains k then some (.process k)
  else t.views[k]?.map fun v => .vmo v.vmo

/-- The named thing that a name stands for, with its name. -/
def named (s : Session) (ref : String) : Session.Found (Named × Name) :=
  s.find ref fun
    | .name n => some (.own, n)
    | .vmo v => s.system.vmos[v]?.map fun o => (.vmo v, o.name)
    | b => (Session.referred (fun _ => true) b).bind fun k =>
      (namedObject s.system k).bind fun
        | .own => none
        | .job k => s.system.jobs[k]?.map fun j => (.job k, j.name)
        | .process k => s.system.processes[k]?.map fun p => (.process k, p.name)
        | .vmo v => s.system.vmos[v]?.map fun o => (.vmo v, o.name)

/-- Gives a named thing another name. -/
def setNamed (s : Session) (ref : String) (x : Named) (n : Name) : Session :=
  match x with
  | .own => s.rebind ref (.name n)
  | .job k => s.act fun t => t.modifyJob k fun j => { j with name := n }
  | .process k => s.act fun t => t.modifyProcess k fun p => { p with name := n }
  | .vmo v => s.act fun t => t.modifyVmo v fun o => { o with name := n }

/-- The object that a kernel handle is to be reset to, if any. -/
def resetTarget (s : Session) : Option String → Session.Found (Option Koid)
  | none => .ok none
  | some name => (s.object name).map some

/-- Resets a kernel handle: the old object is told and given back before the new one is put in. -/
def reset (s : Session) (kernel : String) (type : ObjectType) (held new : Option Koid) : Session :=
  let s := match new with
    | none => s
    | some k => s.act fun t => t.retain (.object k)
  let s := s.act (Binding.kernel type held).drop
  s.rebind kernel (.kernel type new)

def run (c : ObjectCommand) (s : Session) : Session × Reply :=
  match c with
  | createWitness label signals name =>
    let (k, t) := s.system.createWitness label signals
    (({ s with system := t } : Session).keep name (.object k), .number k)
  | info object => s.given (s.object object) fun k => (s, .object (s.system.objectInfo k))
  | updateSignals object clear set =>
    s.given (s.object object) fun k =>
      let s := s.act fun t => t.signal k clear set
      (s, .number (s.system.signals k).bits.toNat)
  | zeroHandles object =>
    s.given (s.object object) fun k => (s.act fun t => t.zeroHandles k, .done)
  | downcast object type name =>
    s.given (s.object object) fun k => s.holding [.object k] fun s =>
      if s.system.typeOf k = type then
        ((s.act fun t => t.retain (.object k)).keep name (.object k), .flag true)
      else (s, .flag false)
  | setName ref text =>
    s.given (named s ref) fun (x, _) => (setNamed s ref x (Name.ofString text), .done)
  | getName ref => s.given (named s ref) fun (_, n) => (s, .text n.text)
  | newName text name =>
    let n := Name.ofString text
    (s.keep name (.name n), .text n.text)
  | newKernel object name =>
    s.given (s.reference object) fun k => s.holding [.object k] fun s =>
      ((s.act fun t => t.retain (.object k)).keep name
        (.kernel (s.system.typeOf k) (some k)), .done)
  | emptyKernel type name => (s.keep name (.kernel type none), .done)
  | resetKernel kernel object =>
    s.given (resetTarget s object) fun new => s.given (s.kernel kernel) fun (type, held) =>
      if new.all fun k => s.system.typeOf k = type then
        s.holding (new.toList.map .object) fun s => (reset s kernel type held new, .done)
      else (s, .noRef "obj")
  | releaseKernel kernel name =>
    s.given (s.kernel kernel) fun (type, held) =>
      let s := s.rebind kernel (.kernel type none)
      match held with
      | none => (s, .flag false)
      | some k => (s.keep name (.object k), .flag true)
  | kernelInfo kernel => s.given (s.kernel kernel) fun (_, held) => (s, .kernel held)

end ObjectCommand

end KernelObjects.Script
