import KernelObjects.System.Handles

/-
# Creating objects

A new object comes with one reference, which its creator holds.  A child job or process refers to
its parent from the start and is then offered to it; a parent that no longer takes children turns
the child down, and the child is destroyed again at once.
-/

namespace KernelObjects.System

/-- Enters a new object of any type and takes the first reference to it. -/
def addObject (s : System) (k : Koid) (signals : Signals) : System :=
  { s with objects := s.objects.insert k { signals } }.retain (.object k)

/-! ## 1. Jobs -/

/-- The name of every root job. -/
def rootName : Name := Name.ofString "<superroot>"

/-- Enters a new job. -/
def addJob (s : System) (job : Job) : Koid × System :=
  let (k, s) := s.freshKoid
  let s := s.addObject k (Signals.noJobs ∪ Signals.noProcesses)
  let s := { s with jobs := s.jobs.insert k job }
  let s := match job.parent with
    | none => s
    | some p => s.retain (.object p)
  (k, (s.bump .jobCreate).register k job.parent)

/-- Creates a root job, as high as the configuration says. -/
def createRootJob (s : System) (hasHaltHandler : Bool) : Koid × System :=
  let (c, s) := s.settledConfig
  s.addJob
    { parent := none, maxHeight := c.rootHeight, name := rootName, hasHaltHandler
      policy := Policy.initial }

/-- Creates a child of a job, with the parent's policy and one generation less below it. -/
def createJob (s : System) (parent : Koid) : Outcome Koid × System :=
  match s.jobs[parent]? with
  | none => (.error .badState, s)
  | some p =>
    match p.maxHeight with
    | 0 => (.error .outOfRange, s)
    | height + 1 =>
      let (k, s) := s.addJob
        { parent := some parent, maxHeight := height, name := Name.blank, policy := p.policy }
      match s.attachJob parent k with
      | (true, s) => (.ok k, s)
      | (false, s) => (.error .badState, s.release (.object k))

/-! ## 2. Processes -/

/-- Creates a process in a job, with the job's policy and an empty table over the shared arena. -/
def createProcess (s : System) (job : Koid) (name : Name) : Outcome Koid × System :=
  match s.jobs[job]? with
  | none => (.error .badState, s)
  | some j =>
    let (k, s) := s.freshKoid
    let (table, s) := s.openSharedArena.openTable k sharedArena
    let s := s.addObject k .empty
    let s := { s with
      processes := s.processes.insert k { job, name, policy := j.policy, table } }
    let s := (s.retain (.object job)).bump .processCreate
    match s.attachProcess job k with
    | (true, s) => (.ok k, s)
    | (false, s) => (.error .badState, s.release (.object k))

/-! ## 3. VM objects -/

/-- Enters a new VM object into a family and into the list of all. -/
def addVmo (s : System) (v : VmoId) (vmo : Vmo) (member : Member) : System :=
  let s := { s with
    vmos := s.vmos.insert v vmo
    vmoList := s.vmoList.insert v ()
    families := s.families.modify vmo.family fun f => f.insert v member }
  s.retain (.vmo v)

/-- Creates a VM object, which starts a family of its own.  The size is rounded up to pages. -/
def createVmo (s : System) (size : Nat) (options : BitVec 32) : Outcome VmoId × System :=
  match Page.ceil? size with
  | none => (.error .outOfRange, s)
  | some size =>
    let v := s.nextVmo
    let s := { s with nextVmo := v + 1, families := s.families.insert v ∅ }
    let vmo := { family := v, parent := none, options, name := Name.blank }
    (.ok v, s.addVmo v vmo { size, parentOffset := 0 })

/-- Creates a copy-on-write clone of a window of a VM object.  The watcher of the object is told if
this is its first clone. -/
def cloneVmo (s : System) (v : VmoId) (ask : CloneRequest) : Outcome VmoId × System :=
  match s.vmos[v]? with
  | none => (.error .badState, s)
  | some o =>
    match Page.ceil? ask.size with
    | none => (.error .outOfRange, s)
    | some size =>
      if Word.max < ask.offset + size then (.error .outOfRange, s)
      else
        let c := s.nextVmo
        let s := ({ s with nextVmo := c + 1 } : System).retain (.vmo v)
        let vmo := {
          family := o.family
          parent := some v
          options := if ask.resizable then Vmo.resizableBit else 0
          name := if ask.copyName then Name.ofString o.name.text else Name.blank }
        let s := s.addVmo c vmo { size, parentOffset := ask.offset }
        let (count, s) := s.recordClone o.family v c
        (.ok c, if count = 1 then s.tellWatcher v true else s)

/-! ## 4. Views and witnesses -/

/-- Creates the view of a VM object, which stamps the object with its koid and watches its clones.
Another view's stamp is in the way. -/
def createView (s : System) (v : VmoId) : Outcome Koid × System :=
  if s.vmos.contains v then
    let (k, s) := s.freshKoid
    let s := s.addObject k .noClones
    let s := ({ s with views := s.views.insert k { vmo := v } }.retain (.vmo v)).bump .viewCreate
    match s.setUserId v k with
    | (.ok _, s) => (.ok k, s.setWatcher v (some (.view k)))
    | (.error e, s) => (.error e, s.release (.object k))
  else (.error .badState, s)

/-- Creates a witness. -/
def createWitness (s : System) (label : String) (signals : Signals) : Koid × System :=
  let (k, s) := s.freshKoid
  let s := s.addObject k signals
  (k, { s with witnesses := s.witnesses.insert k { label } })

end KernelObjects.System
