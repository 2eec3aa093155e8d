import KernelObjects.System.Snapshot

/-
# Walks over the children of a job

A walk visits the processes of a job and then its child jobs; a deep walk goes into each child job
right after visiting it.  Every level is a snapshot taken when the walk reaches it, so what a visit
does to the tree cannot make the walk lose its place.  A visit may change the system in any way, and
it may stop the walk.

The walk holds what its snapshots hold.  A process is given back when the level's processes are
done, a job when the walk has taken the snapshot below it.  When the walk breaks off, the job at
hand goes first, and then what is left of each level, outermost first.

**Why this ends.**  Each level below a job has one generation less below it, so the height of the
start job bounds the depth of the walk, and a level is a list.
-/

namespace KernelObjects

/-- A child that a walk comes by. -/
inductive Visit where
  | job (k : Koid)
  | process (k : Koid)
  deriving DecidableEq, Repr

/-- How a walk ended. -/
inductive WalkEnd where
  | finished
  /-- A visit stopped it. -/
  | stopped
  /-- There was no memory for a snapshot. -/
  | refused
  deriving DecidableEq, Repr

/-- Answers whether a walk went to its end. -/
def WalkEnd.outcome : WalkEnd → Outcome Bool
  | finished => .ok true
  | stopped => .ok false
  | refused => .error .noMemory

/-- The state of a walk: the system, the memory, and what the visitor keeps. -/
structure Walk (σ : Type) where
  system : System
  supply : Supply
  own : σ

/-- What is done at each child; answers whether the walk goes on. -/
abbrev Visitor (σ : Type) := Visit → System → σ → Bool × System × σ

namespace Walk

variable {σ : Type}

/-- Does what is done at one child. -/
def visit (w : Walk σ) (f : Visitor σ) (v : Visit) : Bool × Walk σ :=
  let (goesOn, system, own) := f v w.system w.own
  (goesOn, { w with system, own })

/-- Gives back objects. -/
def giveBack (w : Walk σ) (ks : List Koid) : Walk σ :=
  { w with system := w.system.releaseAll (ks.map .object) }

/-- Visits processes in turn; answers whether the walk goes on. -/
def visitProcesses (f : Visitor σ) : List Koid → Walk σ → Bool × Walk σ
  | [], w => (true, w)
  | p :: ps, w =>
    match w.visit f (.process p) with
    | (true, w) => visitProcesses f ps w
    | (false, w) => (false, w)

/-- Reaches a level: takes the snapshot and visits the processes.  Gives the jobs, still held. -/
def enter (w : Walk σ) (f : Visitor σ) (k : Koid) : Except WalkEnd (List Koid) × Walk σ :=
  match w.system.snapshot w.supply k with
  | (none, supply, system) => (.error .refused, { w with system, supply })
  | (some c, supply, system) =>
    match visitProcesses f c.processes { w with system, supply } with
    | (true, w) => (.ok c.jobs, w.giveBack c.processes)
    | (false, w) => (.error .stopped, w.giveBack (c.jobs ++ c.processes))

/-- Visits the jobs of a level in turn and goes below each one with `below`, which takes over the
reference to the job.  The references that the levels further out hold are `outer`. -/
def visitJobs (f : Visitor σ) (below : List Koid → Koid → Walk σ → WalkEnd × Walk σ)
    (outer : List Koid) : List Koid → Walk σ → WalkEnd × Walk σ
  | [], w => (.finished, w)
  | j :: js, w =>
    match w.visit f (.job j) with
    | (false, w) => (.stopped, w.giveBack (j :: (outer ++ js)))
    | (true, w) =>
      match below (outer ++ js) j w with
      | (.finished, w) => visitJobs f below outer js w
      | (e, w) => (e, w)

/-- Goes no deeper: the job is given back. -/
def stay (_ : List Koid) (j : Koid) (w : Walk σ) : WalkEnd × Walk σ := (.finished, w.giveBack [j])

/-- Goes below a job, at most so many levels further down. -/
def descend (f : Visitor σ) : (levels : Nat) → List Koid → Koid → Walk σ → WalkEnd × Walk σ
  | levels, outer, j, w =>
    match w.enter f j with
    | (.error e, w) => (e, w.giveBack (j :: outer))
    | (.ok jobs, w) =>
      let w := w.giveBack [j]
      match levels with
      | 0 => visitJobs f stay outer jobs w
      | n + 1 => visitJobs f (descend f n) outer jobs w

end Walk

namespace System

/-- Walks over the children of a job, and with `deep` over everything below it.  A refusal is one of
the memory for a snapshot; room on the stack for one more level is always there. -/
def walk {σ : Type} (s : System) (refuses : Allocator) (k : Koid) (deep : Bool) (f : Visitor σ)
    (own : σ) : WalkEnd × System × σ :=
  let w : Walk σ := { system := s, supply := ⟨refuses, []⟩, own }
  let height := (s.jobs[k]?.map Job.maxHeight).getD 0
  let (e, w) := match w.enter f k with
    | (.error e, w) => (e, w)
    | (.ok jobs, w) =>
      Walk.visitJobs f (if deep then Walk.descend f height else Walk.stay) [] jobs w
  (e, w.system, w.own)

end System

end KernelObjects
