import KernelObjects.System.Handles

/-
# Snapshots of children

Walks over the job tree work on snapshots: the children of a job that are alive when the walk gets
there, each held by a reference.  A snapshot needs memory, and an *allocator* decides whether it
gets it.  The allocator sees the request and every earlier one, so each pattern of failures is some
allocator.
-/

namespace KernelObjects

/-- A request for the memory of one snapshot: whose, and how many children are listed there. -/
structure SnapshotRequest where
  job : Koid
  processes : Nat
  jobs : Nat
  deriving DecidableEq, Repr

/-- Decides whether a request is refused, given the earlier ones, latest first. -/
abbrev Allocator := List SnapshotRequest → SnapshotRequest → Bool

namespace Allocator

/-- Never refuses. -/
def generous : Allocator := fun _ _ => false

/-- Refuses the first request of a job with just so many processes or so many jobs. -/
def refusingFirst (n : Nat) : Allocator := fun earlier r =>
  let hits (q : SnapshotRequest) := q.processes = n || q.jobs = n
  hits r && !earlier.any hits

end Allocator

/-- An allocator together with the requests that were made of it, latest first. -/
structure Supply where
  refuses : Allocator
  asked : List SnapshotRequest := []

/-- The children of a job at one moment. -/
structure Children where
  processes : List Koid
  jobs : List Koid
  deriving DecidableEq, Repr

namespace System

/-- The children of a job that are alive, in the order of its lists. -/
def liveChildren (s : System) (k : Koid) : Children :=
  match s.jobs[k]? with
  | none => ⟨[], []⟩
  | some j =>
    ⟨j.processes.filter fun p => s.processes.contains p, j.jobs.filter fun c => s.jobs.contains c⟩

/-- The request for the memory of a snapshot of a job. -/
def snapshotRequest (s : System) (k : Koid) : SnapshotRequest :=
  match s.jobs[k]? with
  | none => ⟨k, 0, 0⟩
  | some j => ⟨k, j.processes.length, j.jobs.length⟩

/-- Takes a snapshot of the children of a job and holds them, or is refused the memory. -/
def snapshot (s : System) (supply : Supply) (k : Koid) : Option Children × Supply × System :=
  let ask := s.snapshotRequest k
  let next : Supply := { supply with asked := ask :: supply.asked }
  if supply.refuses supply.asked ask then (none, next, s)
  else
    let c := s.liveChildren k
    (some c, next, (s.retainAll (c.processes.map .object)).retainAll (c.jobs.map .object))

end System

end KernelObjects
