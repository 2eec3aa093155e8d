import KernelObjects.Word

/-
# Counters

The kernel counts a few kinds of event for diagnosis.  A counter only moves up, modulo the word
size.
-/

namespace KernelObjects

/-- A named counter of its own. -/
structure Counter where
  name : String
  value : Nat
  deriving DecidableEq, Repr

namespace Counter

/-- A counter that has counted nothing. -/
def fresh (name : String) : Counter := ⟨name, 0⟩

/-- Counters go round at the end of a word, and nobody is told. -/
def add (c : Counter) (delta : Nat) : Counter := { c with value := Word.addWrap c.value delta }

end Counter

/-- The kinds of event that the kernel counts. -/
inductive Meter where
  | jobCreate | jobDestroy | processCreate | processDestroy | viewCreate | viewDestroy
  | arenaExhausted
  deriving DecidableEq, Repr

namespace Meter

/-- All kinds, in the order of a dump. -/
def all : List Meter :=
  [jobCreate, jobDestroy, processCreate, processDestroy, viewCreate, viewDestroy, arenaExhausted]

/-- The dotted name shown in a dump. -/
def name : Meter → String
  | jobCreate => "dispatcher.job.create"
  | jobDestroy => "dispatcher.job.destroy"
  | processCreate => "dispatcher.process.create"
  | processDestroy => "dispatcher.process.destroy"
  | viewCreate => "dispatcher.vmo.create"
  | viewDestroy => "dispatcher.vmo.destroy"
  | arenaExhausted => "handle.arena.exhausted"

end Meter

/-- The kernel's counters. -/
structure Counters where
  jobCreate : Nat := 0
  jobDestroy : Nat := 0
  processCreate : Nat := 0
  processDestroy : Nat := 0
  viewCreate : Nat := 0
  viewDestroy : Nat := 0
  arenaExhausted : Nat := 0
  deriving DecidableEq, Repr

namespace Counters

/-- What a counter shows. -/
def get (c : Counters) : Meter → Nat
  | .jobCreate => c.jobCreate
  | .jobDestroy => c.jobDestroy
  | .processCreate => c.processCreate
  | .processDestroy => c.processDestroy
  | .viewCreate => c.viewCreate
  | .viewDestroy => c.viewDestroy
  | .arenaExhausted => c.arenaExhausted

/-- One more event of a kind. -/
def bump (c : Counters) : Meter → Counters
  | .jobCreate => { c with jobCreate := Word.addWrap c.jobCreate 1 }
  | .jobDestroy => { c with jobDestroy := Word.addWrap c.jobDestroy 1 }
  | .processCreate => { c with processCreate := Word.addWrap c.processCreate 1 }
  | .processDestroy => { c with processDestroy := Word.addWrap c.processDestroy 1 }
  | .viewCreate => { c with viewCreate := Word.addWrap c.viewCreate 1 }
  | .viewDestroy => { c with viewDestroy := Word.addWrap c.viewDestroy 1 }
  | .arenaExhausted => { c with arenaExhausted := Word.addWrap c.arenaExhausted 1 }

/-- Every counter by name. -/
def dump (c : Counters) : List (String × Nat) := Meter.all.map fun m => (m.name, c.get m)

/-- The counters that differ from an earlier reading, with their new values. -/
def changedSince (now old : Counters) : List (String × Nat) :=
  (Meter.all.filter fun m => decide (now.get m ≠ old.get m)).map fun m => (m.name, now.get m)

end Counters

end KernelObjects
