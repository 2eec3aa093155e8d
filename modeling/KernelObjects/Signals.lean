/-
# Signals: the state bits of an object

Every object shows 32 bits of state.  The meaning of a bit depends on the type of the object, so a
task's "terminated" and a VM object's "no clones" share one position.
-/

namespace KernelObjects

/-- The state bits of an object. -/
structure Signals where
  bits : BitVec 32
  deriving DecidableEq, Repr

namespace Signals

/-- No bit is set. -/
def empty : Signals := ⟨0⟩

instance : Union Signals := ⟨fun a b => ⟨a.bits ||| b.bits⟩⟩

instance : HasSubset Signals := ⟨fun a b => a.bits &&& b.bits = a.bits⟩

instance (a b : Signals) : Decidable (a ⊆ b) := inferInstanceAs (Decidable (_ = _))

theorem subset_self (x : Signals) : x ⊆ x := BitVec.and_self

theorem subset_trans {x y z : Signals} (h : x ⊆ y) (h' : y ⊆ z) : x ⊆ z := by
  have h : x.bits &&& y.bits = x.bits := h
  have h' : y.bits &&& z.bits = y.bits := h'
  show x.bits &&& z.bits = x.bits
  rw [← h, BitVec.and_assoc, h']

/-- The task (process or job) has terminated. -/
def taskTerminated : Signals := ⟨8⟩

/-- The job has no child jobs. -/
def noJobs : Signals := ⟨16⟩

/-- The job has no child processes. -/
def noProcesses : Signals := ⟨32⟩

/-- The VM object has no clones. -/
def noClones : Signals := ⟨8⟩

/-- Every bit that has a meaning for some type of object. -/
def all : Signals := taskTerminated ∪ noJobs ∪ noProcesses ∪ noClones

/-- Clears some bits and then sets others, so a bit in both ends up set. -/
def update (old clear set : Signals) : Signals := ⟨(old.bits &&& ~~~ clear.bits) ||| set.bits⟩

theorem subset_update (s clear set : Signals) : set ⊆ s.update clear set := by
  refine show set.bits &&& _ = set.bits from BitVec.eq_of_getLsbD_eq fun i hi => ?_
  simp only [update, BitVec.getLsbD_and, BitVec.getLsbD_or]
  cases set.bits.getLsbD i <;> simp

/-- An update that clears nothing keeps every signal. -/
theorem subset_update_empty (x set : Signals) : x ⊆ x.update .empty set := by
  refine show x.bits &&& _ = x.bits from BitVec.eq_of_getLsbD_eq fun i hi => ?_
  simp only [update, empty, BitVec.getLsbD_and, BitVec.getLsbD_or, BitVec.getLsbD_not]
  cases x.bits.getLsbD i <;> simp [hi]

end Signals

end KernelObjects
