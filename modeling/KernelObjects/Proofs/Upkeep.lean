import KernelObjects.Proofs.Inert

/-
# The upkeep of jobs

A job that loses a child shows that it is empty, may have to die and give up its ports, and calls
its halt handler if it is a root job.  All that is about the record and the signals of this one
job, about ports, and about the trace (`Upkeep`).  The functions that do it are opened here for
whoever does not look into jobs; such a view of the state needs one lemma on upkeep.

What the job becomes is left open.  Whoever does look into jobs opens the same functions for
themselves, since for them the order in which things are written is what matters.
-/

namespace KernelObjects

/-- Two states that differ by what a job goes through. -/
inductive Upkeep (k : Koid) : System → System → Prop
  | refl {s : System} : Upkeep k s s
  | trans {s t u : System} (h : Upkeep k s t) (h' : Upkeep k t u) : Upkeep k s u
  | job {s : System} (f : Job → Job) : Upkeep k s (s.modifyJob k f)
  | shown {s : System} (h : s.jobs.contains k) (set : Signals) :
      Upkeep k s (s.signal k .empty set)
  | unbound {s : System} (slot : Option PortId) : Upkeep k s (s.unbindSlot slot)
  | killed {s : System} (code : Int) : Upkeep k s (s.log (.jobKilled k code))
  | died {s : System} : Upkeep k s (s.log (.jobDied k))
  | halted {s : System} (alive : List Koid) : Upkeep k s (s.log (.halted k alive))

namespace Upkeep

variable {k : Koid} {s t u : System}

theorem ite {c : Prop} [Decidable c] (h : Upkeep k s t) (h' : Upkeep k s u) :
    Upkeep k s (if c then t else u) := by
  split
  · exact h
  · exact h'

/-- Views are no jobs, and are left alone. -/
theorem views (h : Upkeep k s t) : t.views = s.views := by
  induction h with
  | trans _ _ ih ih' => exact ih'.trans ih
  | unbound slot => cases slot <;> rfl
  | _ => rfl

/-- No job comes or goes. -/
theorem contains (h : Upkeep k s t) (a : Nat) : t.jobs.contains a = s.jobs.contains a := by
  induction h with
  | trans _ _ ih ih' => exact ih'.trans ih
  | job f => exact Store.contains_modify _ _ f a
  | unbound slot => cases slot <;> rfl
  | _ => rfl

end Upkeep

namespace System

variable (s : System) (k : Koid)

/-- A job that dies is buried, gives up its two ports, and shows it. -/
theorem markDead_upkeep : Upkeep k s (s.markDead k) := by
  unfold markDead
  cases hj : s.jobs[k]? with
  | none => exact .refl
  | some j =>
    have hburied : Upkeep k s (s.modifyJob k fun j =>
        { j with state := .dead, port := none, debuggerPort := none }) := .job _
    have hunbound := (hburied.trans (.unbound j.port)).trans (.unbound j.debuggerPort)
    refine (hunbound.trans (.shown ?_ _)).trans .died
    rw [hunbound.contains]
    exact Store.contains_iff.2 ⟨j, hj⟩

theorem halt_upkeep : Upkeep k s (s.halt k) := by
  unfold halt
  split
  · exact .refl
  · exact .ite (.halted _) .refl

/-- The loss of a child may bring death and, for a root, a halt; in either case the signals are
updated in between. -/
theorem childLeft_upkeep : Upkeep k s (s.childLeft k) := by
  unfold childLeft
  cases hj : s.jobs[k]? with
  | none => exact .refl
  | some j =>
    dsimp only
    have hdies : Upkeep k s (if (j.processes.isEmpty && j.jobs.isEmpty) && j.state = .killing
        then s.markDead k else s) := .ite (s.markDead_upkeep k) .refl
    have hlatched := Upkeep.ite (c := ((j.processes.isEmpty && j.jobs.isEmpty) &&
      j.parent.isNone && !j.halted) = true)
      (hdies.trans (.job fun j => { j with halted := true })) hdies
    have hshown := hlatched.trans (.shown (by
      rw [hlatched.contains]
      exact Store.contains_iff.2 ⟨j, hj⟩) (departureSignals j))
    exact .ite (hshown.trans (halt_upkeep _ k)) hshown

theorem detachProcess_upkeep (p : Koid) : Upkeep k s (s.detachProcess k p) := by
  unfold detachProcess
  split
  · exact .refl
  · exact .ite (.trans (.job _) (childLeft_upkeep _ k)) .refl

theorem detachJob_upkeep (c : Koid) : Upkeep k s (s.detachJob k c) := by
  unfold detachJob
  split
  · exact .refl
  · exact .ite (.trans (.job _) (childLeft_upkeep _ k)) .refl

end System

end KernelObjects
