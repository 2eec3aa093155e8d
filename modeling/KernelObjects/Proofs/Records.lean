import KernelObjects.Proofs.Chores
import KernelObjects.Proofs.KillReach
import KernelObjects.Proofs.JobLists

/-
# What is on record

Who is the parent of a job, which jobs it lists and which policy it has; which job, table, state
and policy a process has; the registry of jobs; which tables are open; and how many jobs,
processes and views were created and destroyed: that is what is on record (`System.records`).
Handles, memory, names, signals and ports are not.

Few things change the record.  Whatever is given back, killed or walked over does so in six ways
(`Strike`), since all else goes on beside the record.  An operation adds at most one entry of its
own (`Opening`), and what follows from that are strikes (`World.act_opens`).  So what openings and
strikes keep holds in every reachable state.

The record and the dues are looked at together in one place: a table whose process is gone is open
and owed, and it is struck off when the task that closes it is done.  So strikes relate worlds and
not states.

What the lists of processes say is left out on purpose.  They are written by hand by some clients,
and nothing that is claimed of the record depends on them.
-/

namespace KernelObjects

theorem Store.size_insert_of_none {α : Type} {s : Store α} {k : Nat} (h : s[k]? = none) (v : α) :
    (s.insert k v).size = s.size + 1 := by
  have hmem : s.contains k = false := Store.contains_eq_false_iff.2 h
  rw [Std.ExtTreeMap.size_insert, if_neg (by rw [hmem]; exact Bool.false_ne_true)]

theorem Store.size_erase_of_some {α : Type} {s : Store α} {k : Nat} {v : α} (h : s[k]? = some v) :
    (s.erase k).size = s.size - 1 := by
  have hmem : s.contains k = true := Store.contains_iff.2 ⟨v, h⟩
  rw [Std.ExtTreeMap.size_erase, if_pos hmem]

theorem Store.size_pos_of_some {α : Type} {s : Store α} {k : Nat} {v : α} (h : s[k]? = some v) :
    0 < s.size := Nat.lt_of_le_of_lt (Nat.zero_le _) (size_erase_lt h)

/-! ## 1. The record

What is entered and struck out, each with the books that it moves. -/

/-- What is on record of a job. -/
structure Job.Record where
  parent : Option Koid
  jobs : List Koid
  policy : Policy

/-- What is on record of a job. -/
def Job.record (j : Job) : Job.Record := ⟨j.parent, j.jobs, j.policy⟩

/-- What is on record of a process. -/
structure Process.Record where
  job : Koid
  table : TableId
  state : ProcessState
  policy : Policy

/-- What is on record of a process. -/
def Process.record (p : Process) : Process.Record := ⟨p.job, p.table, p.state, p.policy⟩

/-- How many things of a kind were created and destroyed, as counted, and how many there are. -/
structure Tally where
  created : Nat
  destroyed : Nat
  live : Nat

namespace Tally

/-- One more is there. -/
def born (t : Tally) : Tally :=
  { t with created := Word.addWrap t.created 1, live := t.live + 1 }

/-- One is gone. -/
def gone (t : Tally) : Tally :=
  { t with destroyed := Word.addWrap t.destroyed 1, live := t.live - 1 }

end Tally

/-- What is on record of jobs, processes, tables and views, the registry among it. -/
structure Records where
  nextKoid : Koid
  registry : List Koid
  job : Koid → Option Job.Record
  process : Koid → Option Process.Record
  table : TableId → Bool
  jobs : Tally
  processes : Tally
  views : Tally

namespace Records

variable (r : Records)

/-- Enters a job, or strikes it out. -/
def setJob (k : Koid) (x : Option Job.Record) : Records :=
  { r with job := fun a => if k = a then x else r.job a }

/-- Enters a process, or strikes it out. -/
def setProcess (k : Koid) (x : Option Process.Record) : Records :=
  { r with process := fun a => if k = a then x else r.process a }

/-- Enters a table, or strikes it out. -/
def setTable (t : TableId) (x : Bool) : Records :=
  { r with table := fun a => if t = a then x else r.table a }

/-- Changes the list of jobs of a job. -/
def relist (k : Koid) (f : List Koid → List Koid) : Records :=
  { r with job := fun a =>
      if k = a then (r.job a).map fun j => { j with jobs := f j.jobs } else r.job a }

/-- A job is destroyed: its parent does not list it any more. -/
def jobGone (k : Koid) (parent : Option Koid) : Records :=
  { match parent with
    | none => r.setJob k none
    | some p => (r.setJob k none).relist p (·.erase k) with
    registry := r.registry.filter (· ≠ k), jobs := r.jobs.gone }

/-- A process is struck out, and that is booked. -/
def processGone (k : Koid) : Records :=
  { r.setProcess k none with processes := r.processes.gone }

/-- A view has no record of its own, so only the books show its end. -/
def viewGone : Records := { r with views := r.views.gone }

/-- A process is dead. -/
def ended (k : Koid) (p : Process.Record) : Records :=
  r.setProcess k (some { p with state := .dead })

/-- A new root job is registered last. -/
def rootBorn (policy : Policy) : Records :=
  { r.setJob r.nextKoid (some ⟨none, [], policy⟩) with
    nextKoid := r.nextKoid + 1
    registry := r.registry ++ [r.nextKoid]
    jobs := r.jobs.born }

/-- A new child job has the policy of its parent and is registered after the last one that the
parent lists. -/
def childEntered (p : Koid) (q : Job.Record) : Records :=
  { r.setJob r.nextKoid (some ⟨some p, [], q.policy⟩) with
    nextKoid := r.nextKoid + 1
    registry := System.insertAfter (q.jobs.getLastD p) r.nextKoid r.registry
    jobs := r.jobs.born }

/-- The parent lists the new child. -/
def childBorn (p : Koid) (q : Job.Record) : Records :=
  (r.childEntered p q).relist p (· ++ [r.nextKoid])

/-- A new process has the policy of its job and a new table. -/
def processBorn (job : Koid) (q : Job.Record) (table : TableId) : Records :=
  { (r.setProcess r.nextKoid (some ⟨job, table, .running, q.policy⟩)).setTable table true with
    nextKoid := r.nextKoid + 1
    processes := r.processes.born }

/-- A view takes a koid, and is booked. -/
def viewBorn : Records := { r with nextKoid := r.nextKoid + 1, views := r.views.born }

variable {r}

/-- A list that stays the same. -/
theorem relist_self {k : Koid} {f : List Koid → List Koid}
    (h : ∀ j, r.job k = some j → f j.jobs = j.jobs) : r.relist k f = r := by
  have hjob : (fun a => if k = a then (r.job a).map fun j => { j with jobs := f j.jobs }
      else r.job a) = r.job := by
    funext a
    split
    · rename_i hk
      subst hk
      cases hj : r.job k with
      | none => rfl
      | some j => rw [Option.map_some, h j hj]
    · rfl
  unfold relist
  rw [hjob]

end Records

namespace System

/-- The record of a state.  The books have both counters of a kind and the number of things that
are there. -/
def records (s : System) : Records where
  nextKoid := s.nextKoid
  registry := s.registry
  job k := s.jobs[k]?.map Job.record
  process k := s.processes[k]?.map Process.record
  table t := s.tables.contains t
  jobs := ⟨s.counters.jobCreate, s.counters.jobDestroy, s.jobs.size⟩
  processes := ⟨s.counters.processCreate, s.counters.processDestroy, s.processes.size⟩
  views := ⟨s.counters.viewCreate, s.counters.viewDestroy, s.views.size⟩

theorem job_record {s : System} {k : Koid} {j : Job} (h : s.jobs[k]? = some j) :
    s.records.job k = some j.record := by
  show s.jobs[k]?.map _ = _
  rw [h]
  rfl

theorem process_record {s : System} {k : Koid} {p : Process} (h : s.processes[k]? = some p) :
    s.records.process k = some p.record := by
  show s.processes[k]?.map _ = _
  rw [h]
  rfl

/-- Before anything happened there is nothing on record. -/
theorem job_initial (k : Koid) : initial.records.job k = none := by simp [records, initial]

theorem process_initial (k : Koid) : initial.records.process k = none := by
  simp [records, initial]

/-! ## 2. What goes on beside the record

The lemmas follow the functions in the order in which they call each other. -/

section Frame

variable (s : System)

/-- Jobs of which the same is on record. -/
theorem records_jobs {jobs : Store Job}
    (h : ∀ k : Nat, jobs[k]?.map Job.record = s.jobs[k]?.map Job.record)
    (hsize : jobs.size = s.jobs.size) : ({ s with jobs } : System).records = s.records := by
  unfold records
  simp only [h, hsize]

theorem records_processes {processes : Store Process}
    (h : ∀ k : Nat, processes[k]?.map Process.record = s.processes[k]?.map Process.record)
    (hsize : processes.size = s.processes.size) :
    ({ s with processes } : System).records = s.records := by
  unfold records
  simp only [h, hsize]

theorem records_tables {tables : Store Table}
    (h : ∀ t : Nat, tables.contains t = s.tables.contains t) :
    ({ s with tables } : System).records = s.records := by
  unfold records
  simp only [h]

theorem records_modifyJob {k : Koid} {f : Job → Job}
    (h : ∀ j, s.jobs[k]? = some j → (f j).record = j.record) :
    (s.modifyJob k f).records = s.records :=
  s.records_jobs (Store.map_modify h) Std.ExtTreeMap.size_modify

theorem records_modifyProcess {k : Koid} {f : Process → Process}
    (h : ∀ p, s.processes[k]? = some p → (f p).record = p.record) :
    (s.modifyProcess k f).records = s.records :=
  s.records_processes (Store.map_modify h) Std.ExtTreeMap.size_modify

@[simp] theorem records_log (e : Event) : (s.log e).records = s.records := rfl

@[simp] theorem records_signal (k : Koid) (clear set : Signals) :
    (s.signal k clear set).records = s.records := rfl

@[simp] theorem records_unbindSlot (slot : Option PortId) :
    (s.unbindSlot slot).records = s.records := by
  cases slot <;> rfl

@[simp] theorem records_setProcess (process : Nat) (h : HandleId) :
    (s.setProcess process h).records = s.records := rfl

@[simp] theorem records_setOwned (t : TableId) (owned : Store HandleId) :
    (s.setOwned t owned).records = s.records :=
  s.records_tables fun _ => Store.contains_modify _ _ _ _

@[simp] theorem records_openSharedArena : s.openSharedArena.records = s.records := by
  rw [openSharedArena_eq]
  split <;> rfl

/-! ### Jobs -/

@[simp] theorem records_markDead (k : Koid) : (s.markDead k).records = s.records := by
  unfold markDead
  split
  · rfl
  · dsimp only
    rw [records_log, records_signal, records_unbindSlot, records_unbindSlot]
    exact s.records_modifyJob fun _ _ => rfl

@[simp] theorem records_halt (k : Koid) : (s.halt k).records = s.records := by
  unfold halt
  repeat' split
  all_goals rfl

@[simp] theorem records_childLeft (k : Koid) : (s.childLeft k).records = s.records := by
  unfold childLeft
  split
  · rfl
  · dsimp only
    have hhalted : ∀ t : System, (t.modifyJob k fun j => { j with halted := true }).records =
        t.records := fun t => t.records_modifyJob fun _ _ => rfl
    repeat' split
    all_goals simp [hhalted]

theorem records_attachProcess (k p : Koid) : (s.attachProcess k p).2.records = s.records := by
  unfold attachProcess attach
  split
  · rfl
  · split
    · rw [records_signal]
      exact s.records_modifyJob fun _ _ => rfl
    · rfl

@[simp] theorem records_detachProcess (k p : Koid) : (s.detachProcess k p).records = s.records := by
  unfold detachProcess
  split
  · rfl
  · split
    · rw [records_childLeft]
      exact s.records_modifyJob fun _ _ => rfl
    · rfl

theorem records_relist {k : Koid} {f : Job → Job} {g : List Koid → List Koid}
    (h : ∀ j, s.jobs[k]? = some j → (f j).record = { j.record with jobs := g j.jobs }) :
    (s.modifyJob k f).records = s.records.relist k g := by
  have hjob : ∀ a : Nat, (s.jobs.modify k f)[a]?.map Job.record =
      if k = a then (s.jobs[a]?.map Job.record).map fun j => { j with jobs := g j.jobs }
      else s.jobs[a]?.map Job.record := by
    intro a
    rw [Store.getElem?_modify]
    split
    · rename_i hk
      subst hk
      cases hj : s.jobs[k]? with
      | none => rfl
      | some j => exact congrArg some (h j hj)
    · rfl
  unfold records Records.relist modifyJob
  simp only [hjob, Std.ExtTreeMap.size_modify]

@[simp] theorem records_detachJob (k c : Koid) :
    (s.detachJob k c).records = s.records.relist k (·.erase c) := by
  unfold detachJob
  cases hj : s.jobs[k]? with
  | none =>
    refine (Records.relist_self fun j h => ?_).symm
    have h : s.jobs[k]?.map Job.record = some j := h
    rw [hj] at h
    cases h
  | some j =>
    dsimp only
    split
    · rw [records_childLeft]
      exact s.records_relist fun _ _ => rfl
    · rename_i hc
      refine (Records.relist_self fun i h => ?_).symm
      rw [job_record hj] at h
      cases h
      exact List.erase_of_not_mem hc

/-! ### VM objects and mappings -/

@[simp] theorem records_tellWatcher (v : VmoId) (b : Bool) :
    (s.tellWatcher v b).records = s.records := by
  unfold tellWatcher
  split
  · rfl
  · split
    · cases b <;> rfl
    · rfl
  · split <;> rfl

@[simp] theorem records_forgetClone (v c : VmoId) : (s.forgetClone v c).records = s.records := by
  obtain ⟨families, hdropped, -⟩ := s.dropClone_eq v c
  obtain he | he := s.forgetClone_cases v c
  · rw [he, hdropped]
    rfl
  · rw [he, records_tellWatcher, hdropped]
    rfl

@[simp] theorem records_zeroHandles (k : Koid) : (s.zeroHandles k).records = s.records := by
  unfold zeroHandles
  dsimp only
  split <;> rfl

theorem records_destroyVmo (v : VmoId) : (s.destroyVmo v).1.records = s.records := by
  unfold destroyVmo
  split
  · rfl
  · dsimp only
    split
    · rfl
    · exact records_forgetClone { s with vmos := s.vmos.erase v, vmoList := s.vmoList.erase v } _ _

/-! ### Handles -/

theorem records_closeHandle (h : HandleId) : (s.closeHandle h).1.records = s.records := by
  unfold closeHandle
  split
  · rfl
  · dsimp only
    split
    · exact records_zeroHandles _ _
    · rfl

theorem records_makeHandle (arena : ArenaId) (k : Koid) (rights : Rights) (mayGrow : Bool) :
    (s.makeHandle arena k rights mayGrow).2.records = s.records := by
  obtain he | he | ⟨a, -, -, he⟩ := s.makeHandle_cases arena k rights mayGrow
  · rw [he]
  · rw [he]
    rfl
  · rw [he]
    rfl

theorem records_duplicateHandle (h : HandleId) (rights : Rights) :
    (s.duplicateHandle h rights).2.records = s.records := by
  obtain he | ⟨r, -, he⟩ := s.duplicateHandle_cases h rights
  · rw [he]
  · rw [he]
    exact s.records_makeHandle _ _ _ _

end Frame

end System

/-! ### Edits -/

theorem Job.Edit.record {a : Topic} {j j' : Job} (h : j.Edit a j') (ha : a ≠ .policies) :
    j'.record = j.record := by
  cases h with
  | name | mark => rfl
  | policy => exact absurd rfl ha
  | slot b p => cases b <;> rfl

theorem Process.Edit.record {a : Topic} {p p' : Process} (h : p.Edit a p') :
    p'.record = p.record := by
  cases h <;> rfl

/-- Only an edit of a policy is on record. -/
theorem Edit.records {a : Topic} {s t : System} (h : Edit a s t) (ha : a ≠ .policies) :
    t.records = s.records := by
  induction h with
  | refl | config | space | vmo | member | owner | unmapped => rfl
  | trans _ _ ih ih' => exact (ih' ha).trans (ih ha)
  | job h => exact System.records_modifyJob _ fun j hj => (h j hj).record ha
  | process h => exact System.records_modifyProcess _ fun p hp => (h p hp).record
  | owned t owned => exact System.records_setOwned _ t owned

namespace System

/-! ## 3. Destruction

A job that is destroyed is struck out and leaves the registry and its parent's list; of a process
or a view only the entry goes. -/

/-- A destroyed job leaves the list of its parent and the registry. -/
theorem records_destroyObject_job {s : System} {k : Koid} {j : Job} (hj : s.jobs[k]? = some j) :
    (s.destroyObject k).1.records = s.records.jobGone k j.parent := by
  have hgone : ({ s with objects := s.objects.erase k, jobs := s.jobs.erase k } : System).records =
      { s.records.setJob k none with
        jobs := { s.records.jobs with live := s.records.jobs.live - 1 } } := by
    have hjob : (fun a : Nat => (s.jobs.erase k)[a]?.map Job.record) =
        fun a : Nat => if k = a then none else s.jobs[a]?.map Job.record := by
      funext a
      rw [Store.getElem?_erase]
      split <;> rfl
    unfold records Records.setJob
    simp only [hjob, Store.size_erase_of_some hj]
  -- The books follow whatever happens to the parent, and write to nothing that the parent writes
  -- to.
  have hbooks : ∀ t : System,
    (((t.unregister k).bump .jobDestroy).log (.destroyed k none)).records =
      { t.records with
        registry := t.records.registry.filter (· ≠ k)
        jobs := { t.records.jobs with
          destroyed := Word.addWrap t.records.jobs.destroyed 1 } } := fun _ => rfl
  unfold destroyObject
  dsimp only
  rw [hj]
  dsimp only
  rw [hbooks]
  cases j.parent with
  | none =>
    dsimp only
    rw [hgone]
    rfl
  | some p =>
    dsimp only
    rw [records_detachJob, hgone]
    rfl

theorem records_destroyObject_process {s : System} {k : Koid} {p : Process}
    (hj : s.jobs[k]? = none) (hp : s.processes[k]? = some p) :
    (s.destroyObject k).1.records = s.records.processGone k := by
  have hgone : ({ s with objects := s.objects.erase k, processes := s.processes.erase k }
      : System).records = { s.records.setProcess k none with
        processes := { s.records.processes with live := s.records.processes.live - 1 } } := by
    have hprocess : (fun a : Nat => (s.processes.erase k)[a]?.map Process.record) =
        fun a : Nat => if k = a then none else s.processes[a]?.map Process.record := by
      funext a
      rw [Store.getElem?_erase]
      split <;> rfl
    unfold records Records.setProcess
    simp only [hprocess, Store.size_erase_of_some hp]
  have hbooks : ∀ t : System, ((t.bump .processDestroy).log (.destroyed k none)).records =
      { t.records with processes := { t.records.processes with
          destroyed := Word.addWrap t.records.processes.destroyed 1 } } := fun _ => rfl
  unfold destroyObject
  dsimp only
  rw [hj, hp]
  dsimp only
  rw [hbooks, records_detachProcess, hgone]
  rfl

theorem records_destroyObject_view {s : System} {k : Koid} {v : View} (hj : s.jobs[k]? = none)
    (hp : s.processes[k]? = none) (hv : s.views[k]? = some v) :
    (s.destroyObject k).1.records = s.records.viewGone := by
  have hgone : ({ s with objects := s.objects.erase k, views := s.views.erase k }
      : System).records = { s.records with
        views := { s.records.views with live := s.records.views.live - 1 } } := by
    unfold records
    simp only [Store.size_erase_of_some hv]
  have hbooks : ∀ t : System, ((t.bump .viewDestroy).log (.destroyed k none)).records =
      { t.records with views := { t.records.views with
          destroyed := Word.addWrap t.records.views.destroyed 1 } } := fun _ => rfl
  unfold destroyObject
  dsimp only
  rw [hj, hp, hv]
  dsimp only
  rw [hbooks, hgone]
  rfl

end System

/-! ## 4. Strikes

A strike is a change of the record together with the dues: a table that is left behind by its
process is due to be closed from then on. -/

namespace World

/-- Whether a table has been given back and is still to be closed. -/
def closing (w : World) (t : TableId) : Prop := Task.closeTable t ∈ w.dues

/-- One of the ways in which the record changes when things are given back, killed or lent. -/
inductive Strike : World → World → Prop
  /-- All else. -/
  | aside {v w : World} (h : w.system.records = v.system.records)
      (hd : ∀ t, v.closing t → w.closing t) : Strike v w
  /-- A job that has no child is destroyed. -/
  | job {v w : World} {k : Koid} {j : Job.Record} (hj : v.system.records.job k = some j)
      (hleft : ∀ c i, v.system.records.job c = some i → i.parent ≠ some k)
      (hlive : 0 < v.system.records.jobs.live)
      (h : w.system.records = v.system.records.jobGone k j.parent)
      (hd : ∀ t, v.closing t → w.closing t) : Strike v w
  /-- A process is destroyed, and its table is to be closed. -/
  | process {v w : World} {k : Koid} {p : Process.Record}
      (hp : v.system.records.process k = some p) (hlive : 0 < v.system.records.processes.live)
      (h : w.system.records = v.system.records.processGone k)
      (hd : ∀ t, v.closing t ∨ t = p.table → w.closing t) : Strike v w
  | view {v w : World} (hlive : 0 < v.system.records.views.live)
      (h : w.system.records = v.system.records.viewGone)
      (hd : ∀ t, v.closing t → w.closing t) : Strike v w
  | ended {v w : World} {k : Koid} {p : Process.Record}
      (hp : v.system.records.process k = some p)
      (h : w.system.records = v.system.records.ended k p)
      (hd : ∀ t, v.closing t → w.closing t) : Strike v w
  | table {v w : World} {t : TableId} (h : w.system.records = v.system.records.setTable t false)
      (hd : ∀ u, u ≠ t → v.closing u → w.closing u) : Strike v w

/-- Any number of strikes. -/
abbrev Strikes : World → World → Prop := Relation.ReflTransGen Strike

end World

namespace System

open World (Strike Strikes)

variable {s t : System} {d e : List Task}

theorem records_destroyHandle (s : System) (h : HandleId) :
    (s.destroy (.handle h)).1.records = s.records := by
  simp only [destroy]
  split <;> rfl

theorem destroyObject_strike {k : Koid} (hacc : Accounted s (.release (.object k) :: d))
    (h1 : s.refCount (.object k) = 1) (refs : RefCounts) :
    Strike ⟨s, .release (.object k) :: d⟩
      ⟨(destroyObject { s with refs } k).1, (destroyObject { s with refs } k).2 ++ d⟩ := by
  have hrecords : ({ s with refs } : System).records = s.records := rfl
  have hkeep : ∀ {x : List Task} (t : TableId),
      Task.closeTable t ∈ .release (.object k) :: d → .closeTable t ∈ x ++ d := by
    intro x t ht
    rcases List.mem_cons.1 ht with ht | ht
    · cases ht
    · exact List.mem_append_right x ht
  cases hj : s.jobs[k]? with
  | some j =>
    refine .job (k := k) (job_record hj) (fun c i hc hp => ?_) (Store.size_pos_of_some hj)
      (records_destroyObject_job (s := { s with refs }) hj) fun t => hkeep t
    -- a child would hold the job
    obtain ⟨q, hq, rfl⟩ := Option.map_eq_some_iff.1 hc
    have hheld := held_of_parent hq hp
    rw [hacc.held_eq_zero h1] at hheld
    exact Nat.lt_irrefl 0 hheld
  | none =>
    cases hp : s.processes[k]? with
    | some p =>
      refine .process (process_record hp) (Store.size_pos_of_some hp)
        (records_destroyObject_process (s := { s with refs }) hj hp) fun t ht => ?_
      rcases ht with ht | rfl
      · exact hkeep t ht
      · have hdue : Task.closeTable p.table ∈ (destroyObject { s with refs } k).2 := by
          unfold destroyObject
          dsimp only
          rw [hj, hp]
          simp
        exact List.mem_append_left d hdue
    | none =>
      cases hv : s.views[k]? with
      | some v =>
        exact .view (Store.size_pos_of_some hv)
          (records_destroyObject_view (s := { s with refs }) hj hp hv) fun t => hkeep t
      | none =>
        refine .aside ?_ fun t => hkeep t
        unfold destroyObject
        dsimp only
        rw [hj, hp, hv]
        cases s.witnesses[k]? <;> rfl

/-- **What one task does to the record.** -/
theorem perform_strike {x : Task} (hacc : Accounted s (x :: d)) :
    Strike ⟨s, x :: d⟩ ⟨(s.perform x).1, (s.perform x).2 ++ d⟩ := by
  have hkeep : ∀ {y : List Task} (t : TableId), x ≠ .closeTable t →
      Task.closeTable t ∈ x :: d → .closeTable t ∈ y ++ d := by
    intro y t hx ht
    rcases List.mem_cons.1 ht with ht | ht
    · exact absurd ht.symm hx
    · exact List.mem_append_right y ht
  -- only the release of an object and the closing of a table are on record; what follows from the
  -- other tasks is due and goes on beside it
  cases x with
  | release r =>
    unfold perform
    dsimp only
    split
    · exact .aside rfl fun t => hkeep t (by simp)
    · rename_i h1
      cases r with
      | object k => exact destroyObject_strike hacc h1 _
      | vmo v =>
        exact .aside (records_destroyVmo { s with refs := _ } v) fun t => hkeep t (by simp)
      | handle h =>
        exact .aside (records_destroyHandle { s with refs := _ } h) fun t => hkeep t (by simp)
      | mapping m => exact .aside rfl fun t => hkeep t (by simp)
      | listener o => exact .aside rfl fun t => hkeep t (by simp)
    · exact .aside rfl fun t => hkeep t (by simp)
  | close h => exact .aside (s.records_closeHandle h) fun t => hkeep t (by simp)
  | closeTable i =>
    refine .table (t := i) ?_ fun t ht => hkeep t (by simpa using Ne.symm ht)
    have hsame : s.tables[i]? = none → s.records = s.records.setTable i false := by
      intro hi
      have htable : (fun a : Nat => if i = a then false else s.tables.contains a) =
          fun a : Nat => s.tables.contains a := by
        funext a
        split
        · rename_i ha
          exact (Store.contains_eq_false_iff.2 (ha ▸ hi)).symm
        · rfl
      unfold records Records.setTable
      simp only [htable]
    unfold perform
    dsimp only
    cases hi : s.tables[i]? with
    | none => exact hsame hi
    | some table =>
      have htable : (fun a : Nat => (s.tables.erase i).contains a) =
          fun a : Nat => if i = a then false else s.tables.contains a := by
        funext a
        rw [Store.contains_eq_isSome, Store.getElem?_erase]
        split
        · rfl
        · exact (Store.contains_eq_isSome _ _).symm
      unfold records Records.setTable
      simp only [htable]

theorem records_endProcess {s : System} {k : Koid} {p : Process} (code : Int)
    (hp : s.processes[k]? = some p) :
    (s.endProcess code k).records = s.records.ended k p.record := by
  have hprocess : ∀ a : Nat, (s.processes.modify k fun p =>
      { p with state := .dead, returnCode := code })[a]?.map Process.record =
        if k = a then some { p.record with state := .dead }
        else s.processes[a]?.map Process.record := by
    intro a
    rw [Store.getElem?_modify]
    split
    · rename_i hk
      rw [← hk, hp]
      rfl
    · rfl
  show (s.modifyProcess k fun p => { p with state := .dead, returnCode := code }).records = _
  unfold records Records.ended Records.setProcess modifyProcess
  simp only [hprocess, Std.ExtTreeMap.size_modify]

theorem records_commitKill (s : System) (code : Int) (k : Koid) (j : Job) :
    (s.commitKill code k j).records = s.records := by
  have hkilling :
    (s.modifyJob k fun j => { j with returnCode := code, state := .killing }).records =
      s.records := s.records_modifyJob fun _ _ => rfl
  unfold commitKill
  dsimp only
  split
  · rw [records_markDead]
    exact hkilling
  · exact hkilling

end System

/-- **What one chore does to the record.** -/
theorem Chore.strike {op : Op} {v w : World} (h : Chore op v w)
    (hacc : Accounted v.system v.dues) : World.Strike v w := by
  -- What is on record shrinks by one task, or when a process ends.  The other chores show in the
  -- dues at most.
  cases h with
  | reorder h => exact .aside rfl fun _ ht => h.mem_iff.1 ht
  | share h => exact .aside rfl fun _ ht => List.mem_cons_of_mem _ ht
  | perform x => exact System.perform_strike hacc
  | @emptied s d t table ht =>
    obtain ⟨handles, he, -⟩ := s.emptied_eq t table
    refine .aside ?_ fun u hu => List.mem_append_right _ hu
    dsimp only
    rw [he]
    exact s.records_setOwned t ∅
  | ended _ hp _ =>
    exact .ended (System.process_record hp) (System.records_endProcess _ hp) fun _ ht => ht
  | left k p => exact .aside (System.records_detachProcess _ k p) fun _ ht => ht
  | condemned _ _ _ => exact .aside (System.records_commitKill _ _ _ _) fun _ ht => ht
  | told k => exact .aside (System.records_zeroHandles _ k) fun _ ht => ht
  | @made s d k arena rights mayGrow hk =>
    have hrecords := s.records_makeHandle arena k rights mayGrow
    generalize s.makeHandle arena k rights mayGrow = r at hrecords
    obtain ⟨_ | h, t⟩ := r
    · exact .aside hrecords fun _ ht => ht
    · exact .aside hrecords fun _ ht => List.mem_cons_of_mem _ ht
  | @adopted s d t table h r ht hh =>
    refine .aside ?_ fun i hi => ?_
    · dsimp only
      rw [System.records_setOwned, System.records_setProcess]
    · rcases List.mem_cons.1 hi with hi | hi
      · cases hi
      · exact List.mem_append_right _ hi
  | @unslotted s d refuses k j p debugger _ _ _ =>
    refine .aside (s.records_modifyJob fun j _ => ?_) fun _ ht => ht
    cases debugger <;> rfl
  | @dropped s d p k => exact .aside (s.records_modifyProcess fun _ _ => rfl) fun _ ht => ht

/-- **Chores are a run of strikes.** -/
theorem Chores.strikes {op : Op} {v w : World} (h : Chores op v w)
    (hacc : Accounted v.system v.dues) : World.Strikes v w :=
  h.keep hacc .refl fun hacc hchore hi => hi.tail (hchore.strike hacc)

/-! ## 5. Openings

What an operation enters, before anything follows from it.  What it does besides is a run of
strikes. -/

/-- What an operation puts on record before the strikes that follow from it. -/
inductive World.Opening (w : World) : Op → World → Prop
  | none {op : Op} {v : World} (h : v.system.records = w.system.records)
      (hd : ∀ t, w.closing t → v.closing t) : Opening w op v
  | root {hasHaltHandler : Bool} {v : World}
      (h : v.system.records = w.system.records.rootBorn .initial)
      (hd : ∀ t, w.closing t → v.closing t) : Opening w (.createRootJob hasHaltHandler) v
  | child {p : Koid} {q : Job.Record} {v : World} (hq : w.system.records.job p = some q)
      (h : v.system.records = w.system.records.childBorn p q)
      (hd : ∀ t, w.closing t → v.closing t) : Opening w (.createJob p) v
  /-- A child that the parent does not take is gone at once. -/
  | refused {p : Koid} {q : Job.Record} {v : World} (hq : w.system.records.job p = some q)
      (h : v.system.records =
        (w.system.records.childEntered p q).jobGone w.system.records.nextKoid (some p))
      (hd : ∀ t, w.closing t → v.closing t) : Opening w (.createJob p) v
  | process {job : Koid} {name : Name} {q : Job.Record} {table : TableId} {v : World}
      (hq : w.system.records.job job = some q)
      (h : v.system.records = w.system.records.processBorn job q table)
      (hd : ∀ t, w.closing t → v.closing t) : Opening w (.createProcess job name) v
  | view {u : VmoId} {v : World} (h : v.system.records = w.system.records.viewBorn)
      (hd : ∀ t, w.closing t → v.closing t) : Opening w (.createView u) v
  | witness {label : String} {signals : Signals} {v : World}
      (h : v.system.records = { w.system.records with nextKoid := w.system.nextKoid + 1 })
      (hd : ∀ t, w.closing t → v.closing t) : Opening w (.createWitness label signals) v
  | table {process : Nat} {arena : ArenaId} {i : TableId} {v : World}
      (h : v.system.records = w.system.records.setTable i true)
      (hd : ∀ t, w.closing t ∨ t = i → v.closing t) : Opening w (.openTable process arena) v
  /-- Only a job that lists nothing changes its policy. -/
  | policy {k : Koid} {change : Policy → Outcome Policy} {j : Job} {policy : Policy} {v : World}
      (hj : w.system.jobs[k]? = some j) (hempty : j.jobs = [] ∧ j.processes = [])
      (hchange : change j.policy = .ok policy)
      (h : v.system.records = w.system.records.setJob k (some { j.record with policy }))
      (hd : ∀ t, w.closing t → v.closing t) : Opening w (.amendPolicy k change) v

/-- An operation is an opening and the strikes that follow. -/
def World.Opens (w : World) (op : Op) (v : World) : Prop :=
  ∃ u, w.Opening op u ∧ World.Strikes u v

namespace System

open World (Strike Strikes Opening Opens)

variable {s : System} {d : List Task}

theorem records_insertJob (hfresh : s.jobs[s.nextKoid]? = none) (job : Job) (signals : Signals)
    (refs : RefCounts) :
    ({ s with
        nextKoid := s.nextKoid + 1
        objects := s.objects.insert s.nextKoid { signals }
        jobs := s.jobs.insert s.nextKoid job
        refs } : System).records =
      { s.records.setJob s.nextKoid (some job.record) with
        nextKoid := s.nextKoid + 1
        jobs := { s.records.jobs with live := s.records.jobs.live + 1 } } := by
  have hjob : (fun a : Nat => (s.jobs.insert s.nextKoid job)[a]?.map Job.record) =
      fun a : Nat => if s.nextKoid = a then some job.record else s.jobs[a]?.map Job.record := by
    funext a
    rw [Store.getElem?_insert]
    split <;> rfl
  unfold records Records.setJob
  simp only [hjob, Store.size_insert_of_none hfresh]

/-- What registering and counting a job puts on record. -/
theorem records_registered (s : System) (k : Koid) (parent : Option Koid) :
    ((s.bump .jobCreate).register k parent).records =
      { s.records with
        registry := match parent with
          | none => s.registry ++ [k]
          | some p => insertAfter (((s.jobs[p]?.map Job.jobs).getD []).getLastD p) k s.registry
        jobs := { s.records.jobs with
          created := Word.addWrap s.records.jobs.created 1 } } := by
  cases parent <;> rfl

theorem records_addJob_root (hfresh : s.jobs[s.nextKoid]? = none) {job : Job}
    (hp : job.parent = none) (hl : job.jobs = []) :
    (s.addJob job).2.records = s.records.rootBorn job.policy := by
  have hrecord : job.record = ⟨none, [], job.policy⟩ := by rw [Job.record, hp, hl]
  have hborn := records_insertJob hfresh job (Signals.noJobs ∪ Signals.noProcesses)
    (s.refs.retain (.object s.nextKoid))
  unfold addJob
  dsimp only [freshKoid]
  rw [records_registered, hp]
  dsimp only
  refine (congrArg (fun r : Records => { r with
    registry := s.registry ++ [s.nextKoid]
    jobs := { r.jobs with created := Word.addWrap r.jobs.created 1 } }) hborn).trans ?_
  rw [hrecord]
  rfl

theorem records_addJob_child (hfresh : s.jobs[s.nextKoid]? = none) (job : Job) {p : Koid} {q : Job}
    (hp : job.parent = some p) (hl : job.jobs = []) (hq : s.jobs[p]? = some q)
    (hpolicy : job.policy = q.policy) :
    (s.addJob job).2.records = s.records.childEntered p q.record := by
  have hrecord : job.record = ⟨some p, [], q.policy⟩ := by rw [Job.record, hp, hl, hpolicy]
  have hborn := records_insertJob hfresh job (Signals.noJobs ∪ Signals.noProcesses)
    ((s.refs.retain (.object s.nextKoid)).retain (.object p))
  have hne : s.nextKoid ≠ p := by
    rintro rfl
    rw [hfresh] at hq
    cases hq
  have hget : (s.jobs.insert s.nextKoid job)[p]? = some q := by
    rw [Store.getElem?_insert, if_neg hne, hq]
  unfold addJob
  dsimp only [freshKoid]
  rw [records_registered, hp]
  dsimp only [retain, addObject]
  rw [hget]
  refine (congrArg (fun r : Records => { r with
    registry := insertAfter (q.jobs.getLastD p) s.nextKoid s.registry
    jobs := { r.jobs with created := Word.addWrap r.jobs.created 1 } }) hborn).trans ?_
  rw [hrecord]
  rfl

/-- What is to be closed stays so when something else falls due. -/
theorem closing_cons {t : System} (x : Task) (i : TableId) (h : World.closing ⟨s, d⟩ i) :
    World.closing ⟨t, x :: d⟩ i := List.mem_cons_of_mem x h

theorem createRootJob_opens (hacc : Accounted s d) (hasHaltHandler : Bool) :
    Opens ⟨s, d⟩ (.createRootJob hasHaltHandler)
      (World.act ⟨s, d⟩ (.createRootJob hasHaltHandler)) := by
  have hfresh : s.settledConfig.2.jobs[s.settledConfig.2.nextKoid]? = none := by
    rw [settledConfig_eq]
    exact hacc.fresh_object.2.1
  have hborn : (s.createRootJob hasHaltHandler).2.records = s.records.rootBorn .initial := by
    unfold createRootJob
    dsimp only
    rw [records_addJob_root hfresh rfl rfl, s.settledConfig_edit.records (by decide)]
  exact ⟨_, .root hborn fun t => closing_cons _ t, .refl⟩

/-- A refused child is gone as soon as it is given back, and so is its reference to the parent. -/
theorem records_release_refused {p k : Koid} {j : Job} (hj : s.jobs[k]? = some j)
    (hp : j.parent = some p) (h1 : s.refCount (.object k) = 1)
    (h2 : 1 < (s.refs.release (.object k)).count (.object p)) :
    (s.release (.object k)).records = s.records.jobGone k (some p) := by
  set t : System := { s with refs := s.refs.release (.object k) }
  have hdestroy : t.destroyObject k = ((t.destroyObject k).1, [.release (.object p)]) := by
    refine Prod.ext rfl ?_
    unfold destroyObject
    dsimp only
    rw [show t.jobs[k]? = some j from hj]
    dsimp only
    rw [hp]
  have hgone : (t.destroyObject k).1.records = s.records.jobGone k j.parent :=
    records_destroyObject_job (s := t) hj
  rw [release_of_one h1 hdestroy h2, settle, ← hp]
  exact hgone

theorem records_addChild (hacc : Accounted s d) {p : Koid} {q : Job} (hq : s.jobs[p]? = some q)
    (height : Nat) : (s.addChild p q height).records = s.records.childEntered p q.record :=
  records_addJob_child hacc.fresh_object.2.1 (newChild p q height) rfl rfl hq rfl

theorem createJob_opens (hacc : Accounted s d) (p : Koid) :
    Opens ⟨s, d⟩ (.createJob p) (World.act ⟨s, d⟩ (.createJob p)) := by
  have hact : World.act ⟨s, d⟩ (.createJob p) =
      World.after ⟨s, d⟩ (s.createJob p) fun k => .release (.object k) := rfl
  rw [hact]
  have hcreation := createJob_creation hacc p
  generalize s.createJob p = r at hcreation
  cases hcreation with
  | absent | low => exact ⟨_, .none rfl fun _ ht => ht, .refl⟩
  | @taken q height hq hh hr =>
    refine ⟨_, .child (job_record hq) ?_ fun i => closing_cons _ i, .refl⟩
    dsimp only
    unfold attachJob
    rw [attach_of_ready (parent_addChild hacc hq height) hr]
    dsimp only
    rw [records_signal, (s.addChild p q height).records_relist (g := (· ++ [s.nextKoid]))
      fun _ _ => rfl, records_addChild hacc hq height]
    rfl
  | @untaken q height hq =>
    refine ⟨⟨(s.addChild p q height).release (.object s.nextKoid), d⟩,
      .refused (job_record hq) ?_ fun _ ht => ht, .refl⟩
    -- The child that is turned down has no other reference, and its parent has others; so giving
    -- back the child stops at the parent.
    obtain ⟨hone, hmany⟩ :=
      count_entered (r := .object p) hacc (.inl (Store.contains_iff.2 ⟨q, hq⟩))
    rw [← s.refs_addChild p q height] at hone hmany
    rw [records_release_refused (s.child_addChild p q height) rfl hone hmany,
      records_addChild hacc hq height]
    rfl

/-- A table is open from when it is entered. -/
theorem contains_insert_table (s : System) (t : TableId) (table : Table) :
    (fun a : Nat => (s.tables.insert t table).contains a) =
      fun a : Nat => if t = a then true else s.tables.contains a := by
  funext a
  rw [Store.contains_eq_isSome, Store.getElem?_insert]
  split
  · rfl
  · exact (Store.contains_eq_isSome _ _).symm

theorem records_openTable (s : System) (process : Nat) (arena : ArenaId) :
    (s.openTable process arena).2.records = s.records.setTable s.nextId true := by
  unfold records Records.setTable openTable freshId
  simp only [contains_insert_table]

theorem records_enterProcess (hfresh : s.processes[s.nextKoid]? = none) (job : Koid) (name : Name)
    (j : Job) :
    (s.enterProcess job name j.policy).records =
      s.records.processBorn job j.record s.nextId := by
  have hprocess : (fun a : Nat => (s.processes.insert s.nextKoid
      { job, name, policy := j.policy, table := s.nextId })[a]?.map Process.record) =
        fun a : Nat => if s.nextKoid = a then some ⟨job, s.nextId, .running, j.policy⟩
          else s.processes[a]?.map Process.record := by
    funext a
    rw [Store.getElem?_insert]
    split <;> rfl
  have htable := s.contains_insert_table s.nextId { process := s.nextKoid, arena := sharedArena }
  have hsize := Store.size_insert_of_none hfresh
    { job, name, policy := j.policy, table := s.nextId }
  unfold records Records.processBorn Records.setProcess Records.setTable Tally.born enterProcess
    bump Counters.bump withProcess
  simp only [hprocess, htable, hsize]
  rfl

/-- What is given back after an operation failed is a run of strikes. -/
theorem release_strikes {r : Ref} (hacc : Accounted s (.release r :: d)) :
    Strikes ⟨s, .release r :: d⟩ ⟨s.release r, d⟩ :=
  (s.release_chores r d : Chores .settledConfig _ _).strikes hacc

theorem createProcess_opens (hacc : Accounted s d) (job : Koid) (name : Name) :
    Opens ⟨s, d⟩ (.createProcess job name) (World.act ⟨s, d⟩ (.createProcess job name)) := by
  have hact : World.act ⟨s, d⟩ (.createProcess job name) =
      World.after ⟨s, d⟩ (s.createProcess job name) fun k => .release (.object k) := rfl
  rw [hact]
  have hcreation := s.createProcess_creation job name
  generalize s.createProcess job name = r at hcreation
  cases hcreation with
  | absent => exact ⟨_, .none rfl fun _ ht => ht, .refl⟩
  | offered hoffer =>
    have hrecords := s.records_openSharedArena
    have hjobs := s.openSharedArena_keeps.2
    have hacc' := openSharedArena_accounted hacc
    generalize s.openSharedArena = t at hrecords hjobs hacc' hoffer
    -- What is on record after the process was entered is the same whether it is taken or not.  If
    -- it is not, giving it back is what strikes it out again.
    have hborn : ∀ j : Job, (t.enterProcess job name j.policy).records =
        s.records.processBorn job j.record t.nextId := fun j =>
      (records_enterProcess hacc'.fresh_object.2.2.1 job name j).trans (by rw [hrecords])
    cases hoffer with
    | @taken j hj =>
      have hattach := (t.enterProcess job name j.policy).records_attachProcess job t.nextKoid
      exact ⟨_, .process (job_record (hjobs ▸ hj)) (hattach.trans (hborn j))
        fun i => closing_cons _ i, .refl⟩
    | @untaken j hj =>
      have haccb := enterProcess_accounted hacc' (Store.contains_iff.2 ⟨j, hj⟩) name j.policy
      exact ⟨⟨t.enterProcess job name j.policy, .release (.object t.nextKoid) :: d⟩,
        .process (job_record (hjobs ▸ hj)) (hborn j) fun i => closing_cons _ i,
        release_strikes haccb⟩

theorem records_enterView (hacc : Accounted s d) (v : VmoId) :
    (s.enterView v).records = s.records.viewBorn := by
  have hsize := Store.size_insert_of_none hacc.fresh_object.2.2.2.1 { vmo := v }
  unfold records Records.viewBorn Tally.born
  simp only [enterView, bump, Counters.bump, withView, hsize]

theorem createView_opens (hacc : Accounted s d) (v : VmoId) :
    Opens ⟨s, d⟩ (.createView v) (World.act ⟨s, d⟩ (.createView v)) := by
  have hact : World.act ⟨s, d⟩ (.createView v) =
      World.after ⟨s, d⟩ (s.createView v) fun k => .release (.object k) := rfl
  rw [hact]
  have hborn := records_enterView hacc v
  have hcreation := s.createView_creation v
  generalize s.createView v = r at hcreation
  cases hcreation with
  | absent => exact ⟨_, .none rfl fun _ ht => ht, .refl⟩
  | stamped ho =>
    have haccb := enterView_accounted hacc (Store.contains_iff.2 ⟨_, ho⟩)
    exact ⟨⟨s.enterView v, .release (.object s.nextKoid) :: d⟩,
      .view hborn fun i => closing_cons _ i, release_strikes haccb⟩
  | taken =>
    have hstamp := ((s.enterView v).setUserId_edit v s.nextKoid).records (by decide)
    exact ⟨_, .view (hstamp.trans hborn) fun i => closing_cons _ i, .refl⟩

theorem amendPolicy_opens (k : Koid) (change : Policy → Outcome Policy) :
    Opens ⟨s, d⟩ (.amendPolicy k change) (World.act ⟨s, d⟩ (.amendPolicy k change)) := by
  have hact : World.act ⟨s, d⟩ (.amendPolicy k change) = ⟨(s.amendPolicy k change).2, d⟩ := rfl
  rw [hact]
  obtain ⟨e, he⟩ | ⟨j, policy, hj, hjobs, hprocesses, hchange, he⟩ := s.amendPolicy_cases k change
  · rw [he]
    exact ⟨_, .none rfl fun _ ht => ht, .refl⟩
  · rw [he]
    refine ⟨⟨s.modifyJob k fun j => { j with policy }, d⟩,
      .policy hj ⟨hjobs, hprocesses⟩ hchange ?_ fun _ ht => ht, .refl⟩
    have hget : ∀ a : Nat, (s.jobs.modify k fun j => { j with policy })[a]?.map Job.record =
        if k = a then some { j.record with policy } else s.jobs[a]?.map Job.record := by
      intro a
      rw [Store.getElem?_modify]
      split
      · rename_i ha
        rw [← ha, hj]
        rfl
      · rfl
    unfold records Records.setJob modifyJob
    simp only [hget, Std.ExtTreeMap.size_modify]

/-! ### Beside the record -/

section Beside

variable (s : System)

theorem records_createVmo (size : Nat) (options : BitVec 32) :
    (s.createVmo size options).2.records = s.records := by
  have hcreation := s.createVmo_creation size options
  generalize s.createVmo size options = r at hcreation
  cases hcreation <;> rfl

theorem records_cloneVmo (v : VmoId) (ask : CloneRequest) :
    (s.cloneVmo v ask).2.records = s.records := by
  have hcreation := s.cloneVmo_creation v ask
  generalize s.cloneVmo v ask = r at hcreation
  cases hcreation with
  | refused | further => rfl
  | first => exact records_tellWatcher _ v true

end Beside

end System

/-- **Every operation is an opening and the strikes that follow from it.** -/
theorem World.act_opens {w : World} (hacc : Accounted w.system w.dues) (op : Op) :
    w.Opens op (w.act op) := by
  obtain ⟨s, d⟩ := w
  have hacc : Accounted s d := hacc
  -- an operation is beside the record, with or without a due for what it gives out, or it
  -- strikes, or it edits something that is not on record; the births are left
  have beside : ∀ {op : Op} {t : System}, t.records = s.records → Opens ⟨s, d⟩ op ⟨t, d⟩ :=
    fun {_ t} h => ⟨⟨t, d⟩, .none h fun _ ht => ht, .refl⟩
  have also : ∀ {op : Op} {t : System} {x : Task}, t.records = s.records →
      Opens ⟨s, d⟩ op ⟨t, x :: d⟩ :=
    fun {_ t x} h => ⟨⟨t, x :: d⟩, .none h fun i => System.closing_cons _ i, .refl⟩
  have after : ∀ {op : Op} {α : Type} {r : Outcome α × System} {due : α → Task},
      r.2.records = s.records → Opens ⟨s, d⟩ op (World.after ⟨s, d⟩ r due) := by
    rintro op α ⟨_ | _, t⟩ due h
    · exact beside h
    · exact also h
  have struck : ∀ {op : Op}, op.DoesChores → Opens ⟨s, d⟩ op (World.act ⟨s, d⟩ op) :=
    fun hop => ⟨_, .none rfl fun _ ht => ht, (World.act_chores hacc hop).strikes hacc⟩
  have edited : ∀ {a : Topic}, op.topic = some a → a ≠ .policies →
      Opens ⟨s, d⟩ op (World.act ⟨s, d⟩ op) := by
    intro a ha hne
    rw [act_of_topic ha]
    exact beside ((act_edit ha ⟨s, d⟩).records hne)
  cases op with
  | createRootJob hasHaltHandler => exact System.createRootJob_opens hacc hasHaltHandler
  | createJob parent => exact System.createJob_opens hacc parent
  | createProcess job name => exact System.createProcess_opens hacc job name
  | createView v => exact System.createView_opens hacc v
  | amendPolicy k change => exact System.amendPolicy_opens k change
  | createWitness label signals =>
    have hborn : (s.createWitness label signals).2.records =
        { s.records with nextKoid := s.nextKoid + 1 } := rfl
    exact ⟨_, .witness hborn fun i => System.closing_cons _ i, .refl⟩
  | openTable process arena =>
    refine ⟨_, .table (s.records_openTable process arena) fun i hi => ?_, .refl⟩
    rcases hi with hi | rfl
    · exact System.closing_cons _ i hi
    · exact List.mem_cons_self
  | createVmo size options =>
    rw [act]
    exact after (s.records_createVmo size options)
  | cloneVmo v ask => exact after (s.records_cloneVmo v ask)
  | createListener label => exact also rfl
  | createMapping space object offset size => exact also rfl
  | newArena capacity => exact beside rfl
  | openSharedArena => exact beside s.records_openSharedArena
  | openPort kind key => exact beside rfl
  | share r =>
    rw [act]
    split
    · exact also rfl
    · exact beside rfl
  | makeHandle arena k rights mayGrow =>
    rw [act]
    split
    · exact after (s.records_makeHandle arena k rights mayGrow)
    · exact beside rfl
  | duplicateHandle a rights => exact after (s.records_duplicateHandle a rights)
  | tableRemove t value => exact after ((s.tableRemove_edit t value).records (by decide))
  | drop | makeFromKernel | tableAdd | tableDuplicate | tableClear | killJob | killProcess
  | enforcePolicy | resetPort => exact struck trivial
  | attachProcess k p => exact beside (s.records_attachProcess k p)
  | detachProcess k p => exact beside (s.records_detachProcess k p)
  | unbindPort p => exact beside rfl
  | signal k clear set => exact beside rfl
  | zeroHandles k => exact beside (s.records_zeroHandles k)
  | forgetClone v c => exact beside (s.records_forgetClone v c)
  | openSpace | settledConfig | installConfig | setKillOnOom | nameJob | nameProcess | nameVmo
  | bindPort | report | dropReports | setProcess | setUserId | setWatcher | recordClone | addMapping
  | removeMapping | unmapSpan | rangeChanged | commit | decommit | resize | setCachePolicy =>
    exact edited rfl (by decide)

/-! ## 6. What holds of the record

Openings and strikes are all that happens to the record, so an invariant of it is checked on
these. -/

/-- Some is left on record of jobs and processes, and it is as it was, apart from lists of jobs and
from processes that died. -/
structure Records.Fades (r r' : Records) : Prop where
  nextKoid : r'.nextKoid = r.nextKoid
  job : ∀ {k : Koid} {j' : Job.Record}, r'.job k = some j' →
    ∃ j, r.job k = some j ∧ j'.parent = j.parent ∧ j'.policy = j.policy
  process : ∀ {k : Koid} {p' : Process.Record}, r'.process k = some p' →
    ∃ p, r.process k = some p ∧ p'.job = p.job ∧ p'.table = p.table ∧ p'.policy = p.policy ∧
      (p'.state = .running → p.state = .running)

namespace Records.Fades

variable {r r' r'' : Records}

theorem of_eq (hn : r'.nextKoid = r.nextKoid) (hj : r'.job = r.job) (hp : r'.process = r.process) :
    r.Fades r' where
  nextKoid := hn
  job := fun {k j} h => ⟨j, by rw [← hj]; exact h, rfl, rfl⟩
  process := fun {k p} h => ⟨p, by rw [← hp]; exact h, rfl, rfl, rfl, id⟩

theorem trans (h : r.Fades r') (h' : r'.Fades r'') : r.Fades r'' where
  nextKoid := h'.nextKoid.trans h.nextKoid
  job hj := by
    obtain ⟨j', hj', hparent', hpolicy'⟩ := h'.job hj
    obtain ⟨j, hj, hparent, hpolicy⟩ := h.job hj'
    exact ⟨j, hj, hparent'.trans hparent, hpolicy'.trans hpolicy⟩
  process hp := by
    obtain ⟨p', hp', hjob', htable', hpolicy', hrun'⟩ := h'.process hp
    obtain ⟨p, hp, hjob, htable, hpolicy, hrun⟩ := h.process hp'
    exact ⟨p, hp, hjob'.trans hjob, htable'.trans htable, hpolicy'.trans hpolicy, hrun ∘ hrun'⟩

theorem relist (r : Records) (k : Koid) (f : List Koid → List Koid) : r.Fades (r.relist k f) where
  nextKoid := rfl
  process hp := ⟨_, hp, rfl, rfl, rfl, id⟩
  job := fun {a j'} h => by
    have h : (if k = a then (r.job a).map fun j => { j with jobs := f j.jobs } else r.job a) =
      some j' := h
    split at h
    · obtain ⟨j, hj, rfl⟩ := Option.map_eq_some_iff.1 h
      exact ⟨j, hj, rfl, rfl⟩
    · exact ⟨j', h, rfl, rfl⟩

theorem setJob_none (r : Records) (k : Koid) : r.Fades (r.setJob k none) where
  nextKoid := rfl
  process hp := ⟨_, hp, rfl, rfl, rfl, id⟩
  job := fun {a j'} h => by
    have h : (if k = a then none else r.job a) = some j' := h
    split at h
    · cases h
    · exact ⟨j', h, rfl, rfl⟩

theorem jobGone (r : Records) (k : Koid) : ∀ parent : Option Koid, r.Fades (r.jobGone k parent)
  | none => (setJob_none r k).trans (of_eq rfl rfl rfl)
  | some p => ((setJob_none r k).trans (relist _ p (·.erase k))).trans (of_eq rfl rfl rfl)

theorem processGone (r : Records) (k : Koid) : r.Fades (r.processGone k) where
  nextKoid := rfl
  job hj := ⟨_, hj, rfl, rfl⟩
  process := fun {a p'} h => by
    have h : (if k = a then none else r.process a) = some p' := h
    split at h
    · cases h
    · exact ⟨p', h, rfl, rfl, rfl, id⟩

theorem ended {k : Koid} {p : Process.Record} (hp : r.process k = some p) :
    r.Fades (r.ended k p) where
  nextKoid := rfl
  job hj := ⟨_, hj, rfl, rfl⟩
  process := fun {a p'} h => by
    have h : (if k = a then some { p with state := .dead } else r.process a) = some p' := h
    split at h
    · rename_i hk
      cases h
      exact ⟨p, hk ▸ hp, rfl, rfl, rfl, fun hr => by cases hr⟩
    · exact ⟨p', h, rfl, rfl, rfl, id⟩

end Records.Fades

/-- Whatever is on record is older than what is entered next, and nothing refers to that. -/
structure Records.Old (r : Records) : Prop where
  job : ∀ {k : Koid} {j : Job.Record}, r.job k = some j → k < r.nextKoid
  parent : ∀ {k : Koid} {j : Job.Record}, r.job k = some j → j.parent ≠ some r.nextKoid
  job_process : ∀ {k : Koid} {p : Process.Record}, r.process k = some p → p.job ≠ r.nextKoid

theorem Accounted.old {s : System} {d : List Task} (h : Accounted s d) : s.records.Old where
  job hj := by
    obtain ⟨i, hi, rfl⟩ := Option.map_eq_some_iff.1 hj
    exact h.job_lt hi
  parent hj hp := by
    obtain ⟨i, hi, rfl⟩ := Option.map_eq_some_iff.1 hj
    obtain ⟨q, hq⟩ := Store.contains_iff.1 (h.parent hi hp)
    exact System.ne_nextKoid h hq rfl
  job_process hp := by
    obtain ⟨q, hq, rfl⟩ := Option.map_eq_some_iff.1 hp
    obtain ⟨j, hj⟩ := Store.contains_iff.1 (h.job hq)
    exact fun he => System.ne_nextKoid h hj he.symm

/-- A koid was given out, and the job that it belongs to has a policy of some kind, if it is still
there. -/
structure Records.Retains (r : Records) (k : Koid) (Q : Policy → Prop) : Prop where
  entered : k < r.nextKoid
  policy : ∀ {j : Job.Record}, r.job k = some j → Q j.policy

namespace Records.Retains

variable {r r' : Records} {k : Koid} {Q : Policy → Prop}

theorem fades (h : r.Retains k Q) (hf : r.Fades r') : r'.Retains k Q where
  entered := hf.nextKoid.symm ▸ h.entered
  policy hj := by
    obtain ⟨i, hi, -, hpolicy⟩ := hf.job hj
    rw [hpolicy]
    exact h.policy hi

/-- What is entered later is another job. -/
theorem born (h : r.Retains k Q) {j : Job.Record} (hn : r'.nextKoid = r.nextKoid + 1)
    (hjob : r'.job = (r.setJob r.nextKoid (some j)).job) : r'.Retains k Q where
  entered := by
    rw [hn]
    exact Nat.lt_succ_of_lt h.entered
  policy := fun {i} hi => by
    rw [hjob] at hi
    have hi : (if r.nextKoid = k then some j else r.job k) = some i := hi
    rw [if_neg (Nat.ne_of_gt h.entered)] at hi
    exact h.policy hi

theorem childEntered (h : r.Retains k Q) {p : Koid} {q : Job.Record} :
    (r.childEntered p q).Retains k Q := h.born rfl rfl

theorem beside (h : r.Retains k Q) (hn : r.nextKoid ≤ r'.nextKoid) (hjob : r'.job = r.job) :
    r'.Retains k Q :=
  ⟨Nat.lt_of_lt_of_le h.entered hn, fun hi => h.policy (by rw [← hjob]; exact hi)⟩

theorem setPolicy (h : r.Retains k Q) {a : Koid} {j : Job.Record} {p : Policy}
    (hj : r.job a = some j) (hp : Q j.policy → Q p) :
    (r.setJob a (some { j with policy := p })).Retains k Q where
  entered := h.entered
  policy := fun {i} hi => by
    have hi : (if a = k then some { j with policy := p } else r.job k) = some i := hi
    split at hi
    · rename_i ha
      cases hi
      exact hp (h.policy (ha ▸ hj))
    · exact h.policy hi

end Records.Retains

namespace World

/-- **A strike adds nothing.** -/
theorem Strike.fades {v v' : World} (h : Strike v v') :
    v.system.records.Fades v'.system.records := by
  cases h with
  | aside h => exact .of_eq (by rw [h]) (by rw [h]) (by rw [h])
  | job _ _ _ h => exact h ▸ .jobGone _ _ _
  | process _ _ h => exact h ▸ .processGone _ _
  | view _ h => exact h ▸ .of_eq rfl rfl rfl
  | ended hp h => exact h ▸ .ended hp
  | table h => exact h ▸ .of_eq rfl rfl rfl

theorem Strikes.fades {v v' : World} (h : Strikes v v') :
    v.system.records.Fades v'.system.records := by
  induction h with
  | refl => exact .of_eq rfl rfl rfl
  | tail _ hstep ih => exact ih.trans hstep.fades

variable {P : System → Op → Prop} {I : World → Prop} {w : World}

/-- What the opening of an operation and strikes keep holds after the operation. -/
theorem Ran.act_recorded {op : Op} (h : w.Ran P)
    (hopen : ∀ v, w.Opening op v → I v) (hstrike : ∀ v v', Strike v v' → I v → I v') :
    I (w.act op) := by
  obtain ⟨u, hopening, hstrikes⟩ := act_opens h.passed.accounted op
  generalize w.act op = v at hstrikes ⊢
  induction hstrikes with
  | refl => exact hopen u hopening
  | tail _ hstep ih => exact hstrike _ _ hstep ih

/-- What holds before anything happened, and is kept by the openings of operations that keep to the
rule and by strikes, holds in every state that such operations lead to. -/
theorem Ran.keeps_recorded (h : w.Ran P) (h0 : I {})
    (hreorder : ∀ s d e, d.Perm e → I ⟨s, d⟩ → I ⟨s, e⟩)
    (hopen : ∀ w op v, w.Ran P → P w.system op → w.Opening op v → I w → I v)
    (hstrike : ∀ v v', Strike v v' → I v → I v') : I w := by
  induction h with
  | start => exact h0
  | reorder _ hp ih => exact hreorder _ _ _ hp ih
  | act h hop ih => exact h.act_recorded (fun v ho => hopen _ _ v h hop ho ih) hstrike

/-! ### One job over time -/

variable {k : Koid} {Q : Policy → Prop}

theorem Opening.retains {op : Op} {v : World}
    (hQ : ∀ k change, op = .amendPolicy k change → ∀ p q, change p = .ok q → Q p → Q q)
    (ho : w.Opening op v) (hi : w.system.records.Retains k Q) :
    v.system.records.Retains k Q := by
  have hnext := Nat.le_succ w.system.records.nextKoid
  cases ho with
  | none hv => exact hv ▸ hi
  | root hv => exact hv ▸ hi.born rfl rfl
  | child hq hv => exact hv ▸ hi.childEntered.fades (.relist _ _ _)
  | refused hq hv => exact hv ▸ hi.childEntered.fades (.jobGone _ _ _)
  | process hq hv => exact hv ▸ hi.beside hnext rfl
  | view hv => exact hv ▸ hi.beside hnext rfl
  | witness hv => exact hv ▸ hi.beside hnext rfl
  | table hv => exact hv ▸ hi.beside le_rfl rfl
  | policy hj _ hchange hv =>
    exact hv ▸ hi.setPolicy (System.job_record hj) (hQ _ _ rfl _ _ hchange)

/-- What every change of a policy keeps holds of the policy of a job as long as the job is there. -/
theorem Ran.retains {ops : List Op} (h : w.Ran P)
    (hQ : ∀ s k change, P s (.amendPolicy k change) → ∀ p q, change p = .ok q → Q p → Q q)
    (hops : w.Keep P ops) (hi : w.system.records.Retains k Q) :
    (ops.foldl World.act w).system.records.Retains k Q := by
  induction ops generalizing w with
  | nil => exact hi
  | cons op ops ih =>
    refine ih (h.act hops.1) hops.2 ?_
    refine h.act_recorded (I := fun w => w.system.records.Retains k Q) (fun v ho => ?_)
      fun _ _ hs hi => hi.fades hs.fades
    refine ho.retains (fun k change he => ?_) hi
    subst he
    exact hQ _ k change hops.1

end World

end KernelObjects
