import Mathlib
import KernelObjects.Proofs.Pedigree
import KernelObjects.Proofs.Walking

/-
# The tree of jobs at rest

Every stage of an operation puts the lists of children in order again: a new child is entered
where its parent takes it and is gone at once where it does not, a process that is killed takes
itself off the list when its handles are closed, and whatever is destroyed leaves its list on the
way (`Stage.orderly`).  So between operations every list is exact, and heights add up to the root
(`TreeExact`).

A walk calls its visitor in states of the same kind: what the walk holds is what any client could
hold, so the tree is exact inside of visits too, whatever the visits before did to it
(`tree_sound`).  Only a client who enters a process in a list by hand, or takes one off, can spoil
this.

Exactness is a statement about both directions.  Whoever is listed is there, and belongs to the
lister; whoever is there, and is not a dead process, is listed.  The first keeps walks from coming
by something that is gone, the second from passing something by.  Inside of a stage neither need
hold, so the module about a single change (`Pedigree`) keeps them for given sets of those who
count, and here the sets are all jobs and the processes that run.
-/

namespace KernelObjects

open Pedigree

namespace System

variable {s t : System}

/-! ## 1. What a stage keeps

In the midst of a stage lists are exact up to one child, which the stage enters or takes off.  At
its end they are exact. -/

/-- **The tree is in order**: every job that is there counts, and every process that runs. -/
def Orderly (s : System) : Prop :=
  s.pedigree.Orderly (fun _ => True) fun _ state => state = .running

/-- There are no jobs and no processes at first. -/
theorem orderly_initial : initial.Orderly := by
  have hnone : ∀ k, initial.pedigree.job k = none := fun k => by simp [pedigree, initial]
  refine ⟨fun {k _} hq => ?_, fun {k _ _} hj => ?_, fun {k _ _ _} hj => ?_⟩
  · rw [hnone] at hq
    cases hq
  · rw [hnone] at hj
    cases hj
  · rw [hnone] at hj
    cases hj

/-- Order is a matter of the ties of jobs and of the kin of processes. -/
theorem Orderly.congr (h : s.Orderly) (he : t.pedigree = s.pedigree) : t.Orderly := by
  unfold Orderly
  rw [he]
  exact h

/-- What is still keeps it, -/
theorem Orderly.still (h : s.Orderly) (hs : Still s t) : t.Orderly :=
  h.congr (pedigree_of_inert hs.toInert)

/-- and so does giving back. -/
theorem Orderly.settle (h : s.Orderly) (ts : List Task) : (s.settle ts).Orderly :=
  orderly_settle h ts

section Kill

variable {k : Koid} {p : Process}

/-- A process that was marked as dead still counts until it leaves its list. -/
theorem Orderly.endProcess (h : s.Orderly) (code : Int) (hp : s.processes[k]? = some p)
    (hrun : p.state = .running) : (s.endProcess code k).pedigree.Orderly (fun _ => True)
      fun a state => state = .running ∨ a = k := by
  have hended : (s.endProcess code k).pedigree =
      s.pedigree.setProcess k (some { p.kin with state := .dead }) := by
    refine pedigree_setProcess (x := some { p with state := .dead, returnCode := code }) rfl
      fun a => ?_
    refine (Store.getElem?_modify _ _ _ _).trans ?_
    split
    · rename_i hk
      rw [← hk, hp]
      rfl
    · rfl
  rw [hended]
  -- Among the running ones this process is one itself, so to count it in by name changes
  -- nothing.  After it has ended the name is what keeps it counted.
  have hboth : s.pedigree.Orderly (fun _ => True) fun a state => state = .running ∨ a = k := by
    refine Pedigree.Orderly.congr h (fun _ _ => Iff.rfl) fun {a r} hr => ?_
    refine (or_iff_left_of_imp ?_).symm
    rintro rfl
    rw [process_pedigree hp] at hr
    cases hr
    exact hrun
  refine hboth.setProcess fun a => ?_
  rw [process_pedigree hp]
  constructor
  · rintro ⟨r, hr, -, hjob⟩
    cases hr
    exact ⟨p.kin, rfl, .inr rfl, hjob⟩
  · rintro ⟨r, hr, -, hjob⟩
    cases hr
    exact ⟨_, rfl, .inr rfl, hjob⟩

/-- If the process is still there after its handles were closed, it is the dead one. -/
theorem process_tableClear_endProcess (code : Int) (hp : s.processes[k]? = some p) (t : TableId)
    {r : Process} (hr : ((s.endProcess code k).tableClear t).2.processes[k]? = some r) :
    r.job = p.job ∧ r.state = .dead := by
  obtain ⟨a, ha, hw⟩ := ((s.endProcess code k).tableClear_declines (K := fun _ => True)
    (P := fun _ => True) t []).wanes.process hr
  have hjob : a.job = p.job := by
    have ha := (Store.getElem?_modify _ _ _ _).symm.trans ha
    rw [if_pos rfl, hp] at ha
    cases ha
    rfl
  exact ⟨hw.job.trans hjob, s.dead_tableClear code k t r hr⟩

/-- A process that is killed is dead first and leaves its list last. -/
theorem Orderly.killProcess (h : s.Orderly) (code : Int) (k : Koid) :
    (s.killProcess code k).Orderly := by
  obtain he | ⟨p, hp, hrun, he⟩ := s.killProcess_cases code k
  · rw [he]
    exact h
  rw [he]
  have hclear := orderly_tableClear (h.endProcess code hp hrun) p.table
  have hrecord : ∀ {r}, ((s.endProcess code k).tableClear p.table).2.pedigree.process k = some r →
      r.job = p.job ∧ r.state = .dead := by
    intro r hr
    obtain ⟨b, hb, rfl⟩ := Option.map_eq_some_iff.1 hr
    exact process_tableClear_endProcess code hp p.table hb
  unfold Orderly
  rw [pedigree_detachProcess]
  refine (hclear.unlistProcess fun hr => (hrecord hr).1).congr (fun _ _ => Iff.rfl)
    fun {a r} hr => ⟨fun ha => ha.1.resolve_right ha.2, fun hrun => ⟨.inl hrun, ?_⟩⟩
  rintro rfl
  rw [(hrecord hr).2] at hrun
  cases hrun

end Kill

section Births

variable {signals : Signals} {d : List Task} {job : Job} {process : Process}

theorem pedigree_withJob (s : System) (signals : Signals) (job : Job) :
    (s.withJob signals job).pedigree = s.pedigree.setJob s.nextKoid (some job.ties) :=
  pedigree_setJob (x := some job) (fun a => Store.getElem?_insert _ _ a _) rfl

theorem pedigree_withProcess (s : System) (signals : Signals) (process : Process) :
    (s.withProcess signals process).pedigree =
      s.pedigree.setProcess s.nextKoid (some process.kin) :=
  pedigree_setProcess (x := some process) rfl fun a => Store.getElem?_insert _ _ a _

/-- A job has a koid that was given out, -/
theorem job_lt_nextKoid (hacc : Accounted s d) {a : Koid} {q : Job.Ties}
    (hq : s.pedigree.job a = some q) : a < s.nextKoid := by
  obtain ⟨j, hj, -⟩ := Option.map_eq_some_iff.1 hq
  exact hacc.job_lt hj

/-- and so has a process. -/
theorem process_lt_nextKoid (hacc : Accounted s d) {a : Koid} {r : Process.Kin}
    (hr : s.pedigree.process a = some r) : a < s.nextKoid := by
  obtain ⟨p, hp, -⟩ := Option.map_eq_some_iff.1 hr
  exact hacc.process_lt hp

/-- A new job is there and does not count yet. -/
theorem Orderly.withJob (h : s.Orderly) (hacc : Accounted s d) (signals : Signals)
    (hjobs : job.jobs = []) (hprocesses : job.processes = []) (hp : ∀ p, job.parent = some p →
      ∃ q, s.jobs[p]? = some q ∧ q.maxHeight = job.maxHeight + 1) :
    (s.withJob signals job).pedigree.Orderly (fun a => True ∧ a ≠ s.nextKoid)
      fun _ state => state = .running := by
  rw [pedigree_withJob]
  have hold : s.pedigree.Orderly (fun a => True ∧ a ≠ s.nextKoid)
      fun _ state => state = .running :=
    Pedigree.Orderly.congr h (fun {c j p} hj _ => (and_iff_left
      (Nat.ne_of_lt (job_lt_nextKoid hacc hj))).symm) fun _ => Iff.rfl
  refine hold.insertJob (fun hk => hk.2 rfl) ?_ hjobs hprocesses (job_lt_nextKoid hacc)
    (fun {p r} hr => ?_) fun {p} hpar => ?_
  · exact Option.map_eq_none_iff.2 hacc.fresh_object.2.1
  · obtain ⟨q, hq, rfl⟩ := Option.map_eq_some_iff.1 hr
    obtain ⟨i, hi⟩ := Store.contains_iff.1 (hacc.job hq)
    exact Nat.ne_of_lt (hacc.job_lt hi)
  · obtain ⟨q, hq, hheight⟩ := hp p hpar
    exact ⟨q.ties, job_pedigree hq, hheight⟩

/-- A root has no parent to be listed by. -/
theorem Orderly.root_born (h : s.Orderly) (hacc : Accounted s d) (hjobs : job.jobs = [])
    (hprocesses : job.processes = []) (hp : job.parent = none) :
    (s.withJob signals job).Orderly := by
  have hborn := h.withJob hacc signals hjobs hprocesses (by simp [hp])
  refine hborn.congr (fun {c j p} hj hpar => and_iff_left ?_) fun _ => Iff.rfl
  rintro rfl
  rw [pedigree_withJob, job_setJob_self] at hj
  cases hj
  have hpar : job.parent = some p := hpar
  rw [hp] at hpar
  cases hpar

/-- A child that is born is listed by its parent from the moment at which the parent takes it. -/
theorem Orderly.child_born {p : Koid} {q : Job} {f : Job → Job} (h : s.Orderly)
    (hacc : Accounted s d) (hjobs : job.jobs = []) (hprocesses : job.processes = [])
    (hp : job.parent = some p) (hq : s.jobs[p]? = some q) (hh : q.maxHeight = job.maxHeight + 1)
    (hf : (f q).kin = { q.kin with jobs := q.jobs ++ [s.nextKoid] }) :
    ((s.withJob signals job).modifyJob p f).Orderly := by
  have hborn := h.withJob hacc signals hjobs hprocesses (fun a ha => by
    rw [hp] at ha
    cases ha
    exact ⟨q, hq, hh⟩)
  have hlist : ((s.withJob signals job).modifyJob p f).pedigree =
      (s.withJob signals job).pedigree.relist p (.withJob s.nextKoid) := by
    refine pedigree_modifyJob fun j hj => ?_
    have hj := (Store.getElem?_insert _ _ _ _).symm.trans hj
    rw [if_neg (Nat.ne_of_lt (hacc.job_lt hq)).symm, hq] at hj
    cases hj
    exact congrArg Job.Kin.ties hf
  unfold Orderly
  rw [hlist]
  refine hborn.listJob trivial (j := job.ties) ?_ hp fun {a i} hi ha => ?_
  · rw [pedigree_withJob, job_setJob_self]
  · rw [pedigree_withJob, job_setJob_of_ne _ _ ha] at hi
    exact job_lt_nextKoid hacc hi

/-- A job that its parent did not take is gone when it is given back. -/
theorem Orderly.job_refused {p : Koid} {q : Job} (h : s.Orderly) (hacc : Accounted s d)
    (hjobs : job.jobs = []) (hprocesses : job.processes = []) (hp : job.parent = some p)
    (hq : s.jobs[p]? = some q) (hh : q.maxHeight = job.maxHeight + 1)
    (ht : Still (s.withJob signals job) t) : (t.release (.object s.nextKoid)).Orderly := by
  have hborn := h.withJob hacc signals hjobs hprocesses (fun a ha => by
    rw [hp] at ha
    cases ha
    exact ⟨q, hq, hh⟩)
  rw [← pedigree_of_inert ht.toInert] at hborn
  have hcount : t.refCount (.object s.nextKoid) = 1 := by
    unfold refCount
    rw [ht.refs]
    unfold System.withJob
    simp only [hp, Option.elim_some]
    exact (count_entered (r := .object _) hacc (.inl (Store.contains_iff.2 ⟨q, hq⟩))).1
  have hgone := (gone_of_release hcount).1
  refine Pedigree.Orderly.congr (orderly_settle hborn _) (fun {c j a} hj _ => and_iff_left ?_)
    fun _ => Iff.rfl
  rintro rfl
  obtain ⟨i, hi, -⟩ := Option.map_eq_some_iff.1 hj
  have hi : (t.release (.object s.nextKoid)).jobs[s.nextKoid]? = some i := hi
  rw [hgone] at hi
  cases hi

/-- A new process is there and does not count yet. -/
theorem Orderly.withProcess (h : s.Orderly) (hacc : Accounted s d) (signals : Signals)
    (process : Process) :
    (s.withProcess signals process).pedigree.Orderly (fun _ => True)
      fun a state => state = .running ∧ a ≠ s.nextKoid := by
  rw [pedigree_withProcess]
  have hold : s.pedigree.Orderly (fun _ => True)
      fun a state => state = .running ∧ a ≠ s.nextKoid :=
    Pedigree.Orderly.congr h (fun _ _ => Iff.rfl) fun hr => (and_iff_left
      (Nat.ne_of_lt (process_lt_nextKoid hacc hr))).symm
  refine hold.setProcess fun k => ⟨?_, ?_⟩
  · rintro ⟨a, -, ⟨-, hne⟩, -⟩
    exact absurd rfl hne
  · rintro ⟨a, -, ⟨-, hne⟩, -⟩
    exact absurd rfl hne

/-- A process that is born runs, and its job lists it at the end. -/
theorem Orderly.process_born {q : Job} {f : Job → Job} (h : s.Orderly) (hacc : Accounted s d)
    (hrun : process.state = .running) (hq : s.jobs[process.job]? = some q)
    (hf : (f q).kin = { q.kin with processes := q.processes ++ [s.nextKoid] }) :
    ((s.withProcess signals process).modifyJob process.job f).Orderly := by
  have hborn := h.withProcess hacc signals process
  have hlist : ((s.withProcess signals process).modifyJob process.job f).pedigree =
      (s.withProcess signals process).pedigree.relist process.job (.withProcess s.nextKoid) := by
    refine pedigree_modifyJob fun j hj => ?_
    have hj : s.jobs[process.job]? = some j := hj
    rw [hq] at hj
    cases hj
    exact congrArg Job.Kin.ties hf
  unfold Orderly
  rw [hlist]
  refine hborn.listProcess (r := process.kin) hrun ?_ fun {a i} hi ha => ?_
  · rw [pedigree_withProcess, process_setProcess_self]
  · rw [pedigree_withProcess, process_setProcess_of_ne _ _ ha] at hi
    exact process_lt_nextKoid hacc hi

/-- A process that its job did not take is gone when it is given back. -/
theorem Orderly.process_refused (h : s.Orderly) (hacc : Accounted s d)
    (hj : s.jobs.contains process.job) (ht : Still (s.withProcess signals process) t) :
    (t.release (.object s.nextKoid)).Orderly := by
  have hborn := h.withProcess hacc signals process
  rw [← pedigree_of_inert ht.toInert] at hborn
  obtain ⟨q, hq⟩ := Store.contains_iff.1 hj
  have hcount : t.refCount (.object s.nextKoid) = 1 := by
    unfold refCount
    rw [ht.refs]
    exact (count_entered (r := .object _) hacc (.inl (Store.contains_iff.2 ⟨q, hq⟩))).1
  have hnone : t.jobs[s.nextKoid]? = none := by
    have hkin := ht.job s.nextKoid
    have hfresh : (s.withProcess signals process).jobs[s.nextKoid]? = none := hacc.fresh_object.2.1
    rw [hfresh] at hkin
    exact Option.map_eq_none_iff.1 hkin
  have hgone := (gone_of_release hcount).2 hnone
  refine Pedigree.Orderly.congr (orderly_settle hborn _) (fun _ _ => Iff.rfl)
    fun {a r} hr => and_iff_left ?_
  rintro rfl
  obtain ⟨i, hi, -⟩ := Option.map_eq_some_iff.1 hr
  have hi : (t.release (.object s.nextKoid)).processes[s.nextKoid]? = some i := hi
  rw [hgone] at hi
  cases hi

end Births

/-- A job that commits keeps its children and its parent. -/
theorem pedigree_commitKill (s : System) (code : Int) (k : Koid) (j : Job) :
    (s.commitKill code k j).pedigree = s.pedigree := by
  unfold commitKill
  have hkilling : ((s.modifyJob k fun j => { j with returnCode := code, state := .killing }).log
      (.jobKilled k code)).pedigree = s.pedigree :=
    (pedigree_of_inert (inert_log _ _)).trans (pedigree_modifyJob_of_ties fun _ _ => rfl)
  dsimp only
  split
  · exact (pedigree_markDead _ _).trans hkilling
  · exact hkilling

end System

/-- **Every stage leaves the tree in order**, unless a process is listed or taken off by hand. -/
theorem Stage.orderly {L : Liberties} {w w' : World} (h : Stage L w w') (hA : ¬ L.attaches)
    (hD : ¬ L.detaches) (hacc : Accounted w.system w.dues) (ho : w.system.Orderly) :
    w'.system.Orderly := by
  cases h with
  | still h => exact ho.still h
  | drop => exact ho.settle _
  | beside _ hj hp _ => exact ho.congr (System.pedigree_of_same hj hp)
  | root _ hl hq hp => exact ho.root_born hacc hl hq hp
  | child _ hl hq hp hj _ hh hf => exact ho.child_born hacc hl hq hp hj hh hf
  | refusedJob _ hl hq hp hj _ hh ht => exact ho.job_refused hacc hl hq hp hj hh ht
  | process hs hj _ hf => exact ho.process_born hacc hs hj hf
  | refusedProcess hj ht => exact ho.process_refused hacc hj ht
  | clear t => exact System.orderly_tableClear ho t
  | tell _ => exact ho.congr (System.pedigree_of_inert (System.inert_zeroHandles _ _))
  | condemn _ _ _ => exact ho.congr (System.pedigree_commitKill _ _ _ _)
  | kill code k => exact ho.killProcess code k
  | attach hL => exact absurd hL hA
  | detach hL => exact absurd hL hD
  | _ => exact ho.congr rfl

/-- Whether an operation leaves it to processes and jobs to enter themselves in the lists of their
job and to leave them. -/
def Op.LeavesLists : Op → Prop
  | attachProcess _ _ | detachProcess _ _ => False
  | _ => True

namespace World

/-- Between operations the tree is in order. -/
theorem Ran.orderly {w : World} (h : w.Ran fun _ => Op.LeavesLists) : w.system.Orderly := by
  refine h.keeps (I := fun w => w.system.Orderly) System.orderly_initial (fun _ _ _ _ ho => ho) ?_
  intro s op v v' hop hpassed hstage ho
  refine hstage.orderly (fun hL => ?_) (fun hL => ?_) hpassed.accounted ho
  · unfold Op.liberties at hL
    split at hL <;> first | exact hL.elim | exact hop
  · unfold Op.liberties at hL
    split at hL <;> first | exact hL.elim | exact hop

end World

/-! ## 2. What a client sees of the tree

The invariant in the words of a client, with the heights, at rest and at every visit. -/

namespace System

/-- The job so many steps further up. -/
def ancestor (s : System) : Nat → Koid → Option Koid
  | 0, k => some k
  | n + 1, k => (s.jobs[k]?.bind Job.parent).bind (s.ancestor n)

/-- **The tree is exact.**  Jobs list just their child jobs and their running processes, each once
and oldest first; look-ups find just these; and heights say how far it is to the root and to the
last generation. -/
structure TreeExact (s : System) : Prop where
  jobs_lt : ∀ {k : Nat} {q : Job}, s.jobs[k]? = some q → q.jobs.Pairwise (· < ·)
  jobs : ∀ {k : Nat} {q : Job}, s.jobs[k]? = some q → ∀ c : Nat,
    c ∈ q.jobs ↔ ∃ j, s.jobs[c]? = some j ∧ j.parent = some k
  processes_lt : ∀ {k : Nat} {q : Job}, s.jobs[k]? = some q → q.processes.Pairwise (· < ·)
  processes : ∀ {k : Nat} {q : Job}, s.jobs[k]? = some q → ∀ p : Nat,
    p ∈ q.processes ↔ ∃ r, s.processes[p]? = some r ∧ r.state = .running ∧ r.job = k
  lookupJob : ∀ {k : Nat} {q : Job}, s.jobs[k]? = some q → ∀ c x : Nat,
    s.lookupJob k c = some x ↔ x = c ∧ ∃ j, s.jobs[c]? = some j ∧ j.parent = some k
  lookupProcess : ∀ {k : Nat} {q : Job}, s.jobs[k]? = some q → ∀ p x : Nat,
    s.lookupProcess k p = some x ↔
      x = p ∧ ∃ r, s.processes[p]? = some r ∧ r.state = .running ∧ r.job = k
  height : ∀ {k p : Nat} {j : Job}, s.jobs[k]? = some j → j.parent = some p →
    ∃ q, s.jobs[p]? = some q ∧ q.maxHeight = j.maxHeight + 1
  root : ∀ {k : Nat} {j : Job}, s.jobs[k]? = some j → ∃ (r : Nat) (top : Job),
    s.jobs[r]? = some top ∧ top.parent = none ∧ j.maxHeight ≤ top.maxHeight ∧
      s.ancestor (top.maxHeight - j.maxHeight) k = some r
  last : ∀ {k : Nat} {j : Job}, s.jobs[k]? = some j → j.maxHeight = 0 →
    s.createJob k = (.error .outOfRange, s)

variable {s : System} {d : List Task}

/-- Every step up adds one to the height and leads to an older job, so it ends at a root. -/
theorem Orderly.reaches_root (h : s.Orderly) (hacc : Accounted s d) {k : Nat} {j : Job}
    (hj : s.jobs[k]? = some j) : ∃ (r : Nat) (top : Job), s.jobs[r]? = some top ∧
      top.parent = none ∧ j.maxHeight ≤ top.maxHeight ∧
        s.ancestor (top.maxHeight - j.maxHeight) k = some r := by
  induction k using Nat.strong_induction_on generalizing j with
  | _ k ih =>
    cases hp : j.parent with
    | none =>
      refine ⟨k, j, hj, hp, Nat.le_refl _, ?_⟩
      rw [Nat.sub_self]
      rfl
    | some p =>
      obtain ⟨q, hq⟩ := Store.contains_iff.1 (hacc.parent hj hp)
      have hheight : q.maxHeight = j.maxHeight + 1 :=
        h.height (job_pedigree hj) hp (job_pedigree hq)
      obtain ⟨r, top, hr, hnone, hle, hsteps⟩ := ih p (h.older (job_pedigree hj) hp) hq
      refine ⟨r, top, hr, hnone, by omega, ?_⟩
      rw [show top.maxHeight - j.maxHeight = top.maxHeight - q.maxHeight + 1 by omega, ancestor,
        hj, Option.bind_some, hp]
      exact hsteps

/-- What a look-up that asks one question finds. -/
theorem found_iff {c x : Koid} {b : Prop} [Decidable b] :
    (if b then some c else none) = some x ↔ x = c ∧ b := by
  rw [Option.ite_none_right_eq_some, Option.some.injEq, and_comm, eq_comm]

/-- **In order is exact**: who is listed is there and is a child of the lister, and who is there and
not dead is listed by its parent.  The accounts add that parents are there as long as their children
are. -/
theorem Orderly.treeExact (h : s.Orderly) (hacc : Accounted s d) : s.TreeExact := by
  -- what the pedigree says of ties and kin, said of the records themselves
  have hjobs : ∀ {k : Nat} {q : Job}, s.jobs[k]? = some q → ∀ c : Nat,
      c ∈ q.jobs ↔ ∃ j, s.jobs[c]? = some j ∧ j.parent = some k := by
    intro k q hq c
    refine ((h.exact (job_pedigree hq)).jobs c).trans ?_
    unfold ChildJob pedigree
    simp only [true_and, Option.map_eq_some_iff, exists_exists_and_eq_and]
    rfl
  have hprocesses : ∀ {k : Nat} {q : Job}, s.jobs[k]? = some q → ∀ p : Nat,
      p ∈ q.processes ↔ ∃ r, s.processes[p]? = some r ∧ r.state = .running ∧ r.job = k := by
    intro k q hq p
    refine ((h.exact (job_pedigree hq)).processes p).trans ?_
    unfold pedigree
    simp only [Option.map_eq_some_iff, exists_exists_and_eq_and]
    rfl
  constructor
  case jobs_lt => exact fun hq => (h.exact (job_pedigree hq)).jobs_lt
  case jobs => exact hjobs
  case processes_lt => exact fun hq => (h.exact (job_pedigree hq)).processes_lt
  case processes => exact hprocesses
  case lookupJob =>
    intro k q hq c x
    have hthere : c ∈ q.jobs → s.jobs.contains c = true := by
      intro hc
      obtain ⟨j, hj, -⟩ := (hjobs hq c).1 hc
      exact Store.contains_iff.2 ⟨j, hj⟩
    unfold System.lookupJob
    rw [hq, ← hjobs hq c]
    exact found_iff.trans (and_congr_right fun _ => and_iff_left_of_imp hthere)
  case lookupProcess =>
    intro k q hq p x
    have hthere : p ∈ q.processes → s.processes.contains p = true := by
      intro hp
      obtain ⟨r, hr, -⟩ := (hprocesses hq p).1 hp
      exact Store.contains_iff.2 ⟨r, hr⟩
    unfold System.lookupProcess
    rw [hq, ← hprocesses hq p]
    exact found_iff.trans (and_congr_right fun _ => and_iff_left_of_imp hthere)
  case height =>
    intro k p j hj hp
    obtain ⟨q, hq⟩ := Store.contains_iff.1 (hacc.parent hj hp)
    exact ⟨q, hq, h.height (job_pedigree hj) hp (job_pedigree hq)⟩
  case root => exact h.reaches_root hacc
  case last =>
    intro k j hj h0
    unfold System.createJob
    rw [hj]
    dsimp only
    rw [h0]

end System

/-! ## 3. Inside of walks

A visitor is called in the midst of a walk, which is an operation of its own.  But the walk has
done nothing by then except to take references and to give them back, and that is what clients may
do at any time. -/

/-- What is done at each thing that a walk comes by, and besides a note of the states in which that
happens, latest first. -/
def noting {α σ : Type} (f : α → System → σ → Bool × System × σ) :
    α → System → σ × List System → Bool × System × (σ × List System) := fun a s own =>
  let (goesOn, t, mine) := f a s own.1
  (goesOn, t, mine, s :: own.2)

namespace World

variable {σ : Type} {P : System → Op → Prop}

/-- Whether visits lead on by operations that keep to a rule.  What the client holds at a visit is
read off what it keeps, and the walk holds something of its own. -/
def Leads {α : Type} (P : System → Op → Prop) (held : σ → List Task)
    (f : α → System → σ → Bool × System × σ) : Prop :=
  ∀ a s own d, Ran P ⟨s, held own ++ d⟩ → Ran P ⟨(f a s own).2.1, held (f a s own).2.2 ++ d⟩

/-- Whoever may take references and give them back stays with the rule when lending. -/
theorem Ran.lending (hshare : ∀ s r, P s (.share r)) (hdrop : ∀ s t, P s (.drop t))
    (mine : List Task) : Lending fun w => Ran P ⟨w.system, mine ++ w.dues⟩ where
  reorder hperm h := h.reorder (hperm.append_left mine)
  share := by
    intro s d r hr h
    have hact := h.act (hshare s r)
    unfold World.act at hact
    dsimp only at hact
    rw [if_pos hr] at hact
    exact hact.reorder List.perm_middle.symm
  release := by
    intro s d r h
    have hact := (h.reorder List.perm_middle).act (hdrop s (.release r))
    unfold World.act at hact
    dsimp only at hact
    rw [if_pos List.mem_cons_self, List.erase_cons_head] at hact
    exact hact

/-- The states in which visits happen, and the one in which a walk ends, are states that operations
lead to. -/
def Noted (P : System → Op → Prop) (held : σ → List Task) (w : World) (own : σ × List System) :
    Prop :=
  Ran P ⟨w.system, held own.1 ++ w.dues⟩ ∧ ∀ t ∈ own.2, ∃ e, Ran P ⟨t, e⟩

/-- A visitor that notes the states it was called in may be lent something. -/
theorem Noted.lending (hshare : ∀ s r, P s (.share r)) (hdrop : ∀ s t, P s (.drop t))
    (held : σ → List Task) (own : σ × List System) : Lending fun w => Noted P held w own where
  reorder hperm h := ⟨(Ran.lending hshare hdrop (held own.1)).reorder hperm h.1, h.2⟩
  share hr h := ⟨(Ran.lending hshare hdrop (held own.1)).share hr h.1, h.2⟩
  release h := ⟨(Ran.lending hshare hdrop (held own.1)).release h.1, h.2⟩

/-- Each visit notes the state that it leaves behind. -/
theorem Noted.visit {α : Type} {held : σ → List Task} {f : α → System → σ → Bool × System × σ}
    (hf : Leads P held f) (a : α) (s : System) (own : σ × List System) (d : List Task)
    (h : Noted P held ⟨s, d⟩ own) :
    Noted P held ⟨(noting f a s own).2.1, d⟩ (noting f a s own).2.2 := by
  refine ⟨hf a s own.1 d h.1, fun t ht => ?_⟩
  rcases List.mem_cons.1 ht with rfl | ht
  · exact ⟨_, h.1⟩
  · exact h.2 t ht

/-- **The tree is exact at rest**: now, and whenever a walk that starts now calls its visitor.
After the walk the client goes on from where its visitor has led it.  The walk over the registry
of jobs hands its visitor no system to change, so it is at rest throughout in the state that it
starts in. -/
structure TreeSound (w : World) : Prop where
  now : w.system.TreeExact
  walk : ∀ {σ : Type} {f : Visitor σ} {held : σ → List Task} {own : σ} {d : List Task},
    Leads (fun _ => Op.LeavesLists) held f → w.dues.Perm (held own ++ d) →
      ∀ (refuses : Allocator) (k : Koid) (deep : Bool),
        let r := w.system.walk refuses k deep (noting f) (own, [])
        (∀ t ∈ r.2.2.2, t.TreeExact) ∧ Ran (fun _ => Op.LeavesLists) ⟨r.2.1, held r.2.2.1 ++ d⟩
  eachVmo : ∀ {σ : Type} {f : VmoId → System → σ → Bool × System × σ} {held : σ → List Task}
    {own : σ} {d : List Task}, Leads (fun _ => Op.LeavesLists) held f →
      w.dues.Perm (held own ++ d) → ∀ enough : Nat → Bool,
        let r := w.system.eachVmo enough (noting f) (own, [])
        (∀ t ∈ r.2.2.2, t.TreeExact) ∧ Ran (fun _ => Op.LeavesLists) ⟨r.2.1, held r.2.2.1 ++ d⟩

/-- So the tree is exact in every state between two operations. -/
theorem Ran.treeExact {w : World} (h : w.Ran fun _ => Op.LeavesLists) : w.system.TreeExact :=
  h.orderly.treeExact h.passed.accounted

/-- What was noted is exact, since it is reached by operations. -/
theorem Noted.treeExact {held : σ → List Task} {w : World} {own : σ × List System}
    (h : Noted (fun _ => Op.LeavesLists) held w own) : ∀ t ∈ own.2, t.TreeExact := by
  intro t ht
  obtain ⟨e, he⟩ := h.2 t ht
  exact he.treeExact

/-- **Visits happen in states that operations lead to**, and so does the end of the walk. -/
theorem Ran.walk_noted {w : World} (hshare : ∀ s r, P s (.share r)) (hdrop : ∀ s t, P s (.drop t))
    {f : Visitor σ} {held : σ → List Task} (hf : Leads P held f) {own : σ} {d : List Task}
    (h : w.Ran P) (hperm : w.dues.Perm (held own ++ d)) (refuses : Allocator) (k : Koid)
    (deep : Bool) :
    Noted P held ⟨(w.system.walk refuses k deep (noting f) (own, [])).2.1, d⟩
      (w.system.walk refuses k deep (noting f) (own, [])).2.2 :=
  System.walk_keeps
    ⟨fun own => Noted.lending hshare hdrop held own, Noted.visit hf⟩ w.system refuses
    k deep (own, []) d ⟨h.reorder hperm, by simp⟩

/-- The walk over the VM objects notes states of runs only. -/
theorem Ran.eachVmo_noted {w : World} (hshare : ∀ s r, P s (.share r))
    (hdrop : ∀ s t, P s (.drop t)) {f : VmoId → System → σ → Bool × System × σ}
    {held : σ → List Task} (hf : Leads P held f) {own : σ} {d : List Task} (h : w.Ran P)
    (hperm : w.dues.Perm (held own ++ d)) (enough : Nat → Bool) :
    Noted P held ⟨(w.system.eachVmo enough (noting f) (own, [])).2.1, d⟩
      (w.system.eachVmo enough (noting f) (own, [])).2.2 :=
  System.eachVmo_keeps (fun own => Noted.lending hshare hdrop held own) (Noted.visit hf) w.system
    enough (own, []) d ⟨h.reorder hperm, by simp⟩

/-- What holds at rest: now, and whenever a walk that starts now calls its visitor.  After the walk
the client goes on from where its visitor has led it. -/
structure AtRest (P : System → Op → Prop) (Good : System → Prop) (w : World) : Prop where
  now : Good w.system
  walk : ∀ {σ : Type} {f : Visitor σ} {held : σ → List Task} {own : σ} {d : List Task},
    Leads P held f → w.dues.Perm (held own ++ d) →
      ∀ (refuses : Allocator) (k : Koid) (deep : Bool),
        let r := w.system.walk refuses k deep (noting f) (own, [])
        (∀ t ∈ r.2.2.2, Good t) ∧ Ran P ⟨r.2.1, held r.2.2.1 ++ d⟩
  eachVmo : ∀ {σ : Type} {f : VmoId → System → σ → Bool × System × σ} {held : σ → List Task}
    {own : σ} {d : List Task}, Leads P held f → w.dues.Perm (held own ++ d) →
      ∀ enough : Nat → Bool,
        let r := w.system.eachVmo enough (noting f) (own, [])
        (∀ t ∈ r.2.2.2, Good t) ∧ Ran P ⟨r.2.1, held r.2.2.1 ++ d⟩

/-- What holds in all states that operations lead to holds at rest, if the rule leaves it to
everybody to take references and to give them back. -/
theorem Ran.atRest {w : World} {Good : System → Prop} (h : w.Ran P)
    (hshare : ∀ s r, P s (.share r)) (hdrop : ∀ s t, P s (.drop t))
    (hgood : ∀ v : World, v.Ran P → Good v.system) : w.AtRest P Good := by
  have hnoted : ∀ {σ : Type} {held : σ → List Task} {v : World} {own : σ × List System},
      Noted P held v own → ∀ t ∈ own.2, Good t := by
    intro σ held v own hv t ht
    obtain ⟨e, he⟩ := hv.2 t ht
    exact hgood _ he
  refine ⟨hgood w h, ?_, ?_⟩
  · intro σ f held own d hf hperm refuses k deep
    have hend := h.walk_noted hshare hdrop hf hperm refuses k deep
    exact ⟨hnoted hend, hend.1⟩
  · intro σ f held own d hf hperm enough
    have hend := h.eachVmo_noted hshare hdrop hf hperm enough
    exact ⟨hnoted hend, hend.1⟩

/-- **In every state at rest of every run the tree of jobs is exact**, as long as nobody enters a
process in a list by hand or takes one off. -/
theorem Ran.tree_sound {w : World} (h : w.Ran fun _ => Op.LeavesLists) : w.TreeSound := by
  refine ⟨h.treeExact, ?_, ?_⟩
  · intro σ f held own d hf hperm refuses k deep
    have hend := h.walk_noted (P := fun _ => Op.LeavesLists) (fun _ _ => trivial)
      (fun _ _ => trivial) hf hperm refuses k deep
    exact ⟨hend.treeExact, hend.1⟩
  · intro σ f held own d hf hperm enough
    have hend := h.eachVmo_noted (P := fun _ => Op.LeavesLists) (fun _ _ => trivial)
      (fun _ _ => trivial) hf hperm enough
    exact ⟨hend.treeExact, hend.1⟩

/-- A root with two child jobs and a process, and a process in the first child. -/
def familyOps : List Op :=
  [.createRootJob false, .createJob 1024, .createJob 1024, .createProcess 1024 Name.blank,
    .createProcess 1025 Name.blank]

theorem ran_family : (run familyOps).Ran fun _ => Op.LeavesLists :=
  Ran.foldl .start ⟨trivial, trivial, trivial, trivial, trivial, trivial⟩

/-- Kills every process that a walk comes by. -/
def killingVisitor : Visitor Unit := fun v s _ =>
  match v with
  | .job _ => (true, s, ())
  | .process p => (true, s.killProcess 0 p, ())

theorem leads_killingVisitor (d : List Task) :
    Leads (fun _ => Op.LeavesLists) (fun _ => d) killingVisitor := by
  intro v s own e h
  cases v with
  | job k => exact h
  | process p =>
    have hkill : Op.LeavesLists (.killProcess 0 p) := trivial
    exact h.act hkill

/-- A walk over the family that kills what it comes by finds the tree exact at every visit, and the
two lists of processes get shorter on the way. -/
theorem Ran.tree_sound_of_family :
    let w := run familyOps
    let r := w.system.walk .generous 1024 true (noting killingVisitor) ((), [])
    (∀ t ∈ r.2.2.2, t.TreeExact) ∧
      r.2.2.2.map (fun t => (t.jobs[1024]?.map Job.processes, t.jobs[1025]?.map Job.processes)) =
        [(some [], some []), (some [], some [1028]), (some [], some [1028]),
          (some [1027], some [1028])] := by
  refine ⟨?_, by cbv⟩
  have hsound := tree_sound ran_family
  have hdues : (run familyOps).dues.Perm ((run familyOps).dues ++ []) :=
    List.Perm.of_eq (List.append_nil _).symm
  exact (hsound.walk (leads_killingVisitor _) hdues .generous 1024 true).1

end World

end KernelObjects
