import KernelObjects.Proofs.Beats
import KernelObjects.Proofs.Lineage
import KernelObjects.Proofs.NoLeaks

/-
# A refused creation leaves no trace

A new object is entered, counted and, if it is a job, registered before its parent is asked.  If
the parent does not take it, the destructor undoes all that, and it is the same destructor that
runs for an object with a long life.  It looks for the object in the parent's list, where it does
not find it, since nobody has listed a koid that was never handed out (`System.ListsKnown`); so no
child has left the parent, no signal is set and no handler is called.  What the object referred to
had another reference, so nothing else goes.

What is left are the koid, which is used up, and the two counters, each one further
(`System.Undone`).  So the difference of the counters shows at any time how many objects of a kind
there are.

"No trace" is an equation between records of the system, field by field.  Beside the next numbers
and the counters only the history of events differs, which has the destruction of the object, and
references are compared by their counts.  That is more than that no client can tell: what nobody
may look at is the same as well.

For a process there is one more thing.  The shared arena is set up before the process is entered,
and it stays if the process is turned down; so the state that is compared is the one with the
arena.
-/

namespace KernelObjects

/-! ## 1. Lists of processes

A list names processes that were there at some time, so a number that is not given out yet is on
none.  That holds as long as nobody lists by hand what does not exist. -/

/-- Whoever lists a process by hand has that process. -/
def Op.AttachesLiving (s : System) : Op → Prop
  | attachProcess _ p => s.processes.contains p
  | _ => True

/-- Every process that a job lists was handed out. -/
def System.ListsKnown (s : System) : Prop :=
  ∀ (k p : Nat) (q : Job), s.jobs[k]? = some q → p ∈ q.processes → p < s.nextKoid

namespace System.ListsKnown

variable {s t : System} {d : List Task}

theorem initial : ListsKnown .initial := fun _ _ _ h => by simp [System.initial] at h

/-- Lists only get shorter, -/
theorem wanes {K P : Koid → Prop} (h : s.ListsKnown) (hw : Wanes K P s t) : t.ListsKnown := by
  intro k p q hq hp
  obtain ⟨a, ha, hab⟩ := hw.job hq
  exact Nat.lt_of_lt_of_le (h _ _ _ ha (hab.processes.subset hp)) hw.nextKoid

/-- and koids only get more. -/
theorem congr (h : s.ListsKnown) (hn : s.nextKoid ≤ t.nextKoid) (hj : t.jobs = s.jobs) :
    t.ListsKnown := fun _ _ _ hq hp => Nat.lt_of_lt_of_le (h _ _ _ (hj ▸ hq) hp) hn

/-- A new job lists nobody. -/
theorem withJob {signals : Signals} {j : Job} (h : s.ListsKnown) (hj : j.processes = []) :
    (s.withJob signals j).ListsKnown := by
  intro k p q hq hp
  rcases Filed.withJob_cases hq with ⟨-, rfl⟩ | ⟨-, hq⟩
  · rw [hj] at hp
    cases hp
  · exact Nat.lt_succ_of_lt (h _ _ _ hq hp)

/-- A list may get an entry whose koid was given out. -/
theorem modifyJob {k : Koid} {f : Job → Job} (h : s.ListsKnown)
    (hf : ∀ j, s.jobs[k]? = some j → ∀ p ∈ (f j).processes, p ∈ j.processes ∨ p < s.nextKoid) :
    (s.modifyJob k f).ListsKnown := by
  intro a p b hb hp
  have hb := (Store.getElem?_modify s.jobs k a f).symm.trans hb
  split at hb
  · rename_i he
    subst he
    obtain ⟨j, hj, rfl⟩ := Option.map_eq_some_iff.1 hb
    exact (hf j hj p hp).elim (h _ _ _ hj) id
  · exact h _ _ _ hb hp

/-- An attached process has a koid that was given out. -/
theorem attachProcess {k p : Koid} (h : s.ListsKnown) (hp : p < s.nextKoid) :
    (s.attachProcess k p).2.ListsKnown := by
  unfold System.attachProcess attach
  split
  · exact h
  · split
    · refine h.modifyJob fun j _ x hx => ?_
      rw [List.mem_append, List.mem_singleton] at hx
      exact hx.imp_right fun he : x = p => he ▸ hp
    · exact h

end System.ListsKnown

/-- Births enter what they bring; nothing is listed by hand that does not exist. -/
theorem Birth.listsKnown {C : Prop} {w w' : World} (h : Birth False C w w')
    (hacc : Accounted w.system w.dues) (hl : w.system.ListsKnown) : w'.system.ListsKnown := by
  -- A list may name what is gone, but never a koid that was not given out yet.  What a birth
  -- lists was there before or is what it brings.
  cases h with
  | job _ _ hq _ => exact hl.withJob hq
  | @child s d signals job p q f _ _ hq _ hj _ _ hf =>
    refine (hl.withJob hq).modifyJob fun j hj' x hx => .inl ?_
    rcases Filed.withJob_cases hj' with ⟨he, -⟩ | ⟨-, hj'⟩
    · exact absurd he.symm (Nat.ne_of_lt (hacc.job_lt hj))
    · rw [hj] at hj'
      cases hj'
      rwa [show (f q).processes = q.processes from congrArg Job.Kin.processes hf] at hx
  | @list s d k p j f hj hr hp hf =>
    refine hl.modifyJob fun i hi x hx => ?_
    rw [hj] at hi
    cases hi
    rw [show (f j).processes = j.processes ++ [p] from congrArg Job.Kin.processes hf,
      List.mem_append, List.mem_singleton] at hx
    obtain ⟨q, hq, -⟩ := hp.resolve_right id
    exact hx.imp_right fun he : x = p => he ▸ hacc.process_lt hq
  | @unlist s d k p j f hj hf =>
    refine hl.modifyJob fun i hi x hx => .inl ?_
    rw [hj] at hi
    cases hi
    rw [show (f j).processes = j.processes.erase p from congrArg Job.Kin.processes hf] at hx
    exact List.mem_of_mem_erase hx
  | process | view | witness => exact hl.congr (Nat.le_succ _) rfl
  | _ => exact hl.congr (Nat.le_refl _) rfl

/-- So it holds along every run of moves. -/
theorem Moves.listsKnown {C : Prop} {w w' : World} (h : Moves False C w w')
    (hacc : Accounted w.system w.dues) (hl : w.system.ListsKnown) : w'.system.ListsKnown := by
  induction h with
  | refl => exact hl
  | tail hrun hmove ih =>
    rcases hmove with hmove | hmove
    · exact ih.wanes hmove.wanes
    · exact hmove.listsKnown (Moves.accounted hrun hacc) ih

/-- **Every listed process was handed out**, as long as nobody lists one that does not exist. -/
theorem World.Ran.listsKnown {w : World} (h : w.Ran fun s op => op.AttachesLiving s) :
    w.system.ListsKnown := by
  induction h with
  | start => exact System.ListsKnown.initial
  | reorder _ _ ih => exact ih
  | @act w op h hop ih =>
    have hacc := h.passed.accounted
    by_cases hA : op.Attaches
    · cases op with
      | attachProcess k p =>
        obtain ⟨q, hq⟩ := Store.contains_iff.1 (show w.system.processes.contains p from hop)
        exact ih.attachProcess (hacc.process_lt hq)
      | _ => exact hA.elim
    · exact (World.act_moves (C := True) hacc op hA fun _ => trivial).listsKnown hacc ih

/-! ## 2. What is undone

The new record is taken out of the stores that it was entered in, under its own number, and the
registry loses the entry that it got. -/

/-- What a refused creation leaves of a state: the koid is used up, as the identity of its table may
be, and an object was counted as created and as destroyed. -/
structure System.Undone (s : System) (created destroyed : Meter) (t : System) : Prop where
  state : t = { s with
    nextKoid := s.nextKoid + 1
    nextId := t.nextId
    counters := (s.counters.bump created).bump destroyed
    refs := t.refs
    trace := .destroyed s.nextKoid none :: s.trace }
  nextId : s.nextId ≤ t.nextId
  refs : ∀ r, t.refCount r = s.refCount r

/-- A registration that was just made can be taken out again. -/
theorem filter_insertAfter {c k : Koid} {R : List Koid} (h : k ∉ R) :
    (System.insertAfter c k R).filter (· ≠ k) = R := by
  induction R with
  | nil => simp [System.insertAfter]
  | cons r R ih =>
    obtain ⟨hr, hR⟩ := not_or.1 (mt List.mem_cons.2 h)
    have hrest : R.filter (· ≠ k) = R := List.filter_eq_self.2 fun x hx => by
      simpa using fun he : x = k => hR (he ▸ hx)
    unfold System.insertAfter
    split
    · rw [List.filter_cons, if_pos (by simpa using Ne.symm hr), List.filter_cons,
        if_neg (by simp), hrest]
    · rw [List.filter_cons, if_pos (by simpa using Ne.symm hr), ih hR]

namespace System

variable {s t : System} {d : List Task}

/-- A job that does not list a child does not lose it. -/
theorem detachJob_of_stranger {k c : Koid} (h : ∀ j, s.jobs[k]? = some j → c ∉ j.jobs) :
    s.detachJob k c = s := by
  unfold detachJob
  split
  · rfl
  · rename_i j hj
    rw [if_neg (h j hj)]

/-- Who is not listed cannot be taken off. -/
theorem detachProcess_of_stranger {k p : Koid} (h : ∀ j, s.jobs[k]? = some j → p ∉ j.processes) :
    s.detachProcess k p = s := by
  unfold detachProcess
  split
  · rfl
  · rename_i j hj
    rw [if_neg (h j hj)]

/-- Both references are given back with the object. -/
theorem count_undone (hacc : Accounted s d) (r q : Ref) :
    ((((s.refs.retain (.object s.nextKoid)).retain r).release (.object s.nextKoid)).release r).count
      q = s.refCount q := by
  have hzero : s.refs.count (.object s.nextKoid) = 0 :=
    hacc.refCount_of_not_present hacc.not_present_object
  unfold refCount
  rw [RefCounts.count_release, RefCounts.count_release, RefCounts.count_retain,
    RefCounts.count_retain]
  split <;> split <;> omega

/-! ## 3. Jobs

The child is entered, registered and counted, and all of that is undone. -/

/-- A job is entered below its parent. -/
theorem addJob_child {p : Koid} {q job : Job} (hacc : Accounted s d) (hq : s.jobs[p]? = some q)
    (hp : job.parent = some p) :
    s.addJob job = (s.nextKoid, { s.withJob (Signals.noJobs ∪ Signals.noProcesses) job with
      counters := s.counters.bump .jobCreate
      registry := insertAfter (q.jobs.getLastD p) s.nextKoid s.registry }) := by
  have hget : (s.jobs.insert s.nextKoid job)[p]? = some q := by
    rw [Store.getElem?_insert, if_neg (ne_nextKoid hacc hq), hq]
  unfold addJob withJob
  rw [hp]
  dsimp only [freshKoid, addObject, retain, register, bump]
  rw [hget]
  rfl

/-- The destructor of a job that was not taken. -/
theorem destroyObject_untaken {p : Koid} {q job : Job} {k : Koid} (hj : s.jobs[k]? = some job)
    (hp : job.parent = some p) (hq : s.jobs[p]? = some q) (hne : k ≠ p) (hk : k ∉ q.jobs) :
    s.destroyObject k = ({ s with
      objects := s.objects.erase k
      jobs := s.jobs.erase k
      registry := s.registry.filter (· ≠ k)
      counters := s.counters.bump .jobDestroy
      trace := .destroyed k none :: s.trace }, [.release (.object p)]) := by
  unfold destroyObject
  dsimp only
  rw [hj]
  dsimp only
  rw [hp]
  dsimp only
  rw [detachJob_of_stranger fun j hj' => ?_]
  · rfl
  · have hj' := (Store.getElem?_erase _ _ _).symm.trans hj'
    rw [if_neg hne, hq] at hj'
    cases hj'
    exact hk

/-- **A refused child leaves nothing behind** but a koid and two counters.  It is destroyed where
nobody refers to it: its parent never listed it, so no signal moves, and the registry loses the
entry that it had got. -/
theorem undone_job {p : Koid} {q job : Job} (hacc : Accounted s d) (hl : Lineage s)
    (hreg : s.nextKoid ∉ s.registry) (hq : s.jobs[p]? = some q) (hp : job.parent = some p) :
    s.Undone .jobCreate .jobDestroy ((s.addJob job).2.release (.object s.nextKoid)) := by
  have hfresh := hacc.fresh_object
  have hne := ne_nextKoid hacc hq
  obtain ⟨hone, hmany⟩ := count_entered (r := .object p) hacc (.inl (Store.contains_iff.2 ⟨q, hq⟩))
  have hstranger : s.nextKoid ∉ q.jobs := fun hc => Nat.lt_irrefl _ (hl.known hq hc)
  rw [addJob_child hacc hq hp]
  dsimp only
  set u : System := { s.withJob (Signals.noJobs ∪ Signals.noProcesses) job with
    counters := s.counters.bump .jobCreate
    registry := insertAfter (q.jobs.getLastD p) s.nextKoid s.registry } with hu
  have hrefs : u.refs = (s.refs.retain (.object s.nextKoid)).retain (.object p) := by
    rw [hu, withJob, hp]
    rfl
  have hnew : u.jobs[s.nextKoid]? = some job := (Store.getElem?_insert _ _ _ _).trans (if_pos rfl)
  have hparent : u.jobs[p]? = some q :=
    (Store.getElem?_insert _ _ _ _).trans ((if_neg hne).trans hq)
  rw [← hrefs] at hone hmany
  -- The destructor that runs is the usual one.  It asks the parent to forget the child, and the
  -- parent does not have it.
  have hgone := destroyObject_untaken (s := { u with refs := u.refs.release (.object s.nextKoid) })
    hnew hp hparent hne hstranger
  rw [release_of_one hone hgone hmany, settle]
  constructor
  case state =>
    have hobjects : u.objects.erase s.nextKoid = s.objects := Store.erase_insert_of_none hfresh.1 _
    have hjobs : u.jobs.erase s.nextKoid = s.jobs := Store.erase_insert_of_none hfresh.2.1 _
    have hregistry : u.registry.filter (· ≠ s.nextKoid) = s.registry := filter_insertAfter hreg
    dsimp only
    rw [hobjects, hjobs, hregistry]
    rfl
  case nextId => exact Nat.le_refl _
  case refs =>
    intro r
    show (RefCounts.release _ _).count r = _
    rw [hrefs]
    exact count_undone hacc _ r

/-! ## 4. Processes

The same with a table, which comes and goes with the process. -/

/-- Closing an empty table closes nothing else. -/
theorem settle_closeTable {t : TableId} {table : Table} (ht : s.tables[t]? = some table)
    (he : table.owned = ∅) : s.settle [.closeTable t] = { s with tables := s.tables.erase t } := by
  rw [settle]
  unfold perform
  dsimp only
  rw [ht]
  dsimp only
  rw [he]
  exact settle.eq_1 _

/-- The destructor of a process that was not taken. -/
theorem destroyObject_untaken_process {k : Koid} {q : Process} (hj : s.jobs[k]? = none)
    (hq : s.processes[k]? = some q) (hk : ∀ j, s.jobs[q.job]? = some j → k ∉ j.processes) :
    s.destroyObject k = ({ s with
      objects := s.objects.erase k
      processes := s.processes.erase k
      counters := s.counters.bump .processDestroy
      trace := .destroyed k none :: s.trace },
        [.release (.object q.job), .closeTable q.table]) := by
  unfold destroyObject
  dsimp only
  rw [hj, hq]
  dsimp only
  rw [detachProcess_of_stranger fun j hj' => ?_]
  · rfl
  · exact hk j hj'

/-- The same of a process.  No list has its koid, so to take it off its job's list does nothing, and
its table is empty. -/
theorem undone_process {job : Koid} {j : Job} (hacc : Accounted s d) (hl : s.ListsKnown)
    (hj : s.jobs[job]? = some j) (name : Name) (policy : Policy) :
    s.Undone .processCreate .processDestroy
      ((s.enterProcess job name policy).release (.object s.nextKoid)) := by
  obtain ⟨hobject, hnojob, hprocess, -, -⟩ := hacc.fresh_object
  obtain ⟨hone, hmany⟩ :=
    count_entered (r := .object job) hacc (.inl (Store.contains_iff.2 ⟨j, hj⟩))
  have hstranger : ∀ i, s.jobs[job]? = some i → s.nextKoid ∉ i.processes :=
    fun i hi hc => Nat.lt_irrefl _ (hl _ _ _ hi hc)
  have htable : s.tables[s.nextId]? = none := Store.contains_eq_false_iff.1
    (Bool.eq_false_iff.2 fun hc => Nat.lt_irrefl _ (hacc.bounded.table hc))
  set u := s.enterProcess job name policy
  have hone : u.refCount (.object s.nextKoid) = 1 := hone
  have hnew : u.processes[s.nextKoid]? = some { job, name, policy, table := s.nextId } :=
    (Store.getElem?_insert _ _ _ _).trans (if_pos rfl)
  have hopen : u.tables[s.nextId]? = some { process := s.nextKoid, arena := sharedArena } :=
    (Store.getElem?_insert _ _ _ _).trans (if_pos rfl)
  have hgone := destroyObject_untaken_process
    (s := { u with refs := u.refs.release (.object s.nextKoid) }) hnojob hnew hstranger
  rw [release_of_one hone hgone hmany]
  -- The process goes at once, and then its table, in which nothing can be: nobody got hold of the
  -- process to put something there.
  have hclose := settle_closeTable (s := { u with
    refs := (u.refs.release (.object s.nextKoid)).release (.object job)
    objects := u.objects.erase s.nextKoid
    processes := u.processes.erase s.nextKoid
    counters := u.counters.bump .processDestroy
    trace := .destroyed s.nextKoid none :: u.trace }) hopen rfl
  refine (congrArg (Undone s _ _) hclose).mpr ?_
  constructor
  case state =>
    have hobjects : u.objects.erase s.nextKoid = s.objects := Store.erase_insert_of_none hobject _
    have hprocesses : u.processes.erase s.nextKoid = s.processes :=
      Store.erase_insert_of_none hprocess _
    have htables : u.tables.erase s.nextId = s.tables := Store.erase_insert_of_none htable _
    dsimp only
    rw [hobjects, hprocesses, htables]
    rfl
  case nextId => exact Nat.le_succ _
  case refs => exact count_undone hacc _

/-! ## 5. Views

A view is turned down because its object has a stamp or a watcher already; the one that is there
stays. -/

/-- The destructor of a view. -/
theorem destroyObject_view {k : Koid} {v : View} (hj : s.jobs[k]? = none)
    (hp : s.processes[k]? = none) (hv : s.views[k]? = some v) :
    s.destroyObject k = ({ s with
      objects := s.objects.erase k
      views := s.views.erase k
      counters := s.counters.bump .viewDestroy
      trace := .destroyed k none :: s.trace }, [.release (.vmo v.vmo)]) := by
  unfold destroyObject
  dsimp only
  rw [hj, hp, hv]
  rfl

/-- The same of a view, which neither stamped its object nor watches it. -/
theorem undone_view {v : VmoId} (hacc : Accounted s d) (hv : s.vmos.contains v) :
    s.Undone .viewCreate .viewDestroy
      ((s.enterView v).release (.object s.nextKoid)) := by
  obtain ⟨hobject, hnojob, hnoprocess, hview, -⟩ := hacc.fresh_object
  obtain ⟨hone, hmany⟩ := count_entered (r := .vmo v) hacc hv
  set u := s.enterView v
  have hone : u.refCount (.object s.nextKoid) = 1 := hone
  have hnew : u.views[s.nextKoid]? = some { vmo := v } :=
    (Store.getElem?_insert _ _ _ _).trans (if_pos rfl)
  have hgone := destroyObject_view (s := { u with refs := u.refs.release (.object s.nextKoid) })
    hnojob hnoprocess hnew
  rw [release_of_one hone hgone hmany, settle]
  constructor
  case state =>
    have hobjects : u.objects.erase s.nextKoid = s.objects := Store.erase_insert_of_none hobject _
    have hviews : u.views.erase s.nextKoid = s.views := Store.erase_insert_of_none hview _
    dsimp only
    rw [hobjects, hviews]
    rfl
  case nextId => exact Nat.le_refl _
  case refs => exact count_undone hacc _

/-! ## 6. Refusals

All reasons for which a creation may fail, by the guards in the program. -/

/-- Why the creation of a child job fails, and what it leaves. -/
inductive JobRefused (s : System) (p : Koid) : Refusal → System → Prop
  | absent (h : s.jobs[p]? = none) : JobRefused s p .badState s
  /-- No job may be created below the parent, and nothing is tried. -/
  | low {j : Job} (h : s.jobs[p]? = some j) (hm : j.maxHeight = 0) : JobRefused s p .outOfRange s
  /-- The parent does not take children any more. -/
  | closed {j : Job} {t : System} (h : s.jobs[p]? = some j) (hm : 0 < j.maxHeight)
      (hr : j.state ≠ .ready) (hu : s.Undone .jobCreate .jobDestroy t) : JobRefused s p .badState t

/-- Why the creation of a process fails, and what it leaves: the shared arena is set up all the
same. -/
inductive ProcessRefused (s : System) (job : Koid) : Refusal → System → Prop
  | absent (h : s.jobs[job]? = none) : ProcessRefused s job .badState s
  | closed {j : Job} {t : System} (h : s.jobs[job]? = some j) (hr : j.state ≠ .ready)
      (hu : s.openSharedArena.Undone .processCreate .processDestroy t) :
      ProcessRefused s job .badState t

/-- Why the creation of a view fails, and what it leaves. -/
inductive ViewRefused (s : System) (v : VmoId) : Refusal → System → Prop
  | absent (h : s.vmos[v]? = none) : ViewRefused s v .badState s
  /-- The object has the stamp of another view. -/
  | stamped {o : Vmo} {t : System} (h : s.vmos[v]? = some o)
      (hm : ∀ m, s.member v = some m → m.userId ≠ 0)
      (hu : s.Undone .viewCreate .viewDestroy t) : ViewRefused s v .badState t

/-- The refusals of the creation of a job, and what each leaves, -/
theorem createJob_refused {p : Koid} {e : Refusal} (hacc : Accounted s d) (hl : Lineage s)
    (hreg : s.nextKoid ∉ s.registry) (h : s.createJob p = (.error e, t)) : s.JobRefused p e t := by
  have hcreation := createJob_creation hacc p
  rw [h] at hcreation
  cases hcreation with
  | absent hq => exact .absent hq
  | low hq hh => exact .low hq hh
  | untaken hq hh hr =>
    exact .closed hq (hh ▸ Nat.succ_pos _) hr (undone_job hacc hl hreg hq rfl)

/-- of that of a process, -/
theorem createProcess_refused {job : Koid} {name : Name} {e : Refusal} (hacc : Accounted s d)
    (hl : s.ListsKnown) (h : s.createProcess job name = (.error e, t)) :
    s.ProcessRefused job e t := by
  have hcreation := s.createProcess_creation job name
  rw [h] at hcreation
  cases hcreation with
  | absent hj => exact .absent hj
  | offered hoffer =>
    obtain ⟨hkoid, hjobs⟩ := s.openSharedArena_keeps
    have hknown : s.openSharedArena.ListsKnown := hl.congr hkoid.ge hjobs
    cases hoffer with
    | @untaken j hj hr =>
      exact .closed (hjobs ▸ hj) hr
        (undone_process (openSharedArena_accounted hacc) hknown hj name j.policy)

/-- and of that of a view. -/
theorem createView_refused {v : VmoId} {e : Refusal} (hacc : Accounted s d)
    (h : s.createView v = (.error e, t)) : s.ViewRefused v e t := by
  have hcreation := s.createView_creation v
  rw [h] at hcreation
  cases hcreation with
  | absent hv => exact .absent hv
  | @stamped o ho hm => exact .stamped ho hm (undone_view hacc (Store.contains_iff.2 ⟨o, ho⟩))

end System

/-! ## 7. Every state

The conditions of the lemmas above hold in every state that operations lead to. -/

/-- What holds of creations that fail, and of what the counters of creations say. -/
structure World.RefusalsUndone (w : World) : Prop where
  job : ∀ {p : Koid} {e : Refusal} {t : System}, w.system.createJob p = (.error e, t) →
    w.system.JobRefused p e t
  process : ∀ {job : Koid} {name : Name} {e : Refusal} {t : System},
    w.system.createProcess job name = (.error e, t) → w.system.ProcessRefused job e t
  view : ∀ {v : VmoId} {e : Refusal} {t : System}, w.system.createView v = (.error e, t) →
    w.system.ViewRefused v e t
  arena : w.system.openSharedArena =
    if w.system.arenas.contains System.sharedArena then w.system
    else { w.system with
      config := some (w.system.config.getD {})
      arenas := w.system.arenas.insert System.sharedArena
        (Arena.ofCapacity (w.system.config.getD {}).arenaCapacity) }
  jobs : w.system.counters.jobCreate =
    Word.addWrap w.system.counters.jobDestroy w.system.jobs.size
  processes : w.system.counters.processCreate =
    Word.addWrap w.system.counters.processDestroy w.system.processes.size
  views : w.system.counters.viewCreate =
    Word.addWrap w.system.counters.viewDestroy w.system.views.size

namespace World

variable {w : World}

/-- **A refused creation leaves no trace** but a koid that is used up and two counters that are one
further, whatever clients did before, as long as they list no process that does not exist. -/
theorem Ran.refusals_undone (h : w.Ran fun s op => op.AttachesLiving s) : w.RefusalsUndone := by
  have hacc := h.passed.accounted
  have hcounted := h.counted
  have hreg : w.system.nextKoid ∉ w.system.registry := by
    intro hk
    rw [h.mem_registry, Store.contains_eq_isSome, hacc.fresh_object.2.1] at hk
    cases hk
  exact {
    job := System.createJob_refused hacc h.passed.lineage hreg
    process := System.createProcess_refused hacc h.listsKnown
    view := System.createView_refused hacc
    arena := System.openSharedArena_eq _
    jobs := hcounted.jobs.created
    processes := hcounted.processes.created
    views := hcounted.views.created }

/-- A root job below which there may be one generation, and its child.  The root is being killed. -/
def refusingOps : List Op :=
  [.installConfig { rootHeight := 1 }, .createRootJob true, .createJob 1024,
    .killJob .generous 5 1024]

/-- A VM object with a view. -/
def viewedOps : List Op := [.createVmo 4096 0, .createView 1]

/-- The root refuses a job and a process, its child refuses a job, and the object another view. -/
theorem Ran.refusals_undone_of_refusing :
    let w := run refusingOps
    let v := run viewedOps
    w.RefusalsUndone ∧ v.RefusalsUndone ∧
      (w.system.createJob 1024).1 = .error .badState ∧
      (w.system.createJob 1025).1 = .error .outOfRange ∧
      (w.system.createProcess 1024 Name.blank).1 = .error .badState ∧
      (v.system.createView 1).1 = .error .badState := by
  have hrefusing : (run refusingOps).Ran fun s op => op.AttachesLiving s :=
    Ran.start.foldl (by simp [refusingOps, Keep, Op.AttachesLiving])
  have hviewed : (run viewedOps).Ran fun s op => op.AttachesLiving s :=
    Ran.start.foldl (by simp [viewedOps, Keep, Op.AttachesLiving])
  exact ⟨refusals_undone hrefusing, refusals_undone hviewed, by cbv, by cbv, by cbv,
    by decide +kernel⟩

end World

end KernelObjects
