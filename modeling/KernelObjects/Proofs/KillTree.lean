import KernelObjects.Proofs.Wanes

/-
# The kill walk is a recursion

The walk of `killJob` keeps a stack of frames and a budget.  What it does is said more plainly by
a recursion over the tree: a job that is not ready is passed by; a job whose snapshot is refused
stays as it is with everything below it; any other job is committed to dying, then its child jobs
are killed one after the other, each with all that is below it, and its processes last.
`KillsEach` and `KillsTop` are that recursion, rule by rule, and `killJob_iff_killsTop` says that
the walk ends, in every state and for every allocator, where the recursion ends: same state and
same trace, same requests for memory, same answer.

A snapshot shows the tree at the moment when the recursion reaches the job.  Processes that were
killed before may have taken jobs with them, so the children in it are not those of the start.

**Why the two agree.**  A frame stands for the rest of one level of the recursion
(`KillsFrames`).  The walk follows the recursion as long as its budget lasts, and it lasts because
the budget covers all ready jobs (`readyCount`): whoever is entered stops being ready, and nothing
that is killed or destroyed in between makes a job ready again (`Wanes`).

**Why a relation and not a function.**  A recursion over the tree has no measure that can be read
off the tree, since the tree changes under it; the measure is the number of ready jobs, and that
it drops is a theorem about the kill and not about a list.  The rules need no measure, they
determine the outcome (`KillsEach.unique`), and that there is one is what the walk shows.

The equivalence is a tool as much as a result.  Whatever lending, committing one job and killing
one process keep is kept by a kill (`KillsTop.keeps_within`), and nobody has to look at frames
again.
-/

namespace KernelObjects

/-! ## 1. The recursion

Three rules for jobs that are killed in turn: the job is not ready, or its snapshot is refused, or
it is granted.  What is below a job is killed before the next one is looked at. -/

namespace System

/-- Whether a job is there and takes children. -/
def IsReady (s : System) (k : Koid) : Prop := ∃ j, s.jobs[k]? = some j ∧ j.state = .ready

/-- Commits a job to dying: it takes the return code, and is dead at once if it lists no child. -/
def commitKill (s : System) (code : Int) (k : Koid) (j : Job) : System :=
  let s := s.modifyJob k fun j => { j with returnCode := code, state := .killing }
  let s := s.log (.jobKilled k code)
  if j.processes = [] ∧ j.jobs = [] then s.markDead k else s

/-- Holds the children of a snapshot. -/
def hold (s : System) (c : Children) : System :=
  (s.retainAll (c.processes.map .object)).retainAll (c.jobs.map .object)

end System

namespace KillWalk

/-- Whether the memory for the snapshot of a job is refused. -/
def Refused (w : KillWalk) (k : Koid) : Prop :=
  w.supply.refuses w.supply.asked (w.system.snapshotRequest k) = true

/-- Asks for the memory of a snapshot. -/
def ask (w : KillWalk) (k : Koid) : KillWalk :=
  { w with supply := { w.supply with asked := w.system.snapshotRequest k :: w.supply.asked } }

/-- Gives back the job that was reached. -/
def drop (w : KillWalk) (k : Koid) : KillWalk :=
  { w with system := w.system.release (.object k) }

/-- Takes the snapshot of a job and commits the job to dying. -/
def commit (w : KillWalk) (code : Int) (k : Koid) (j : Job) : KillWalk :=
  { w.ask k with system := (w.system.hold (w.system.liveChildren k)).commitKill code k j }

end KillWalk

/-- Kills jobs in turn, each with everything below it.  All of them are held; each is given back
when it was passed by, refused or committed. -/
inductive KillsEach (code : Int) : List Koid → KillWalk → KillWalk → Prop
  | nil {w : KillWalk} : KillsEach code [] w w
  | passed {k : Koid} {ks : List Koid} {w w' : KillWalk} (hr : ¬ w.system.IsReady k)
      (rest : KillsEach code ks (w.drop k) w') : KillsEach code (k :: ks) w w'
  | refused {k : Koid} {ks : List Koid} {w w' : KillWalk} (hr : w.system.IsReady k)
      (hm : w.Refused k) (rest : KillsEach code ks ({ w.ask k with failed := true }.drop k) w') :
      KillsEach code (k :: ks) w w'
  | killed {k : Koid} {ks : List Koid} {j : Job} {w v w' : KillWalk}
      (hj : w.system.jobs[k]? = some j) (hr : j.state = .ready) (hm : ¬ w.Refused k)
      (below : KillsEach code (w.system.liveChildren k).jobs ((w.commit code k j).drop k) v)
      (rest : KillsEach code ks (v.leave code (w.system.liveChildren k).processes) w') :
      KillsEach code (k :: ks) w w'

/-- Kills a job with everything below it and answers.  The job itself is not given back. -/
inductive KillsTop (refuses : Allocator) (code : Int) (k : Koid) (s : System) :
    Outcome Bool × System → Prop
  | passed (hr : ¬ s.IsReady k) : KillsTop refuses code k s (.ok false, s)
  | refused (hr : s.IsReady k) (hm : refuses [] (s.snapshotRequest k) = true) :
      KillsTop refuses code k s (.error .noMemory, s)
  | killed {j : Job} {w : KillWalk} (hj : s.jobs[k]? = some j) (hr : j.state = .ready)
      (hm : ¬ refuses [] (s.snapshotRequest k) = true)
      (below : KillsEach code (s.liveChildren k).jobs
        (KillWalk.commit { system := s, supply := ⟨refuses, []⟩ } code k j) w) :
      KillsTop refuses code k s
        (if w.failed then .error .noMemory else .ok true,
          (w.leave code (s.liveChildren k).processes).system)

/-- The recursion ends in one way only. -/
theorem KillsEach.unique {code : Int} {ks : List Koid} {w a b : KillWalk}
    (ha : KillsEach code ks w a) (hb : KillsEach code ks w b) : a = b := by
  induction ha generalizing b with
  | nil => cases hb; rfl
  | passed hr _ ih =>
    cases hb with
    | passed _ rest => exact ih rest
    | refused hr' => exact absurd hr' hr
    | killed hj hr' => exact absurd ⟨_, hj, hr'⟩ hr
  | refused hr hm _ ih =>
    cases hb with
    | passed hr' => exact absurd hr hr'
    | refused _ _ rest => exact ih rest
    | killed _ _ hm' => exact absurd hm hm'
  | killed hj hr hm _ _ ihBelow ihRest =>
    cases hb with
    | passed hr' => exact absurd ⟨_, hj, hr⟩ hr'
    | refused _ hm' => exact absurd hm' hm
    | killed hj' _ _ below rest =>
      rw [hj] at hj'
      cases hj'
      have := ihBelow below
      subst this
      exact ihRest rest

/-- A kill has one outcome only, so to exhibit one is to say what the kill does. -/
theorem KillsTop.unique {refuses : Allocator} {code : Int} {k : Koid} {s : System}
    {a b : Outcome Bool × System} (ha : KillsTop refuses code k s a)
    (hb : KillsTop refuses code k s b) : a = b := by
  cases ha with
  | passed hr =>
    cases hb with
    | passed => rfl
    | refused hr' => exact absurd hr' hr
    | killed hj hr' => exact absurd ⟨_, hj, hr'⟩ hr
  | refused hr hm =>
    cases hb with
    | passed hr' => exact absurd hr hr'
    | refused => rfl
    | killed _ _ hm' => exact absurd hm hm'
  | killed hj hr hm below =>
    cases hb with
    | passed hr' => exact absurd ⟨_, hj, hr⟩ hr'
    | refused _ hm' => exact absurd hm' hm
    | killed hj' _ _ below' =>
      rw [hj] at hj'
      cases hj'
      rw [below.unique below']

/-! ## 2. What lending keeps

References that are taken for a snapshot and given back later are no change of what a kill is
about, but they may be the last ones when they are given back.  So a property that is to survive a
kill has to survive lending first. -/

/-- What holds of a world however references are taken and given back. -/
structure World.Lending (I : World → Prop) : Prop where
  /-- The dues stand in no order. -/
  reorder : ∀ {s : System} {d e : List Task}, d.Perm e → I ⟨s, d⟩ → I ⟨s, e⟩
  share : ∀ {s : System} {d : List Task} {r : Ref}, s.Present r → I ⟨s, d⟩ →
    I ⟨s.retain r, .release r :: d⟩
  release : ∀ {s : System} {d : List Task} {r : Ref}, I ⟨s, .release r :: d⟩ → I ⟨s.release r, d⟩

namespace System

/-- To hold children is a matter of references, so the records of jobs stay. -/
theorem jobs_hold (s : System) (c : Children) : (s.hold c).jobs = s.jobs := by
  have hkeep : ∀ (rs : List Ref) (s : System), (s.retainAll rs).jobs = s.jobs := by
    intro rs
    induction rs with
    | nil => exact fun _ => rfl
    | cons r rs ih => exact fun s => ih _
  unfold hold
  rw [hkeep, hkeep]

/-- The references that the snapshot of a job takes. -/
def snapshotDues (s : System) (k : Koid) : List Task :=
  ((s.liveChildren k).jobs.map fun c => .release (.object c)) ++
    (s.liveChildren k).processes.map fun p => .release (.object p)

/-- A snapshot lists what is there, so it can be held. -/
theorem present_of_mem_processes {s : System} {k p : Koid}
    (h : p ∈ (s.liveChildren k).processes) : s.Present (.object p) := by
  unfold liveChildren at h
  split at h
  · cases h
  · exact .inr (.inl (List.mem_filter.1 h).2)

/-- The same of the jobs of a snapshot. -/
theorem present_of_mem_jobs {s : System} {k c : Koid} (h : c ∈ (s.liveChildren k).jobs) :
    s.Present (.object c) := by
  unfold liveChildren at h
  split at h
  · cases h
  · exact .inl (List.mem_filter.1 h).2

end System

namespace World.Lending

variable {I : World → Prop} {s : System} {d : List Task}

/-- Taking references to things that are there. -/
theorem retainAll (h : Lending I) {rs : List Ref} (hr : ∀ r ∈ rs, s.Present r) (hi : I ⟨s, d⟩) :
    I ⟨s.retainAll rs, rs.map .release ++ d⟩ := by
  induction rs generalizing s d with
  | nil => exact hi
  | cons r rs ih =>
    have hrest : ∀ q ∈ rs, (s.retain r).Present q := fun q hq =>
      System.present_retain r (hr q (List.mem_cons_of_mem _ hq))
    exact h.reorder List.perm_middle (ih hrest (h.share (hr r (List.mem_cons_self ..)) hi))

/-- Giving back references one after the other. -/
theorem releaseAll (h : Lending I) (rs : List Ref) (hi : I ⟨s, rs.map .release ++ d⟩) :
    I ⟨s.releaseAll rs, d⟩ := by
  induction rs generalizing s with
  | nil =>
    unfold System.releaseAll
    rw [List.map_nil, System.settle]
    exact hi
  | cons r rs ih =>
    have hrest := ih (h.release hi)
    unfold System.releaseAll at hrest ⊢
    rw [List.map_cons, ← List.singleton_append, System.settle_append]
    exact hrest

/-- The references that a snapshot takes are due from then on, and each is taken to something that
is there. -/
theorem hold (h : Lending I) (k : Koid) (hi : I ⟨s, d⟩) :
    I ⟨s.hold (s.liveChildren k), s.snapshotDues k ++ d⟩ := by
  have hps : ∀ r ∈ (s.liveChildren k).processes.map Ref.object, s.Present r := by
    intro r hr
    obtain ⟨p, hp, rfl⟩ := List.mem_map.1 hr
    exact System.present_of_mem_processes hp
  have hjs : ∀ r ∈ (s.liveChildren k).jobs.map Ref.object,
      (s.retainAll ((s.liveChildren k).processes.map .object)).Present r := by
    intro r hr
    obtain ⟨c, hc, rfl⟩ := List.mem_map.1 hr
    exact System.present_retainAll (System.present_of_mem_jobs hc)
  have hrun := h.retainAll hjs (h.retainAll hps hi)
  simp only [List.map_map, Function.comp_def] at hrun
  unfold System.hold System.snapshotDues
  rw [List.append_assoc]
  exact hrun

variable {code : Int}

/-- Killing processes that are held gives them back. -/
theorem killProcesses (h : Lending I) (ps : List Koid)
    (hkill : ∀ {s : System} {d : List Task}, ∀ p ∈ ps, I ⟨s, d⟩ → I ⟨s.killProcess code p, d⟩)
    (hi : I ⟨s, (ps.map fun p => .release (.object p)) ++ d⟩) :
    I ⟨System.killProcesses code ps s, d⟩ := by
  induction ps generalizing s with
  | nil => exact hi
  | cons p ps ih =>
    exact ih (fun q hq => hkill q (List.mem_cons_of_mem _ hq))
      (h.release (hkill p List.mem_cons_self hi))

end World.Lending

section Keeps

variable {I : World → Prop} {code : Int} {K P : Koid → Prop}

/-- **What lending, committing a job of `K` and killing a process of `P` keep, killing jobs of `K`
in turn keeps**, if the children of jobs of `K` are in `K` and in `P`.  It gives back the
references to the jobs. -/
theorem KillsEach.keeps_within {ks : List Koid} {w w' : KillWalk} (h : KillsEach code ks w w')
    (hl : World.Lending I)
    (hbelow : ∀ {s : System} {d : List Task} {k : Koid}, K k → I ⟨s, d⟩ →
      (∀ c ∈ (s.liveChildren k).jobs, K c) ∧ ∀ p ∈ (s.liveChildren k).processes, P p)
    (hcommit : ∀ {s : System} {d : List Task} {k : Koid} {j : Job}, K k → s.jobs[k]? = some j →
      j.state = .ready → I ⟨s, d⟩ → I ⟨s.commitKill code k j, d⟩)
    (hkill : ∀ {s : System} {d : List Task} {p : Koid}, P p → I ⟨s, d⟩ →
      I ⟨s.killProcess code p, d⟩)
    (hks : ∀ k ∈ ks, K k) (d : List Task)
    (hi : I ⟨w.system, (ks.map fun k => .release (.object k)) ++ d⟩) : I ⟨w'.system, d⟩ := by
  induction h generalizing d with
  | nil => exact hi
  | passed _ _ ih => exact ih (fun k hk => hks k (List.mem_cons_of_mem _ hk)) d (hl.release hi)
  | refused _ _ _ ih => exact ih (fun k hk => hks k (List.mem_cons_of_mem _ hk)) d (hl.release hi)
  | @killed k ks j w v w' hj hr hm below rest ihBelow ihRest =>
    refine ihRest (fun k hk => hks k (List.mem_cons_of_mem _ hk)) d ?_
    have hk : K k := hks k List.mem_cons_self
    obtain ⟨hjobs, hprocesses⟩ := hbelow hk hi
    rw [List.map_cons, List.cons_append] at hi
    generalize (ks.map fun k => Task.release (.object k)) ++ d = e at hi ⊢
    have hheld := hcommit hk ((System.jobs_hold _ _).symm ▸ hj) hr (hl.hold k hi)
    have hgiven := hl.release (hl.reorder List.perm_middle hheld)
    rw [System.snapshotDues, List.append_assoc] at hgiven
    exact hl.killProcesses _ (fun p hp => hkill (hprocesses p hp)) (ihBelow hjobs _ hgiven)

/-- What holds of a state with its dues is kept by a kill, if it is kept by a loan, by the commit of
a job with `K` and by the kill of a process with `P`.  The premise on what is below `K` and `P` is
asked of every state on the way, since commits and kills move children about. -/
theorem KillsTop.keeps_within {refuses : Allocator} {k : Koid} {s : System}
    {r : Outcome Bool × System} (h : KillsTop refuses code k s r) (hl : World.Lending I)
    (hbelow : ∀ {s : System} {d : List Task} {k : Koid}, K k → I ⟨s, d⟩ →
      (∀ c ∈ (s.liveChildren k).jobs, K c) ∧ ∀ p ∈ (s.liveChildren k).processes, P p)
    (hcommit : ∀ {s : System} {d : List Task} {k : Koid} {j : Job}, K k → s.jobs[k]? = some j →
      j.state = .ready → I ⟨s, d⟩ → I ⟨s.commitKill code k j, d⟩)
    (hkill : ∀ {s : System} {d : List Task} {p : Koid}, P p → I ⟨s, d⟩ →
      I ⟨s.killProcess code p, d⟩)
    (hk : K k) {d : List Task} (hi : I ⟨s, d⟩) : I ⟨r.2, d⟩ := by
  cases h with
  | passed => exact hi
  | refused => exact hi
  | @killed j w hj hr hm below =>
    obtain ⟨hjobs, hprocesses⟩ := hbelow hk hi
    have hheld := hcommit hk ((System.jobs_hold _ _).symm ▸ hj) hr (hl.hold k hi)
    rw [System.snapshotDues, List.append_assoc] at hheld
    exact hl.killProcesses _ (fun p hp => hkill (hprocesses p hp))
      (below.keeps_within hl hbelow hcommit hkill hjobs _ hheld)

/-- **What lending, committing a job and killing a process keep, killing jobs in turn keeps.** -/
theorem KillsEach.keeps {ks : List Koid} {w w' : KillWalk} (h : KillsEach code ks w w')
    (hl : World.Lending I)
    (hcommit : ∀ {s : System} {d : List Task} {k : Koid} {j : Job}, s.jobs[k]? = some j →
      j.state = .ready → I ⟨s, d⟩ → I ⟨s.commitKill code k j, d⟩)
    (hkill : ∀ {s : System} {d : List Task} (p : Koid), I ⟨s, d⟩ → I ⟨s.killProcess code p, d⟩)
    (d : List Task) (hi : I ⟨w.system, (ks.map fun k => .release (.object k)) ++ d⟩) :
    I ⟨w'.system, d⟩ :=
  h.keeps_within (K := fun _ => True) (P := fun _ => True) hl
    (fun _ _ => ⟨fun _ _ => trivial, fun _ _ => trivial⟩) (fun _ => hcommit) (fun _ => hkill _)
    (fun _ _ => trivial) d hi

/-- The same without a bound on what is killed. -/
theorem KillsTop.keeps {refuses : Allocator} {k : Koid} {s : System} {r : Outcome Bool × System}
    (h : KillsTop refuses code k s r) (hl : World.Lending I)
    (hcommit : ∀ {s : System} {d : List Task} {k : Koid} {j : Job}, s.jobs[k]? = some j →
      j.state = .ready → I ⟨s, d⟩ → I ⟨s.commitKill code k j, d⟩)
    (hkill : ∀ {s : System} {d : List Task} (p : Koid), I ⟨s, d⟩ → I ⟨s.killProcess code p, d⟩)
    {d : List Task} (hi : I ⟨s, d⟩) : I ⟨r.2, d⟩ :=
  h.keeps_within (K := fun _ => True) (P := fun _ => True) hl
    (fun _ _ => ⟨fun _ _ => trivial, fun _ _ => trivial⟩) (fun _ => hcommit) (fun _ => hkill _)
    trivial hi

end Keeps

/-! ## 3. Killing is a decline

So whatever one decline keeps, a kill keeps, and at its end as much is due as at its beginning. -/

namespace System

variable {K P : Koid → Prop}

/-- Marks a process as dead, before it gives up what it has. -/
def endProcess (s : System) (code : Int) (k : Koid) : System :=
  ((s.modifyProcess k fun p => { p with state := .dead, returnCode := code }).signal k .empty
    .taskTerminated).log (.processKilled k code)

/-- A process that is killed is dead first, and then its handles are closed and its job is left. -/
theorem killProcess_of_running {s : System} (code : Int) {k : Koid} {p : Process}
    (hp : s.processes[k]? = some p) (hr : ¬ p.state = .dead) :
    s.killProcess code k =
      ((s.endProcess code k).tableClear p.table).2.detachProcess p.job k := by
  unfold killProcess
  rw [hp]
  dsimp only
  rw [if_neg hr]
  rfl

/-- Who is dead, or is not there, is not killed again. -/
theorem killProcess_of_dead {s : System} (code : Int) {k : Koid}
    (h : ∀ p, s.processes[k]? = some p → p.state = .dead) : s.killProcess code k = s := by
  unfold killProcess
  cases hp : s.processes[k]? with
  | none => rfl
  | some p => exact if_pos (h p hp)

/-- The kill of a process does nothing, or the process was running. -/
theorem killProcess_cases (s : System) (code : Int) (k : Koid) :
    s.killProcess code k = s ∨ ∃ p, s.processes[k]? = some p ∧ p.state = .running ∧
      s.killProcess code k =
        ((s.endProcess code k).tableClear p.table).2.detachProcess p.job k := by
  by_cases hdead : ∀ p, s.processes[k]? = some p → p.state = .dead
  · exact .inl (killProcess_of_dead code hdead)
  · simp only [not_forall] at hdead
    obtain ⟨p, hp, hr⟩ := hdead
    refine .inr ⟨p, hp, ?_, killProcess_of_running code hp hr⟩
    cases hs : p.state with
    | running => rfl
    | dead => exact absurd hs hr

/-- The end of a process is one decline. -/
theorem endProcess_declines {s : System} (code : Int) {k : Koid} {p : Process}
    (hp : s.processes[k]? = some p) (hk : P k) (d : List Task) :
    Declines K P ⟨s, d⟩ ⟨s.endProcess code k, d⟩ := by
  have hends : Decline K P ⟨s, d⟩
      ⟨s.modifyProcess k fun p => { p with state := .dead, returnCode := code }, d⟩ :=
    .ends hp hk rfl
  exact .head hends (Inert.declines ((inert_signal _ _ _ _).trans (inert_log _ _)) d)

/-- A process that was ended is dead, whatever it was before. -/
theorem dead_endProcess (s : System) (code : Int) (k : Koid) :
    ∀ q, (s.endProcess code k).processes[k]? = some q → q.state = .dead := by
  intro q hq
  simp only [endProcess, log, signal, modifyProcess, Store.getElem?_modify, if_true] at hq
  obtain ⟨p, -, rfl⟩ := Option.map_eq_some_iff.1 hq
  rfl

/-- A process that was marked as dead is still dead when its table was cleared. -/
theorem dead_tableClear (s : System) (code : Int) (k : Koid) (t : TableId) :
    ∀ q, ((s.endProcess code k).tableClear t).2.processes[k]? = some q → q.state = .dead := by
  intro q hq
  have hclear := (s.endProcess code k).tableClear_declines (K := fun _ => True)
    (P := fun _ => True) t []
  obtain ⟨q', hq', hw⟩ := hclear.wanes.process hq
  cases hs : q.state with
  | dead => rfl
  | running =>
    have hrun : q'.state = .running := hw.running hs
    rw [s.dead_endProcess code k q' hq'] at hrun
    cases hrun

/-- What comes of a process that was marked as dead. -/
theorem leave_declines {s : System} (code : Int) (k : Koid) (t : TableId) (job : Koid)
    (d : List Task) : Declines K P ⟨s.endProcess code k, d⟩
      ⟨((s.endProcess code k).tableClear t).2.detachProcess job k, d⟩ :=
  (tableClear_declines _ t d).trans (detachProcess_declines (s.dead_tableClear code k t) d)

/-- A kill ends the process, empties its table and takes it off its job: each a decline. -/
theorem killProcess_declines (s : System) (code : Int) {k : Koid} (hk : P k) (d : List Task) :
    Declines K P ⟨s, d⟩ ⟨s.killProcess code k, d⟩ := by
  obtain he | ⟨p, hp, -, he⟩ := s.killProcess_cases code k
  · rw [he]
  · rw [he]
    exact (endProcess_declines code hp hk d).trans (leave_declines code k p.table p.job d)

/-- Each process is killed and then given back, which takes one of the dues away. -/
theorem killProcesses_declines (code : Int) {ps : List Koid} (hp : ∀ p ∈ ps, P p) (s : System)
    (d : List Task) :
    Declines K P ⟨s, (ps.map fun p => .release (.object p)) ++ d⟩
      ⟨killProcesses code ps s, d⟩ := by
  induction ps generalizing s with
  | nil => exact .refl
  | cons p ps ih =>
    rw [killProcesses]
    refine .trans (killProcess_declines s code (hp p (List.mem_cons_self ..)) _) ?_
    refine .trans (release_declines _ (.object p) _) ?_
    exact ih (fun q hq => hp q (List.mem_cons_of_mem _ hq)) _

/-- The commit is a decline, and so is the death of a job without children that may follow. -/
theorem commitKill_declines {s : System} {code : Int} {k : Koid} {j : Job}
    (hj : s.jobs[k]? = some j) (hr : j.state = .ready) (hk : K k) (d : List Task) :
    Declines K P ⟨s, d⟩ ⟨s.commitKill code k j, d⟩ := by
  unfold commitKill
  have hcond : Decline K P ⟨s, d⟩
      ⟨s.modifyJob k fun j => { j with returnCode := code, state := .killing }, d⟩ :=
    .fades hj (.condemned hk hr)
  refine .trans (.head hcond (Inert.declines (inert_log _ (.jobKilled k code)) d)) ?_
  dsimp only
  split
  · refine markDead_declines (j := { j with returnCode := code, state := .killing }) ?_ rfl d
    simp [log, modifyJob, hj]
  · exact .refl

/-- Where a state has come by declines, it may lend and give back: that declines as well. -/
theorem lending_declines (w : World) : World.Lending (Declines K P w) where
  reorder h hi := hi.tail (.reorder h)
  share h hi := hi.tail (.share h)
  release hi := hi.trans (release_declines _ _ _)

end System

theorem KillWalk.commit_declines {K P : Koid → Prop} (w : KillWalk) (code : Int) {k : Koid}
    {j : Job} (hj : w.system.jobs[k]? = some j) (hr : j.state = .ready) (hk : K k)
    (d : List Task) :
    Declines K P ⟨w.system, d⟩ ⟨(w.commit code k j).system, w.system.snapshotDues k ++ d⟩ := by
  have hhold := (System.lending_declines (K := K) (P := P) ⟨w.system, d⟩).hold k .refl
  refine hhold.trans (System.commitKill_declines ?_ hr hk _)
  rw [System.jobs_hold]
  exact hj

/-- Killing jobs in turn gives back the references to them. -/
theorem KillsEach.declines {code : Int} {ks : List Koid} {w w' : KillWalk}
    (h : KillsEach code ks w w') (d : List Task) :
    Declines (fun _ => True) (fun _ => True)
      ⟨w.system, (ks.map fun k => .release (.object k)) ++ d⟩ ⟨w'.system, d⟩ :=
  h.keeps (System.lending_declines _)
    (fun hj hr hi => hi.trans (System.commitKill_declines hj hr trivial _))
    (fun _ hi => hi.trans (System.killProcess_declines _ code trivial _)) d .refl

/-- A kill as a whole is a run of declines. -/
theorem System.killJob_declines_of_killsTop {refuses : Allocator} {code : Int} {k : Koid}
    {s : System} {r : Outcome Bool × System} (h : KillsTop refuses code k s r) (d : List Task) :
    Declines (fun _ => True) (fun _ => True) ⟨s, d⟩ ⟨r.2, d⟩ :=
  h.keeps (System.lending_declines _)
    (fun hj hr hi => hi.trans (System.commitKill_declines hj hr trivial _))
    (fun _ hi => hi.trans (System.killProcess_declines _ code trivial _)) .refl

/-! ## 4. The budget lasts

The budget is given in steps of the walk.  A step either enters a ready job, which is one less
then, or takes an entry off a frame. -/

/-- The number of ready jobs. -/
def System.readyCount (s : System) : Nat :=
  s.jobs.weight fun _ j => if j.state = .ready then 1 else 0

/-- Jobs leave the ready state and never come back to it, so their number only drops. -/
theorem Wanes.readyCount_le {K P : Koid → Prop} {s t : System} (h : Wanes K P s t) :
    t.readyCount ≤ s.readyCount := by
  refine Store.weight_le fun k => ?_
  cases hb : t.jobs[k]? with
  | none => rw [Store.share_of_none hb]; exact Nat.zero_le _
  | some b =>
    obtain ⟨a, ha, hab⟩ := h.job hb
    rw [Store.share_of_some hb, Store.share_of_some ha]
    have hready : b.state = .ready → a.state = .ready := hab.ready
    split
    · rw [if_pos (hready ‹_›)]
    · exact Nat.zero_le _

namespace System

/-- No job gets ready by giving back a reference, -/
theorem readyCount_release_le (s : System) (r : Ref) : (s.release r).readyCount ≤ s.readyCount :=
  (release_declines (K := fun _ => True) (P := fun _ => True) s r []).wanes.readyCount_le

/-- nor by killing processes. -/
theorem readyCount_killProcesses_le (code : Int) (ps : List Koid) (s : System) :
    (killProcesses code ps s).readyCount ≤ s.readyCount :=
  (killProcesses_declines (K := fun _ => True) (P := fun _ => True) code (fun _ _ => trivial) s
    []).wanes.readyCount_le

/-- A committed job is one ready job less. -/
theorem readyCount_commitKill_lt {s : System} (code : Int) {k : Koid} {j : Job}
    (hj : s.jobs[k]? = some j) (hr : j.state = .ready) :
    (s.commitKill code k j).readyCount < s.readyCount := by
  have hfirst : (s.modifyJob k fun j =>
      { j with returnCode := code, state := .killing }).readyCount + 1 = s.readyCount := by
    have hlaw := Store.weight_add_share (k := k)
      (s := (s.modifyJob k fun j => { j with returnCode := code, state := .killing }).jobs)
      (t := s.jobs) (f := fun _ j => if j.state = .ready then 1 else 0)
      (g := fun _ j => if j.state = .ready then 1 else 0) (fun a ha => by
        simp [modifyJob, Store.share, Store.getElem?_modify, ha.symm])
    rw [Store.share_of_some hj, Store.share_of_some (v := { j with
      returnCode := code, state := .killing }) (by
        simp [modifyJob, hj])] at hlaw
    unfold readyCount
    simpa [hr] using hlaw
  refine Nat.lt_of_le_of_lt ?_ (Nat.lt_of_lt_of_eq (Nat.lt_succ_self _) hfirst)
  unfold commitKill
  split
  · refine (markDead_declines (K := fun _ => True) (P := fun _ => True)
      (j := { j with returnCode := code, state := .killing }) ?_ rfl []).wanes.readyCount_le
    simp [log, modifyJob, hj]
  · exact Nat.le_refl _

/-- The number of jobs bounds the number of ready jobs. -/
theorem readyCount_le_size (s : System) : s.readyCount ≤ s.jobs.size :=
  Store.weight_le_size fun _ _ => by split <;> omega

end System

/-! ## 5. The walk follows the recursion

The induction is on the budget.  A stack of frames is read from the top, each frame as the rest of
one level, and the top frame decides which rule is next. -/

namespace System

/-- What is not ready is passed by: no snapshot is asked for and nothing changes. -/
theorem enterKill_of_not_ready {s : System} {supply : Supply} {code : Int} {k : Koid}
    (h : ¬ s.IsReady k) : s.enterKill supply code k = (.passed, supply, s) := by
  unfold enterKill
  cases hj : s.jobs[k]? with
  | none => rfl
  | some j =>
    have hr : j.state ≠ .ready := fun hr => h ⟨j, hj, hr⟩
    dsimp only
    rw [if_pos hr]

/-- A ready job whose snapshot is refused stays as it is; only the request is on record. -/
theorem enterKill_of_refused {s : System} {supply : Supply} {code : Int} {k : Koid}
    (h : s.IsReady k) (hm : supply.refuses supply.asked (s.snapshotRequest k) = true) :
    s.enterKill supply code k =
      (.refused, { supply with asked := s.snapshotRequest k :: supply.asked }, s) := by
  obtain ⟨j, hj, hr⟩ := h
  unfold enterKill snapshot
  simp only [hj, hr, hm, ne_eq, not_true_eq_false, if_false, if_true]

/-- A ready job whose snapshot is granted commits, and its children are held. -/
theorem enterKill_of_granted {s : System} {supply : Supply} {code : Int} {k : Koid} {j : Job}
    (hj : s.jobs[k]? = some j) (hr : j.state = .ready)
    (hm : ¬ supply.refuses supply.asked (s.snapshotRequest k) = true) :
    s.enterKill supply code k =
      (.entered ⟨(s.liveChildren k).jobs, (s.liveChildren k).processes⟩,
        { supply with asked := s.snapshotRequest k :: supply.asked },
        (s.hold (s.liveChildren k)).commitKill code k j) := by
  unfold enterKill snapshot commitKill hold
  simp only [hj, hr, hm, ne_eq, not_true_eq_false, if_false, Bool.and_eq_true, List.isEmpty_iff,
    Bool.false_eq_true]

end System

/-- What one step of the walk does with the next job, by the three rules of the recursion. -/
theorem KillWalk.enter_cases (w : KillWalk) (code : Int) (k : Koid) :
    (¬ w.system.IsReady k ∧ w.enter code k = (none, w.drop k)) ∨
    (w.system.IsReady k ∧ w.Refused k ∧
      w.enter code k = (none, { w.ask k with failed := true }.drop k)) ∨
    (∃ j, w.system.jobs[k]? = some j ∧ j.state = .ready ∧ ¬ w.Refused k ∧
      w.enter code k =
        (some ⟨(w.system.liveChildren k).jobs, (w.system.liveChildren k).processes⟩,
          (w.commit code k j).drop k)) := by
  by_cases hr : w.system.IsReady k
  · by_cases hm : w.Refused k
    · refine .inr (.inl ⟨hr, hm, ?_⟩)
      unfold KillWalk.enter
      rw [System.enterKill_of_refused hr hm]
      rfl
    · obtain ⟨j, hj, hs⟩ := hr
      refine .inr (.inr ⟨j, hj, hs, hm, ?_⟩)
      unfold KillWalk.enter
      rw [System.enterKill_of_granted hj hs hm]
      rfl
  · refine .inl ⟨hr, ?_⟩
    unfold KillWalk.enter
    rw [System.enterKill_of_not_ready hr]
    rfl

/-- What the frames of a stack still have to do, the top frame first. -/
inductive KillsFrames (code : Int) : List KillFrame → KillWalk → KillWalk → Prop
  | nil {w : KillWalk} : KillsFrames code [] w w
  | cons {js ps : List Koid} {fs : List KillFrame} {w v w' : KillWalk}
      (hjs : KillsEach code js w v) (hfs : KillsFrames code fs (v.leave code ps) w') :
      KillsFrames code (⟨js, ps⟩ :: fs) w w'

/-- **The walk does what its frames stand for**, as long as its budget covers the ready jobs. -/
theorem KillWalk.run_kills (code : Int) (budget : Nat) (frames : List KillFrame) (w : KillWalk)
    (h : w.system.readyCount ≤ budget) :
    KillsFrames code frames w (KillWalk.run code budget frames w) := by
  fun_induction KillWalk.run code budget frames w with
  | case1 => exact .nil
  | case2 budget processes frames w ih =>
    exact .cons .nil (ih (Nat.le_trans (w.system.readyCount_killProcesses_le code processes) h))
  | case3 j js processes frames w ih =>
    have hle := w.system.readyCount_release_le (.object j)
    -- the budget is gone, so no job is ready and this one is passed by
    have hr : ¬ w.system.IsReady j := by
      rintro ⟨i, hi, hs⟩
      have := System.readyCount_commitKill_lt code hi hs
      omega
    cases ih (Nat.le_trans hle h) with
    | cons hjs hfs => exact .cons (.passed hr hjs) hfs
  | case4 budget j js processes frames w w' he ih =>
    obtain ⟨hr, hw⟩ | ⟨hr, hm, hw⟩ | ⟨i, _, _, _, hw⟩ := w.enter_cases code j
    · rw [hw] at he
      cases he
      cases ih (Nat.le_trans (w.system.readyCount_release_le _) h) with
      | cons hjs hfs => exact .cons (.passed hr hjs) hfs
    · rw [hw] at he
      cases he
      cases ih (Nat.le_trans (w.system.readyCount_release_le _) h) with
      | cons hjs hfs => exact .cons (.refused hr hm hjs) hfs
    · rw [hw] at he
      cases he
  | case5 budget j js processes frames w f w' he ih =>
    obtain ⟨_, hw⟩ | ⟨_, _, hw⟩ | ⟨i, hi, hs, hm, hw⟩ := w.enter_cases code j
    · rw [hw] at he
      cases he
    · rw [hw] at he
      cases he
    · rw [hw] at he
      cases he
      have hlt : ((w.commit code j i).drop j).system.readyCount < w.system.readyCount := by
        have hi' : (w.system.hold (w.system.liveChildren j)).jobs[j]? = some i := by
          rw [System.jobs_hold]; exact hi
        have hcommit := System.readyCount_commitKill_lt code hi' hs
        refine Nat.lt_of_le_of_lt (System.readyCount_release_le _ _) (Nat.lt_of_lt_of_eq hcommit ?_)
        unfold System.readyCount
        rw [System.jobs_hold]
      cases ih (by omega) with
      | cons hbelow hrest =>
        cases hrest with
        | cons hjs hfs => exact .cons (.killed hi hs hm hbelow hjs) hfs

/-- The walk ends where the recursion does. -/
theorem System.killJob_kills (s : System) (refuses : Allocator) (code : Int) (k : Koid) :
    KillsTop refuses code k s (s.killJob refuses code k) := by
  unfold killJob
  by_cases hr : s.IsReady k
  · by_cases hm : refuses [] (s.snapshotRequest k) = true
    · rw [enterKill_of_refused hr hm]
      exact .refused hr hm
    · obtain ⟨j, hj, hs⟩ := hr
      rw [enterKill_of_granted hj hs hm]
      have hbudget := readyCount_le_size ((s.hold (s.liveChildren k)).commitKill code k j)
      have hrun := KillWalk.run_kills code _
        [⟨(s.liveChildren k).jobs, (s.liveChildren k).processes⟩]
        (KillWalk.commit { system := s, supply := ⟨refuses, []⟩ } code k j) hbudget
      dsimp only [KillWalk.commit, KillWalk.ask] at hrun ⊢
      generalize KillWalk.run _ _ _ _ = w' at hrun ⊢
      cases hrun with
      | @cons _ _ _ _ v _ hjs hfs =>
        cases hfs
        exact .killed hj hs hm hjs
  · rw [enterKill_of_not_ready hr]
    exact .passed hr

/-- **The walk is the recursion**: it ends, in every state and for every allocator, and it ends
exactly where the recursion does. -/
theorem System.killJob_iff_killsTop (s : System) (refuses : Allocator) (code : Int) (k : Koid)
    (r : Outcome Bool × System) :
    s.killJob refuses code k = r ↔ KillsTop refuses code k s r := by
  constructor
  · rintro rfl
    exact s.killJob_kills refuses code k
  · exact (s.killJob_kills refuses code k).unique

/-- A kill by the walk is a run of declines, as the walk is the recursion. -/
theorem System.killJob_declines (s : System) (refuses : Allocator) (code : Int) (k : Koid)
    (d : List Task) :
    Declines (fun _ => True) (fun _ => True) ⟨s, d⟩ ⟨(s.killJob refuses code k).2, d⟩ :=
  killJob_declines_of_killsTop (s.killJob_kills refuses code k) d

end KernelObjects
