import Mathlib
import KernelObjects.Proofs.KillTree
import KernelObjects.Proofs.JobTree

/-
# What a kill reaches

A kill goes down the tree from one ready job to the next.  A job is *open* to it if every job on
the way down is ready, itself included.  If no snapshot is refused, then of what is still there
afterwards just the open jobs are not ready any more, and just the processes that open jobs list
do not run any more (`Cleared`).

A job that is not ready therefore shields what is below it.  An earlier kill that was refused
somewhere leaves such a shield: a job that is being killed, with a ready job below.  A later kill
from further up passes the shield by, answers that all went well, and leaves the ready job and its
processes as they are.  `killJob_leaves` says exactly what is left.

**Why the lists compose.**  Killing one child may take away or end what the next child would have
reached, but it makes nothing ready and opens nothing.  And what is open to both, or what the
first kill committed on the way, the first kill has dealt with to the end.

**Why only what is still there.**  A kill closes handles, and that may destroy jobs and processes
that it never came to, below a shield or outside of the tree.  Of those nothing is said here
beyond that they are gone.  A thing that is still there has the same parent and the same job as
before, so "open" and "behind a shield" can be read off the state before the kill.
-/

namespace KernelObjects

/-! ## 1. Ways down the tree

Ways are read from parents to children by the parents that jobs name.  That they are what the
lists show is part of the tree being in order. -/

namespace System

/-- The parent that a job names. -/
def ChildOf (s : System) (p c : Koid) : Prop := ∃ j, s.jobs[c]? = some j ∧ j.parent = some p

/-- A job stands below another one. -/
def Below (s : System) : Koid → Koid → Prop := Relation.TransGen s.ChildOf

/-- From the one job down to the other every job is ready, both included. -/
inductive Open (s : System) (k : Koid) : Koid → Prop
  | here (h : s.IsReady k) : Open s k k
  | down {p c : Koid} (h : Open s k p) (hc : s.ChildOf p c) (hr : s.IsReady c) : Open s k c

/-- A process that runs. -/
def Runs (s : System) (p : Koid) : Prop := ∃ q, s.processes[p]? = some q ∧ q.state = .running

/-- A job lists a process. -/
def Lists (s : System) (k p : Koid) : Prop := ∃ j, s.jobs[k]? = some j ∧ p ∈ j.processes

namespace Open

variable {s : System} {k c a : Koid}

/-- An open way starts at a ready job, -/
theorem top_ready (h : s.Open k c) : s.IsReady k := by
  induction h with
  | here h => exact h
  | down _ _ _ ih => exact ih

/-- and ends at one. -/
theorem ready (h : s.Open k c) : s.IsReady c := by
  cases h with
  | here h => exact h
  | down _ _ hr => exact hr

/-- Open ways can be joined. -/
theorem trans (h : s.Open k c) (h' : s.Open c a) : s.Open k a := by
  induction h' with
  | here => exact h
  | down _ hc hr ih => exact ih.down hc hr

/-- The way down starts at the top or goes through a child of the top. -/
theorem eq_or_child (h : s.Open k c) : c = k ∨ ∃ b, s.ChildOf k b ∧ s.Open b c := by
  induction h with
  | here => exact .inl rfl
  | down _ hc hr ih =>
    rcases ih with rfl | ⟨b, hb, hopen⟩
    · exact .inr ⟨_, hc, .here hr⟩
    · exact .inr ⟨b, hb, hopen.down hc hr⟩

end Open

end System

open KernelObjects.System

/-- A job has one parent. -/
theorem System.ChildOf.unique {s : System} {p q c : Koid} (h : s.ChildOf p c)
    (h' : s.ChildOf q c) : p = q := by
  obtain ⟨j, hj, hp⟩ := h
  obtain ⟨i, hi, hq⟩ := h'
  rw [hj] at hi
  cases hi
  rw [hp] at hq
  exact Option.some.inj hq

/-- Who is below is younger, so no job is below itself. -/
theorem Filed.lt_of_below {s : System} (h : Filed s) {a c : Koid} (hb : s.Below a c) : a < c := by
  induction hb with
  | single hc =>
    obtain ⟨j, hj, hp⟩ := hc
    exact h.older hj hp
  | tail _ hc ih =>
    obtain ⟨j, hj, hp⟩ := hc
    exact Nat.lt_trans ih (h.older hj hp)

theorem System.Open.le {s : System} (h : Filed s) {k c : Koid} (ho : s.Open k c) : k ≤ c := by
  induction ho with
  | here => exact Nat.le_refl k
  | down _ hc _ ih =>
    obtain ⟨j, hj, hp⟩ := hc
    exact Nat.le_of_lt (Nat.lt_of_le_of_lt ih (h.older hj hp))

/-- A job below another one is open to it, or there is a shield in between. -/
theorem System.Below.open_iff {s : System} (h : Filed s) {k c : Koid} (hb : s.Below k c)
    (hk : s.IsReady k) (hc : s.IsReady c) :
    s.Open k c ↔ ¬ ∃ x, s.Below k x ∧ s.Below x c ∧ ¬ s.IsReady x := by
  induction hb with
  | single hchild =>
    refine iff_of_true ((Open.here hk).down hchild hc) ?_
    -- nothing stands between a parent and its child
    rintro ⟨x, hkx, hxc, -⟩
    have hle : x ≤ k := by
      cases hxc with
      | single hx => exact Nat.le_of_eq (hx.unique hchild)
      | tail hx hy => exact Nat.le_of_lt (hy.unique hchild ▸ h.lt_of_below hx)
    exact Nat.lt_irrefl _ (Nat.lt_of_lt_of_le (h.lt_of_below hkx) hle)
  | @tail p c hkp hchild ih =>
    constructor
    · rintro hopen ⟨x, hkx, hxc, hx⟩
      cases hopen with
      | here => exact Nat.lt_irrefl _ (h.lt_of_below (hkp.tail hchild))
      | down hp hpc _ =>
        obtain rfl := hpc.unique hchild
        cases hxc with
        | single hx' => exact hx (hx'.unique hchild ▸ hp.ready)
        | tail hxp hp' =>
          obtain rfl := hp'.unique hchild
          exact (ih hp.ready).1 hp ⟨x, hkx, hxp, hx⟩
    · intro hnone
      have hp : s.IsReady p :=
        Classical.byContradiction fun hp => hnone ⟨p, hkp, .single hchild, hp⟩
      refine ((ih hp).2 ?_).down hchild hc
      rintro ⟨x, hkx, hxp, hx⟩
      exact hnone ⟨x, hkx, hxp.tail hchild, hx⟩

/-! ## 2. Ways down while things decline

What one kill does to the ways of another.  Nothing opens, and what is open stays so until
somebody on the way is killed. -/

namespace Wanes

variable {K P : Koid → Prop} {s t : System}

/-- Who is ready at the end was ready before, -/
theorem isReady (h : Wanes K P s t) {k : Koid} (hr : t.IsReady k) : s.IsReady k := by
  obtain ⟨b, hb, hs⟩ := hr
  obtain ⟨a, ha, hab⟩ := h.job hb
  exact ⟨a, ha, hab.ready hs⟩

/-- and who is not among those that may be killed stays ready, as long as it is there. -/
theorem stays_ready (h : Wanes K P s t) {k : Koid} (hk : ¬ K k) (hr : s.IsReady k)
    (ht : t.jobs.contains k) : t.IsReady k := by
  obtain ⟨b, hb⟩ := Store.contains_iff.1 ht
  obtain ⟨a, ha, hab⟩ := h.job hb
  obtain ⟨a', ha', hs⟩ := hr
  rw [ha] at ha'
  cases ha'
  exact ⟨b, hb, hab.stays hk hs⟩

/-- The same of processes: who runs at the end ran before, -/
theorem runs (h : Wanes K P s t) {p : Koid} (hr : t.Runs p) : s.Runs p := by
  obtain ⟨b, hb, hs⟩ := hr
  obtain ⟨a, ha, hab⟩ := h.process hb
  exact ⟨a, ha, hab.running hs⟩

/-- and who may not be killed runs on. -/
theorem stays_running (h : Wanes K P s t) {p : Koid} (hp : ¬ P p) (hr : s.Runs p)
    (ht : t.processes.contains p) : t.Runs p := by
  obtain ⟨b, hb⟩ := Store.contains_iff.1 ht
  obtain ⟨a, ha, hab⟩ := h.process hb
  obtain ⟨a', ha', hs⟩ := hr
  rw [ha] at ha'
  cases ha'
  exact ⟨b, hb, hab.stays hp hs⟩

/-- No job appears, -/
theorem contains_job (h : Wanes K P s t) {k : Koid} (hk : t.jobs.contains k) :
    s.jobs.contains k := by
  obtain ⟨b, hb⟩ := Store.contains_iff.1 hk
  obtain ⟨a, ha, -⟩ := h.job hb
  exact Store.contains_iff.2 ⟨a, ha⟩

/-- no process does, -/
theorem contains_process (h : Wanes K P s t) {p : Koid} (hp : t.processes.contains p) :
    s.processes.contains p := by
  obtain ⟨b, hb⟩ := Store.contains_iff.1 hp
  obtain ⟨a, ha, -⟩ := h.process hb
  exact Store.contains_iff.2 ⟨a, ha⟩

/-- no job changes its parent, -/
theorem childOf (h : Wanes K P s t) {p c : Koid} (hc : t.ChildOf p c) : s.ChildOf p c := by
  obtain ⟨b, hb, hp⟩ := hc
  obtain ⟨a, ha, hab⟩ := h.job hb
  exact ⟨a, ha, hab.parent.symm.trans hp⟩

/-- and no list of processes gets longer. -/
theorem lists (h : Wanes K P s t) {k p : Koid} (hl : t.Lists k p) : s.Lists k p := by
  obtain ⟨b, hb, hp⟩ := hl
  obtain ⟨a, ha, hab⟩ := h.job hb
  exact ⟨a, ha, hab.processes.subset hp⟩

/-- Nothing opens. -/
theorem open_of_open (h : Wanes K P s t) {k c : Koid} (ho : t.Open k c) : s.Open k c := by
  induction ho with
  | here hr => exact .here (h.isReady hr)
  | down _ hc hr ih => exact ih.down (h.childOf hc) (h.isReady hr)

/-- A way down stays open to what is still there, unless a job on it stops being ready. -/
theorem stays_open (h : Wanes K P s t) {d : List Task} (hacc : Accounted t d) {k c : Koid}
    (ho : s.Open k c) (hc : t.jobs.contains c)
    (hready : ∀ x, s.Open k x → s.Open x c → t.jobs.contains x → t.IsReady x) : t.Open k c := by
  induction ho with
  | here hr => exact .here (hready k (.here hr) (.here hr) hc)
  | @down p c hp hchild hr ih =>
    obtain ⟨b, hb⟩ := Store.contains_iff.1 hc
    obtain ⟨a, ha, hab⟩ := h.job hb
    obtain ⟨a', ha', hpar⟩ := hchild
    rw [ha] at ha'
    cases ha'
    have hbp : b.parent = some p := hab.parent.trans hpar
    have hup := ih (hacc.parent hb hbp) fun x hkx hxp hx =>
      hready x hkx (hxp.down ⟨a, ha, hpar⟩ hr) hx
    exact hup.down ⟨b, hb, hbp⟩ (hready c (hp.down ⟨a, ha, hpar⟩ hr) (.here hr) hc)

/-- What lists a process that still runs is there and lists it still. -/
theorem stays_listed (h : Wanes K P s t) {d : List Task} (htree : Filed s) (hacc : Accounted t d)
    {k p : Koid} (hl : s.Lists k p) (hr : t.Runs p) : t.Lists k p := by
  obtain ⟨a, ha, hp⟩ := hl
  obtain ⟨q, hq, hrun⟩ := hr
  obtain ⟨q', hq', hqq⟩ := h.process hq
  have hjob : q.job = k := hqq.job.trans (htree.job ha hp hq')
  obtain ⟨b, hb⟩ := Store.contains_iff.1 (hjob ▸ hacc.job hq)
  exact ⟨b, hb, h.listed ha hb hp hq hrun⟩

end Wanes

/-! ## 3. What is cleared

To clear is stated from one state to another, with a list of jobs to start from; so two kills that
follow each other make one. -/

/-- From `s` to `t` whatever is open to the jobs `ks` was cleared, and nothing else was touched. -/
structure Cleared (s t : System) (ks : List Koid) : Prop where
  ready : ∀ {c}, (∀ k ∈ ks, ¬ s.Open k c) → s.IsReady c → t.jobs.contains c → t.IsReady c
  killed : ∀ {k c}, k ∈ ks → s.Open k c → ¬ t.IsReady c
  runs : ∀ {p}, (∀ k ∈ ks, ∀ c, s.Open k c → ¬ s.Lists c p) → s.Runs p →
    t.processes.contains p → t.Runs p
  ended : ∀ {k c p}, k ∈ ks → s.Open k c → s.Lists c p → ¬ t.Runs p

namespace Cleared

variable {s t u : System} {d : List Task}

/-- Nothing has to be cleared of an empty list of children. -/
theorem nil (s : System) : Cleared s s [] where
  ready _ hr _ := hr
  killed hk := by simp at hk
  runs _ hr _ := hr
  ended hk := by simp at hk

/-- A job that is not ready is passed by. -/
theorem passed {k : Koid} (h : Wanes (fun _ => False) (fun _ => False) s t)
    (hk : ¬ s.IsReady k) : Cleared s t [k] where
  ready _ hr hc := h.stays_ready id hr hc
  killed hm ho := by
    rw [List.mem_singleton.1 hm] at ho
    exact absurd ho.top_ready hk
  runs _ hr hc := h.stays_running id hr hc
  ended hm ho := by
    rw [List.mem_singleton.1 hm] at ho
    exact absurd ho.top_ready hk

/-- Clearing one job and then others clears all of them. -/
theorem cons {K P K' P' : Koid → Prop} {k : Koid} {ks : List Koid} (h : Cleared s t [k])
    (h' : Cleared t u ks) (hst : Wanes K P s t) (htu : Wanes K' P' t u) (htree : Filed s)
    (hacc : Accounted t d) : Cleared s u (k :: ks) := by
  -- a way down to what the first kill spared is open still
  have hopen : ∀ {k' c}, s.Open k' c → t.jobs.contains c → ¬ s.Open k c → t.Open k' c := by
    intro k' c ho hc hnot
    refine hst.stays_open hacc ho hc fun x _ hxc hx => ?_
    refine h.ready (fun a ha hax => ?_) hxc.top_ready hx
    rw [List.mem_singleton.1 ha] at hax
    exact hnot (hax.trans hxc)
  constructor
  case ready =>
    intro c hnot hr hc
    refine h'.ready (fun a ha ho => hnot a (List.mem_cons_of_mem _ ha) (hst.open_of_open ho)) ?_ hc
    refine h.ready (fun a ha => ?_) hr (htu.contains_job hc)
    rw [List.mem_singleton.1 ha]
    exact hnot k List.mem_cons_self
  case killed =>
    intro a c ha ho hr
    have hrt := htu.isReady hr
    rcases List.mem_cons.1 ha with rfl | ha
    · exact h.killed (List.mem_singleton_self _) ho hrt
    · have hc : t.jobs.contains c := Store.contains_iff.2 (hrt.imp fun _ hj => hj.1)
      refine h'.killed ha (hopen ho hc fun hk => ?_) hr
      exact h.killed (List.mem_singleton_self _) hk hrt
  case runs =>
    intro p hnot hr hp
    refine h'.runs (fun a ha c ho hl => ?_) ?_ hp
    · exact hnot a (List.mem_cons_of_mem _ ha) c (hst.open_of_open ho) (hst.lists hl)
    · refine h.runs (fun a ha => ?_) hr (htu.contains_process hp)
      rw [List.mem_singleton.1 ha]
      exact hnot k List.mem_cons_self
  case ended =>
    intro a c p ha ho hl hr
    have hrt := htu.runs hr
    rcases List.mem_cons.1 ha with rfl | ha
    · exact h.ended (List.mem_singleton_self _) ho hl hrt
    · have hlt := hst.stays_listed htree hacc hl hrt
      have hc : t.jobs.contains c := Store.contains_iff.2 (hlt.imp fun _ hj => hj.1)
      refine h'.ended ha (hopen ho hc fun hk => ?_) hlt hr
      exact h.ended (List.mem_singleton_self _) hk hl hrt

/-- Committing a job, clearing its children and ending its processes clears the job. -/
theorem committed {s₁ s₂ : System} {k : Koid} {P : Koid → Prop} (hk : s.IsReady k)
    (h₁ : Wanes (· = k) (fun _ => False) s s₁) (hk₁ : ¬ s₁.IsReady k)
    (h : Cleared s₁ s₂ (s.liveChildren k).jobs) {K' P' : Koid → Prop} (h₂ : Wanes K' P' s₁ s₂)
    (h₃ : Wanes (fun _ => False) P s₂ t) (hP : ∀ p, P p → p ∈ (s.liveChildren k).processes)
    (hends : ∀ p ∈ (s.liveChildren k).processes, ¬ t.Runs p) (htree : JobTree s)
    (hacc : Accounted s₁ d) : Cleared s t [k] := by
  obtain ⟨j, hj, hready⟩ := hk
  have hlive : s.liveChildren k = ⟨j.processes.filter fun p => s.processes.contains p,
      j.jobs.filter fun c => s.jobs.contains c⟩ := by
    unfold liveChildren
    rw [hj]
  have hchildren : ∀ {c}, c ∈ (s.liveChildren k).jobs ↔ s.ChildOf k c := by
    intro c
    rw [hlive, List.mem_filter]
    constructor
    · rintro ⟨hc, hthere⟩
      obtain ⟨i, hi⟩ := Store.contains_iff.1 hthere
      exact ⟨i, hi, htree.parent hj hc hi⟩
    · rintro ⟨i, hi, hp⟩
      exact ⟨htree.listed hi hp hj hready, Store.contains_iff.2 ⟨i, hi⟩⟩
  have hprocesses : ∀ {p}, p ∈ (s.liveChildren k).processes → s.Lists k p := by
    intro p hp
    rw [hlive, List.mem_filter] at hp
    exact ⟨j, hj, hp.1⟩
  have hself : s.Open k k := .here ⟨j, hj, hready⟩
  -- what is open to a child is open to the job, and the other way round below the job
  have hup : ∀ {c b}, c ∈ (s.liveChildren k).jobs → s₁.Open c b → s.Open k b := by
    intro c b hc ho
    have ho := h₁.open_of_open ho
    exact (hself.down (hchildren.1 hc) ho.top_ready).trans ho
  have hdown : ∀ {b}, s.Open k b → b ≠ k → s₁.jobs.contains b →
      ∃ c ∈ (s.liveChildren k).jobs, s₁.Open c b := by
    intro b ho hne hb
    obtain rfl | ⟨c, hc, hcb⟩ := ho.eq_or_child
    · exact absurd rfl hne
    · refine ⟨c, hchildren.2 hc, h₁.stays_open hacc hcb hb fun x hcx _ hx => ?_⟩
      refine h₁.stays_ready ?_ hcx.ready hx
      rintro rfl
      obtain ⟨i, hi, hp⟩ := hc
      exact Nat.lt_irrefl _ (Nat.lt_of_lt_of_le (htree.older hi hp) (hcx.le htree.toFiled))
  constructor
  case ready =>
    intro b hnot hr hb
    have hnot := hnot k (List.mem_singleton_self k)
    have hne : b ≠ k := by
      rintro rfl
      exact hnot hself
    have hb₂ := h₃.contains_job hb
    refine h₃.stays_ready id (h.ready (fun c hc ho => hnot (hup hc ho)) ?_ hb₂) hb
    exact h₁.stays_ready hne hr (h₂.contains_job hb₂)
  case killed =>
    intro a b ha ho hr
    rw [List.mem_singleton.1 ha] at ho
    have hr₂ := h₃.isReady hr
    have hr₁ := h₂.isReady hr₂
    by_cases hne : b = k
    · exact hk₁ (hne ▸ hr₁)
    · obtain ⟨c, hc, hcb⟩ := hdown ho hne (Store.contains_iff.2 (hr₁.imp fun _ hj => hj.1))
      exact h.killed hc hcb hr₂
  case runs =>
    intro p hnot hr hp
    have hnot := hnot k (List.mem_singleton_self k)
    have hp₂ := h₃.contains_process hp
    refine h₃.stays_running (fun hP' => hnot k hself (hprocesses (hP p hP'))) ?_ hp
    refine h.runs (fun c hc b ho hl => hnot b (hup hc ho) (h₁.lists hl)) ?_ hp₂
    exact h₁.stays_running id hr (h₂.contains_process hp₂)
  case ended =>
    intro a b p ha ho hl hr
    rw [List.mem_singleton.1 ha] at ho
    have hr₂ := h₃.runs hr
    have hr₁ := h₂.runs hr₂
    by_cases hne : b = k
    · obtain ⟨i, hi, hpi⟩ := hl
      rw [hne, hj] at hi
      cases hi
      obtain ⟨q, hq, -⟩ := h₁.runs hr₁
      refine hends p ?_ hr
      rw [hlive, List.mem_filter]
      exact ⟨hpi, Store.contains_iff.2 ⟨q, hq⟩⟩
    · have hl₁ := h₁.stays_listed htree.toFiled hacc hl hr₁
      obtain ⟨c, hc, hcb⟩ := hdown ho hne (Store.contains_iff.2 (hl₁.imp fun _ hj => hj.1))
      exact h.ended hc hcb hl₁ hr₂

end Cleared

/-! ## 4. The recursion clears

Rule by rule.  What a later part of the recursion finds open was open at the start, and is dealt
with. -/

namespace System

/-- A job that commits is not ready any more. -/
theorem not_isReady_commitKill {s : System} {code : Int} {k : Koid} {j : Job}
    (hj : s.jobs[k]? = some j) : ¬ (s.commitKill code k j).IsReady k := by
  have hfirst : ((s.modifyJob k fun j =>
      { j with returnCode := code, state := .killing }).log (.jobKilled k code)).jobs[k]? =
      some { j with returnCode := code, state := .killing } := by
    simp [log, modifyJob, hj]
  have hnot : ¬ ((s.modifyJob k fun j =>
      { j with returnCode := code, state := .killing }).log (.jobKilled k code)).IsReady k := by
    rintro ⟨i, hi, hs⟩
    rw [hfirst] at hi
    cases hi
    cases hs
  unfold commitKill
  dsimp only
  split
  · have hdies := markDead_declines (K := fun _ => False) (P := fun _ => False) hfirst rfl []
    exact fun hr => hnot (hdies.wanes.isReady hr)
  · exact hnot

/-- A process that is killed runs no more, or it is not there. -/
theorem not_runs_killProcess (s : System) (code : Int) (p : Koid) :
    ¬ (s.killProcess code p).Runs p := by
  intro hr
  obtain ⟨q, hq, hrun⟩ := (killProcess_declines (K := fun _ => False) (P := fun _ => True) s code
    (k := p) trivial []).wanes.runs hr
  have halive : ¬ q.state = .dead := by simp [hrun]
  rw [killProcess_of_running code hq halive] at hr
  obtain ⟨q', hq', hrun'⟩ := (leave_declines (K := fun _ => False) (P := fun _ => False)
    code p q.table q.job []).wanes.runs hr
  rw [s.dead_endProcess code p q' hq'] at hrun'
  cases hrun'

/-- Killed processes do not run when all of them were killed. -/
theorem not_runs_killProcesses (code : Int) {ps : List Koid} {p : Koid} (hp : p ∈ ps)
    (s : System) : ¬ (killProcesses code ps s).Runs p := by
  have hwanes : ∀ (qs : List Koid) (s : System),
      Wanes (fun _ => True) (fun _ => True) s (killProcesses code qs s) :=
    fun qs s => (killProcesses_declines code (fun _ _ => trivial) s []).wanes
  induction ps generalizing s with
  | nil => cases hp
  | cons q qs ih =>
    rw [killProcesses]
    rcases List.mem_cons.1 hp with rfl | hp
    · intro hr
      have hgiven := (hwanes qs _).runs hr
      have hback := (release_declines (K := fun _ => True) (P := fun _ => True)
        (s.killProcess code p) (.object p) []).wanes.runs hgiven
      exact s.not_runs_killProcess code p hback
    · exact ih hp _

end System

/-- A refusal is remembered. -/
theorem KillsEach.failed {code : Int} {ks : List Koid} {w v : KillWalk}
    (h : KillsEach code ks w v) (hv : v.failed = false) : w.failed = false := by
  induction h with
  | nil => exact hv
  | passed _ _ ih => exact ih hv
  | refused _ _ _ ih => exact absurd (ih hv) (by simp [KillWalk.drop])
  | killed _ _ _ _ _ ihBelow ihRest => exact ihBelow (ihRest hv)

theorem Declines.accounted {K P : Koid → Prop} {w w' : World} (h : Declines K P w w')
    (ha : Accounted w.system w.dues) : Accounted w'.system w'.dues :=
  Moves.accounted (A := False) (C := False) h.moves ha

/-- **Killing jobs in turn clears them**, if nothing is refused. -/
theorem KillsEach.cleared {code : Int} {ks : List Koid} {w v : KillWalk}
    (h : KillsEach code ks w v) (hv : v.failed = false) (d : List Task)
    (hacc : Accounted w.system ((ks.map fun k => .release (.object k)) ++ d))
    (htree : JobTree w.system) : Cleared w.system v.system ks := by
  induction h generalizing d with
  | nil => exact .nil _
  | @passed k ks w v hr rest ih =>
    have hrel := System.release_declines (K := fun _ => False) (P := fun _ => False) w.system
      (.object k) ((ks.map fun k => .release (.object k)) ++ d)
    have hacc' := hrel.accounted hacc
    have hrest := ih hv d hacc' (htree.wanes hrel.wanes)
    exact (Cleared.passed hrel.wanes hr).cons hrest hrel.wanes (rest.declines d).wanes
      htree.toFiled hacc'
  | refused _ _ rest =>
    have hnot := rest.failed hv
    cases hnot
  | @killed k ks j w x v hj hr hm below rest ihBelow ihRest =>
    rw [List.map_cons, List.cons_append] at hacc
    generalize he : (ks.map fun k => Task.release (.object k)) ++ d = e at hacc
    -- commit the job and give it back, clear its children, and end its processes
    have hcommit := w.commit_declines (K := (· = k)) (P := fun _ => False) code hj hr rfl
      (.release (.object k) :: e)
    have hdrop := System.release_declines (K := (· = k)) (P := fun _ => False)
      (w.commit code k j).system (.object k) (w.system.snapshotDues k ++ e)
    have hfirst : Declines (· = k) (fun _ => False) _ _ :=
      (hcommit.tail (.reorder List.perm_middle)).trans hdrop
    have hacc₁ := hfirst.accounted hacc
    have htree₁ := htree.wanes hfirst.wanes
    rw [System.snapshotDues, List.append_assoc] at hacc₁
    have hx := rest.failed hv
    have hbelow := ihBelow hx _ hacc₁ htree₁
    have hdown := below.declines
      (((w.system.liveChildren k).processes.map fun p => .release (.object p)) ++ e)
    have hacc₂ := hdown.accounted hacc₁
    have hlast := System.killProcesses_declines (K := fun _ => False)
      (P := (· ∈ (w.system.liveChildren k).processes)) code (fun _ hp => hp) x.system e
    have hacc₃ := hlast.accounted hacc₂
    have hnot₁ : ¬ ((w.commit code k j).drop k).system.IsReady k := fun hback =>
      System.not_isReady_commitKill (by rw [System.jobs_hold]; exact hj)
        (hdrop.wanes.isReady hback)
    have hone : Cleared w.system (x.leave code (w.system.liveChildren k).processes).system [k] :=
      Cleared.committed ⟨j, hj, hr⟩ hfirst.wanes hnot₁ hbelow hdown.wanes hlast.wanes
        (fun _ hp => hp) (fun p hp => System.not_runs_killProcesses code hp _) htree hacc₁
    subst he
    have hrest := ihRest hv d hacc₃ (htree₁.wanes hdown.wanes |>.wanes hlast.wanes)
    have hwhole : Declines (fun _ => True) (fun _ => True) _ _ :=
      ((hfirst.mono (fun _ _ => trivial) fun _ h => h.elim).trans
        (by rw [System.snapshotDues, List.append_assoc]; exact hdown)).trans
        (hlast.mono (fun _ h => h.elim) fun _ _ => trivial)
    exact hone.cons hrest hwhole.wanes (rest.declines d).wanes htree.toFiled hacc₃

/-- A kill that answers that all went well clears the job, which was ready. -/
theorem KillsTop.cleared {refuses : Allocator} {code : Int} {k : Koid} {s t : System}
    {d : List Task} (h : KillsTop refuses code k s (.ok true, t)) (hacc : Accounted s d)
    (htree : JobTree s) : s.IsReady k ∧ Cleared s t [k] := by
  generalize hr : ((.ok true, t) : Outcome Bool × System) = r at h
  cases h with
  | passed => cases hr
  | refused => cases hr
  | @killed j w hj hready hm below =>
    obtain ⟨hanswer, rfl⟩ := Prod.mk.inj hr
    -- The answer `true` says that nothing failed anywhere below.
    have hfailed : w.failed = false := by
      cases hf : w.failed with
      | false => rfl
      | true => simp [hf] at hanswer
    have hfirst := KillWalk.commit_declines (K := (· = k)) (P := fun _ => False)
      { system := s, supply := ⟨refuses, []⟩ } code hj hready rfl d
    have hacc₁ := hfirst.accounted hacc
    have htree₁ := htree.wanes hfirst.wanes
    rw [System.snapshotDues, List.append_assoc] at hacc₁
    have hbelow := below.cleared hfailed _ hacc₁ htree₁
    have hdown := below.declines
      (((s.liveChildren k).processes.map fun p => .release (.object p)) ++ d)
    have hlast := System.killProcesses_declines (K := fun _ => False)
      (P := (· ∈ (s.liveChildren k).processes)) code (fun _ hp => hp) w.system d
    refine ⟨⟨j, hj, hready⟩, Cleared.committed ⟨j, hj, hready⟩ hfirst.wanes ?_ hbelow hdown.wanes
      hlast.wanes (fun _ hp => hp) (fun p hp => System.not_runs_killProcesses code hp _) htree
      hacc₁⟩
    exact System.not_isReady_commitKill (by rw [System.jobs_hold]; exact hj)

/-! ## 5. What is left

From what was cleared to what is left: whoever is behind a shield, and nobody else. -/

/-- **What a kill leaves behind** when it answers that all went well.  A job below the killed one
that is still there is ready exactly if it was ready behind a shield, a job in between that was not.
A process that is still there runs exactly if it ran behind a shield, which may be its own job. -/
theorem World.Reachable.killJob_leaves {w : World} (h : w.Reachable False True)
    {refuses : Allocator} {code : Int} {k : Koid} {t : System}
    (hk : w.system.killJob refuses code k = (.ok true, t)) :
    (∀ c, w.system.Below k c → t.jobs.contains c →
      (t.IsReady c ↔ w.system.IsReady c ∧
        ∃ x, w.system.Below k x ∧ w.system.Below x c ∧ ¬ w.system.IsReady x)) ∧
    ∀ c p, c = k ∨ w.system.Below k c → w.system.Lists c p → t.processes.contains p →
      (t.Runs p ↔ w.system.Runs p ∧
        ∃ x, w.system.Below k x ∧ (x = c ∨ w.system.Below x c) ∧ ¬ w.system.IsReady x) := by
  have htree := h.passed.jobTree
  have hkills := w.system.killJob_kills refuses code k
  rw [hk] at hkills
  have hwanes := (System.killJob_declines_of_killsTop hkills w.dues).wanes
  obtain ⟨hready, hclear⟩ := hkills.cleared h.accounted htree
  have hself := List.mem_singleton_self k
  constructor
  · intro c hc hthere
    constructor
    · intro hr
      have hrs := hwanes.isReady hr
      refine ⟨hrs, Classical.byContradiction fun hnone => ?_⟩
      exact hclear.killed hself ((hc.open_iff htree.toFiled hready hrs).2 hnone) hr
    · rintro ⟨hrs, hshield⟩
      refine hclear.ready (fun a ha ho => ?_) hrs hthere
      rw [List.mem_singleton.1 ha] at ho
      exact (hc.open_iff htree.toFiled hready hrs).1 ho hshield
  · intro c p hc hl hthere
    constructor
    · intro hr
      refine ⟨hwanes.runs hr, Classical.byContradiction fun hnone => ?_⟩
      -- without a shield the way down to the job of the process is open
      refine hclear.ended hself (c := c) ?_ hl hr
      rcases hc with rfl | hc
      · exact .here hready
      · have hrc : w.system.IsReady c :=
          Classical.byContradiction fun hn => hnone ⟨c, hc, .inl rfl, hn⟩
        refine (hc.open_iff htree.toFiled hready hrc).2 ?_
        rintro ⟨x, hkx, hxc, hx⟩
        exact hnone ⟨x, hkx, .inr hxc, hx⟩
    · rintro ⟨hrs, x, hkx, hxc, hx⟩
      refine hclear.runs (fun a ha b ho hlb => ?_) hrs hthere
      rw [List.mem_singleton.1 ha] at ho
      -- only one job lists the process
      obtain ⟨q, hq, -⟩ := hrs
      obtain ⟨i, hi, hpi⟩ := hl
      obtain ⟨i', hi', hpi'⟩ := hlb
      obtain rfl : c = b := (htree.job hi hpi hq).symm.trans (htree.job hi' hpi' hq)
      rcases hxc with rfl | hxc
      · exact hx ho.ready
      · have hlt := htree.lt_of_below (hkx.trans hxc)
        rcases hc with rfl | hc
        · exact Nat.lt_irrefl _ hlt
        · exact (hc.open_iff htree.toFiled hready ho.ready).1 ho ⟨x, hkx, hxc, hx⟩

theorem System.isReady_iff {s : System} {k : Koid} :
    s.IsReady k ↔ s.jobs[k]?.map Job.state = some .ready := by
  rw [Option.map_eq_some_iff]
  rfl

theorem System.runs_iff {s : System} {p : Koid} :
    s.Runs p ↔ s.processes[p]?.map Process.state = some .running := by
  rw [Option.map_eq_some_iff]
  rfl

theorem System.childOf_iff {s : System} {p c : Koid} :
    s.ChildOf p c ↔ s.jobs[c]?.bind Job.parent = some p := by
  rw [Option.bind_eq_some_iff]
  rfl

/-- A root with a job, its child and its grandchild, two processes in the last, and a kill of the
child that was refused at the grandchild. -/
def shieldedOps : List Op :=
  [.createRootJob false, .createJob 1024, .createJob 1025, .createJob 1026,
    .createProcess 1027 Name.blank, .createProcess 1027 Name.blank,
    .killJob (.refusingFirst 2) 0 1026]

theorem reachable_shielded : (World.run shieldedOps).Reachable False True :=
  ⟨shieldedOps, by simp [shieldedOps, Op.Attaches], rfl⟩

/-- The grandchild and its processes survive a kill from above the shield. -/
theorem World.Reachable.killJob_leaves_shielded :
    let w := World.run shieldedOps
    let t := (w.system.killJob .generous 0 1025).2
    (∀ c, w.system.Below 1025 c → t.jobs.contains c →
      (t.IsReady c ↔ w.system.IsReady c ∧
        ∃ x, w.system.Below 1025 x ∧ w.system.Below x c ∧ ¬ w.system.IsReady x)) ∧
    ∀ c p, c = 1025 ∨ w.system.Below 1025 c → w.system.Lists c p → t.processes.contains p →
      (t.Runs p ↔ w.system.Runs p ∧
        ∃ x, w.system.Below 1025 x ∧ (x = c ∨ w.system.Below x c) ∧ ¬ w.system.IsReady x) :=
  killJob_leaves reachable_shielded (Prod.ext (by cbv) rfl)

/-- So a kill that answers that all went well may leave a ready job and a running process. -/
theorem killJob_leaves_ready_job :
    let w := World.run shieldedOps
    let r := w.system.killJob .generous 0 1025
    r.1 = .ok true ∧ w.system.Below 1025 1027 ∧ r.2.IsReady 1027 ∧ w.system.Lists 1027 1028 ∧
      r.2.Runs 1028 := by
  refine ⟨by cbv, ?_, ?_, ?_, ?_⟩
  · refine .tail (.single (System.childOf_iff.2 ?_)) (System.childOf_iff.2 ?_) (b := 1026)
    · cbv
    · cbv
  · refine System.isReady_iff.2 ?_
    cbv
  · have hlist : (World.run shieldedOps).system.jobs[1027]?.map Job.processes =
        some [1028, 1029] := by cbv
    obtain ⟨j, hj, he⟩ := Option.map_eq_some_iff.1 hlist
    exact ⟨j, hj, he ▸ List.mem_cons_self⟩
  · refine System.runs_iff.2 ?_
    cbv

end KernelObjects
