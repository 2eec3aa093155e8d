import Mathlib.Logic.Function.Basic
import KernelObjects.Proofs.JobTree

/-
# The lists of children

A child names its parent, and the parent lists the child.  Whenever nothing is under way the lists
are exact: they show what is there and names the parent, in the order in which it came.  On the
way they are not: a job is there before it is listed, a job that was turned down is there and
never listed, and a process that is being killed is dead and still listed while its handles are
closed.

So order is said relative to which jobs and which processes *count* as children
(`Pedigree.Orderly`).  A change of one list moves one child in or out of what counts, and a record
of a child that does not count can come and go.  An operation is in order if at its end what
counts is again every job that is there and every process that runs.

Whether a process counts may depend on its state, whether a job does may not.  A process leaves
its list when it is dead, which is before it is gone; a job leaves its list when it is gone,
however long it has been dead.

Destruction is the place where this is needed most.  A chain of destructors may take any number of
jobs and processes, each of which is off the lists by the time the next one is looked at
(`orderly_settle`); the order holds after every single one of them, and the induction is on the
run of the tasks.
-/

namespace KernelObjects

/-! ## 1. What the lists and the heights are read from

Ties of jobs and kin of processes, as functions of the number.  A pedigree is nothing else, so
what is no matter to lists and heights is not in it. -/

/-- What a job shows of the tree. -/
structure Job.Ties where
  parent : Option Koid
  maxHeight : Nat
  jobs : List Koid
  processes : List Koid

/-- The ties, read from what `Inert` compares. -/
def Job.Kin.ties (j : Job.Kin) : Job.Ties := ⟨j.parent, j.maxHeight, j.jobs, j.processes⟩

/-- The ties of a job. -/
def Job.ties (j : Job) : Job.Ties := j.kin.ties

namespace Job.Ties

/-- A child job is listed, last. -/
def withJob (c : Koid) (q : Job.Ties) : Job.Ties := { q with jobs := q.jobs ++ [c] }

/-- A child job is taken off the list. -/
def withoutJob (c : Koid) (q : Job.Ties) : Job.Ties := { q with jobs := q.jobs.erase c }

/-- A process is listed, last. -/
def withProcess (p : Koid) (q : Job.Ties) : Job.Ties := { q with processes := q.processes ++ [p] }

/-- A process is taken off the list. -/
def withoutProcess (p : Koid) (q : Job.Ties) : Job.Ties :=
  { q with processes := q.processes.erase p }

end Job.Ties

/-- The side of the state that the tree of jobs shows. -/
structure Pedigree where
  job : Koid → Option Job.Ties
  process : Koid → Option Process.Kin

namespace Pedigree

/-- Writes the ties of a job, or that it is gone. -/
def setJob (T : Pedigree) (k : Koid) (j : Option Job.Ties) : Pedigree :=
  { T with job := Function.update T.job k j }

/-- Writes the ties of a process, or that it is gone. -/
def setProcess (T : Pedigree) (p : Koid) (r : Option Process.Kin) : Pedigree :=
  { T with process := Function.update T.process p r }

/-- Changes what a job shows, if it is there. -/
def relist (T : Pedigree) (k : Koid) (f : Job.Ties → Job.Ties) : Pedigree :=
  T.setJob k ((T.job k).map f)

/-- Whether a job is there and names another one as its parent. -/
def ChildJob (T : Pedigree) (k c : Koid) : Prop := ∃ j, T.job c = some j ∧ j.parent = some k

section Lookup

variable (T : Pedigree) {a k : Koid} (j : Option Job.Ties) (r : Option Process.Kin)
  (f : Job.Ties → Job.Ties)

@[simp] theorem job_setJob_self : (T.setJob k j).job k = j := Function.update_self ..

theorem job_setJob_of_ne (h : a ≠ k) : (T.setJob k j).job a = T.job a := Function.update_of_ne h ..

@[simp] theorem process_setProcess_self : (T.setProcess k r).process k = r :=
  Function.update_self ..

theorem process_setProcess_of_ne (h : a ≠ k) : (T.setProcess k r).process a = T.process a :=
  Function.update_of_ne h ..

@[simp] theorem job_relist_self : (T.relist k f).job k = (T.job k).map f := T.job_setJob_self _

theorem job_relist_of_none (h : T.job a = none) : (T.relist k f).job a = none := by
  by_cases ha : a = k
  · subst ha
    rw [job_relist_self, h]
    rfl
  · exact (T.job_setJob_of_ne _ ha).trans h

theorem job_relist_of_ne (h : a ≠ k) : (T.relist k f).job a = T.job a := T.job_setJob_of_ne _ h

/-- A list that does not change leaves everything as it is. -/
theorem relist_of_same {T : Pedigree} {f : Job.Ties → Job.Ties}
    (h : ∀ q, T.job k = some q → f q = q) : T.relist k f = T := by
  have hsame : (T.job k).map f = T.job k := by
    cases hq : T.job k with
    | none => rfl
    | some q => exact congrArg some (h q hq)
  unfold relist setJob
  rw [hsame, Function.update_eq_self]

theorem childJob_setJob_of_ne (h : a ≠ k) (p : Koid) :
    (T.setJob k j).ChildJob p a ↔ T.ChildJob p a := by
  unfold ChildJob
  rw [T.job_setJob_of_ne j h]

end Lookup

/-! ## 2. Order

Order is said of a job and of given sets of those who count.  A list has to show who counts, in
the order of their ages, and nobody else. -/

variable {J J' : Koid → Prop} {P P' : Koid → ProcessState → Prop} {T : Pedigree}

/-- The lists of a job show exactly its children among what counts, in ascending order. -/
structure Exact (T : Pedigree) (J : Koid → Prop) (P : Koid → ProcessState → Prop) (k : Koid)
    (q : Job.Ties) : Prop where
  jobs_lt : q.jobs.Pairwise (· < ·)
  jobs : ∀ c, c ∈ q.jobs ↔ J c ∧ T.ChildJob k c
  processes_lt : q.processes.Pairwise (· < ·)
  processes : ∀ p, p ∈ q.processes ↔ ∃ r, T.process p = some r ∧ P p r.state ∧ r.job = k

/-- **The tree is in order**, if the jobs of `J` and the processes of `P` are what counts. -/
structure Orderly (T : Pedigree) (J : Koid → Prop) (P : Koid → ProcessState → Prop) : Prop where
  exact : ∀ {k q}, T.job k = some q → T.Exact J P k q
  older : ∀ {k p j}, T.job k = some j → j.parent = some p → p < k
  height : ∀ {k p j q}, T.job k = some j → j.parent = some p → T.job p = some q →
    q.maxHeight = j.maxHeight + 1

/-- What counts matters only for children that are there. -/
theorem Orderly.congr (h : T.Orderly J P)
    (hJ : ∀ {c j p}, T.job c = some j → j.parent = some p → (J c ↔ J' c))
    (hP : ∀ {p r}, T.process p = some r → (P p r.state ↔ P' p r.state)) : T.Orderly J' P' where
  exact := by
    intro k q hq
    have he := h.exact hq
    refine ⟨he.jobs_lt, fun c => ?_, he.processes_lt, fun p => ?_⟩
    · rw [he.jobs]
      refine and_congr_left ?_
      rintro ⟨j, hj, hp⟩
      exact hJ hj hp
    · rw [he.processes]
      refine exists_congr fun r => and_congr_right fun hr => and_congr_left fun _ => hP hr
  older := h.older
  height := h.height

/-! ## 3. Records that come and go

A record may be entered or erased as long as it does not count, since no list has to show it. -/

/-- The records of processes change in nothing that counts. -/
theorem Orderly.setProcess {p : Koid} {r : Option Process.Kin} (h : T.Orderly J P)
    (hr : ∀ k, (∃ a, r = some a ∧ P p a.state ∧ a.job = k) ↔
      ∃ a, T.process p = some a ∧ P p a.state ∧ a.job = k) :
    (T.setProcess p r).Orderly J P where
  exact := by
    intro k q hq
    have he : T.Exact J P k q := h.exact hq
    refine ⟨he.jobs_lt, he.jobs, he.processes_lt, fun x => (he.processes x).trans ?_⟩
    by_cases hx : x = p
    · subst hx
      rw [process_setProcess_self]
      exact (hr k).symm
    · rw [process_setProcess_of_ne _ _ hx]
  older := h.older
  height := h.height

/-- A job that does not count goes. -/
theorem Orderly.eraseJob {k : Koid} (h : T.Orderly J P) (hk : ¬ J k) :
    (T.setJob k none).Orderly J P := by
  have hget : ∀ {a q}, (T.setJob k none).job a = some q → a ≠ k ∧ T.job a = some q := by
    intro a q hq
    by_cases ha : a = k
    · subst ha
      rw [job_setJob_self] at hq
      cases hq
    · rw [job_setJob_of_ne _ _ ha] at hq
      exact ⟨ha, hq⟩
  refine ⟨fun {a q} hq => ?_, fun hj hp => h.older (hget hj).2 hp,
    fun hj hp hq => h.height (hget hj).2 hp (hget hq).2⟩
  have he := h.exact (hget hq).2
  refine ⟨he.jobs_lt, fun c => (he.jobs c).trans (and_congr_right fun hc => ?_), he.processes_lt,
    he.processes⟩
  have hne : c ≠ k := by
    rintro rfl
    exact hk hc
  exact (T.childJob_setJob_of_ne none hne a).symm

/-- A new job that does not count comes, with nothing below it. -/
theorem Orderly.insertJob {k : Koid} {j : Job.Ties} (h : T.Orderly J P) (hk : ¬ J k)
    (hnone : T.job k = none) (hjobs : j.jobs = []) (hprocesses : j.processes = [])
    (hlt : ∀ {a q}, T.job a = some q → a < k) (hjob : ∀ {p r}, T.process p = some r → r.job ≠ k)
    (hp : ∀ {p}, j.parent = some p → ∃ q, T.job p = some q ∧ q.maxHeight = j.maxHeight + 1) :
    (T.setJob k (some j)).Orderly J P := by
  have hget : ∀ {a q}, (T.setJob k (some j)).job a = some q →
      a = k ∧ q = j ∨ a ≠ k ∧ T.job a = some q := by
    intro a q hq
    by_cases ha : a = k
    · subst ha
      rw [job_setJob_self] at hq
      cases hq
      exact .inl ⟨rfl, rfl⟩
    · rw [job_setJob_of_ne _ _ ha] at hq
      exact .inr ⟨ha, hq⟩
  -- the new job does not count, and every other one is the child that it was
  have hchild : ∀ a c, J c ∧ (T.setJob k (some j)).ChildJob a c ↔ J c ∧ T.ChildJob a c := by
    refine fun a c => and_congr_right fun hc => ?_
    have hne : c ≠ k := by
      rintro rfl
      exact hk hc
    exact T.childJob_setJob_of_ne _ hne a
  constructor
  case exact =>
    intro a q hq
    rcases hget hq with ⟨rfl, rfl⟩ | ⟨-, hq⟩
    · refine ⟨hjobs ▸ .nil, fun c => ?_, hprocesses ▸ .nil, fun p => ?_⟩
      · rw [hchild, hjobs]
        refine ⟨fun hc => absurd hc (List.not_mem_nil), ?_⟩
        rintro ⟨-, i, hi, hpar⟩
        exact absurd (h.older hi hpar) (Nat.lt_asymm (hlt hi))
      · rw [hprocesses]
        refine ⟨fun hc => absurd hc (List.not_mem_nil), ?_⟩
        rintro ⟨r, hr, -, heq⟩
        exact absurd heq (hjob hr)
    · have he := h.exact hq
      exact ⟨he.jobs_lt, fun c => (he.jobs c).trans (hchild a c).symm, he.processes_lt,
        he.processes⟩
  case older =>
    intro a p i hi hpar
    rcases hget hi with ⟨rfl, rfl⟩ | ⟨-, hi⟩
    · obtain ⟨q, hq, -⟩ := hp hpar
      exact hlt hq
    · exact h.older hi hpar
  case height =>
    intro a p i q hi hpar hq
    rcases hget hi with ⟨rfl, rfl⟩ | ⟨-, hold⟩
    · obtain ⟨q', hq', hheight⟩ := hp hpar
      rcases hget hq with ⟨rfl, rfl⟩ | ⟨-, hq⟩
      · rw [hnone] at hq'
        cases hq'
      · rw [hq'] at hq
        cases hq
        exact hheight
    · rcases hget hq with ⟨rfl, rfl⟩ | ⟨-, hq⟩
      · exact absurd (h.older hold hpar) (Nat.lt_asymm (hlt hold))
      · exact h.height hold hpar hq

/-! ## 4. Lists that change

A list that changes by one child changes what counts by that child. -/

/-- One job changes its lists along with what counts among its children. -/
theorem Orderly.relist {k : Koid} {f : Job.Ties → Job.Ties} (h : T.Orderly J P)
    (hparent : ∀ q, (f q).parent = q.parent) (hheight : ∀ q, (f q).maxHeight = q.maxHeight)
    (hf : ∀ q, T.job k = some q → T.Exact J' P' k (f q))
    (hJ : ∀ {c j a}, T.job c = some j → j.parent = some a → a ≠ k → (J c ↔ J' c))
    (hP : ∀ {p r}, T.process p = some r → r.job ≠ k → (P p r.state ↔ P' p r.state)) :
    (T.relist k f).Orderly J' P' := by
  have hget : ∀ {a q}, (T.relist k f).job a = some q →
      ∃ q', T.job a = some q' ∧ q.parent = q'.parent ∧ q.maxHeight = q'.maxHeight ∧
        (a = k ∧ q = f q' ∨ a ≠ k ∧ q = q') := by
    intro a q hq
    by_cases ha : a = k
    · subst ha
      rw [job_relist_self] at hq
      obtain ⟨q', hq', rfl⟩ := Option.map_eq_some_iff.1 hq
      exact ⟨q', hq', hparent q', hheight q', .inl ⟨rfl, rfl⟩⟩
    · rw [job_relist_of_ne _ _ ha] at hq
      exact ⟨q, hq, rfl, rfl, .inr ⟨ha, rfl⟩⟩
  -- a list that changes does not change who is whose child, but it changes who is listed, so what
  -- counts has to change along with it, for the children of this job only
  have hchild : ∀ a c, (T.relist k f).ChildJob a c ↔ T.ChildJob a c := by
    intro a c
    by_cases hc : c = k
    · subst hc
      unfold ChildJob
      simp only [job_relist_self, Option.map_eq_some_iff, exists_exists_and_eq_and, hparent]
    · exact T.childJob_setJob_of_ne _ hc a
  constructor
  case exact =>
    intro a q hq
    obtain ⟨q', hq', -, -, ⟨rfl, rfl⟩ | ⟨ha, rfl⟩⟩ := hget hq
    · have he := hf q' hq'
      exact ⟨he.jobs_lt, fun c => (he.jobs c).trans (and_congr_right fun _ => (hchild a c).symm),
        he.processes_lt, he.processes⟩
    · have he := h.exact hq'
      refine ⟨he.jobs_lt, fun c => (he.jobs c).trans ?_, he.processes_lt,
        fun p => (he.processes p).trans ?_⟩
      · rw [hchild]
        refine and_congr_left ?_
        rintro ⟨j, hj, hp⟩
        exact hJ hj hp ha
      · refine exists_congr fun r => and_congr_right fun hr => and_congr_left fun hjob => ?_
        exact hP hr (hjob ▸ ha)
  case older =>
    intro a p j hj hp
    obtain ⟨j', hj', hpar, -⟩ := hget hj
    exact h.older hj' (hpar ▸ hp)
  case height =>
    intro a p j q hj hp hq
    obtain ⟨j', hj', hpar, hhj, -⟩ := hget hj
    obtain ⟨q', hq', -, hhq, -⟩ := hget hq
    rw [hhj, hhq]
    exact h.height hj' (hpar ▸ hp) hq'

theorem pairwise_append_singleton {l : List Nat} {x : Nat} (h : l.Pairwise (· < ·))
    (hx : ∀ y ∈ l, y < x) : (l ++ [x]).Pairwise (· < ·) := by
  rw [List.pairwise_append]
  refine ⟨h, List.pairwise_singleton _ _, fun y hy z hz => ?_⟩
  rw [List.mem_singleton.1 hz]
  exact hx y hy

theorem mem_erase_iff_of_lt {l : List Nat} {x y : Nat} (h : l.Pairwise (· < ·)) :
    y ∈ l.erase x ↔ y ∈ l ∧ y ≠ x :=
  (List.Nodup.mem_erase_iff (h.imp Nat.ne_of_lt)).trans and_comm

/-- The youngest child is listed, and counts from now on. -/
theorem Orderly.listJob {k : Koid} {j : Job.Ties} {c : Koid}
    (h : T.Orderly (fun a => J a ∧ a ≠ c) P)
    (hJ : J c) (hc : T.job c = some j) (hp : j.parent = some k)
    (hlt : ∀ {a i}, T.job a = some i → a ≠ c → a < c) :
    (T.relist k (.withJob c)).Orderly J P := by
  refine h.relist (fun _ => rfl) (fun _ => rfl) (fun q hq => ?_) (fun {a i b} hi hb hne => ?_)
    fun _ _ => Iff.rfl
  · have he := h.exact hq
    refine ⟨pairwise_append_singleton he.jobs_lt fun y hy => ?_, fun a => ?_, he.processes_lt,
      he.processes⟩
    · obtain ⟨⟨-, hne⟩, i, hi, -⟩ := (he.jobs y).1 hy
      exact hlt hi hne
    · show a ∈ q.jobs ++ [c] ↔ _
      rw [List.mem_append, List.mem_singleton, he.jobs]
      -- Before, the list was exact for all jobs but this one.  It is at the end now, where the
      -- youngest has to stand.
      by_cases ha : a = c
      · subst ha
        exact ⟨fun _ => ⟨hJ, j, hc, hp⟩, fun _ => .inr rfl⟩
      · simp only [ne_eq, ha, not_false_eq_true, and_true, or_false]
  · have ha : a ≠ c := by
      rintro rfl
      rw [hc] at hi
      cases hi
      rw [hp] at hb
      exact hne (Option.some.inj hb).symm
    simp only [ne_eq, ha, not_false_eq_true, and_true]

/-- A child is taken off its list, and does not count any more. -/
theorem Orderly.unlistJob {k c : Koid} (h : T.Orderly J P)
    (hc : ∀ {j a}, T.job c = some j → j.parent = some a → a = k) :
    (T.relist k (.withoutJob c)).Orderly (fun a => J a ∧ a ≠ c) P := by
  refine h.relist (fun _ => rfl) (fun _ => rfl) (fun q hq => ?_) (fun {a i b} hi hb hne => ?_)
    fun _ _ => Iff.rfl
  · have he := h.exact hq
    refine ⟨he.jobs_lt.sublist List.erase_sublist, fun a => ?_, he.processes_lt, he.processes⟩
    refine (mem_erase_iff_of_lt he.jobs_lt).trans ?_
    rw [he.jobs, and_right_comm]
  · have ha : a ≠ c := by
      rintro rfl
      exact hne (hc hi hb)
    simp only [ne_eq, ha, not_false_eq_true, and_true]

/-- The youngest process is listed, and counts from now on. -/
theorem Orderly.listProcess {p : Koid} {r : Process.Kin}
    (h : T.Orderly J fun a state => P a state ∧ a ≠ p) (hP : P p r.state)
    (hr : T.process p = some r) (hlt : ∀ {a i}, T.process a = some i → a ≠ p → a < p) :
    (T.relist r.job (.withProcess p)).Orderly J P := by
  refine h.relist (fun _ => rfl) (fun _ => rfl) (fun q hq => ?_) (fun _ _ _ => Iff.rfl)
    fun {a i} hi hne => ?_
  · have he := h.exact hq
    refine ⟨he.jobs_lt, he.jobs, pairwise_append_singleton he.processes_lt fun y hy => ?_,
      fun a => ?_⟩
    · obtain ⟨i, hi, ⟨-, hne⟩, -⟩ := (he.processes y).1 hy
      exact hlt hi hne
    · show a ∈ q.processes ++ [p] ↔ _
      rw [List.mem_append, List.mem_singleton, he.processes]
      by_cases ha : a = p
      · subst ha
        exact ⟨fun _ => ⟨r, hr, hP, rfl⟩, fun _ => .inr rfl⟩
      · simp only [ne_eq, ha, not_false_eq_true, and_true, or_false]
  · have ha : a ≠ p := by
      rintro rfl
      rw [hr] at hi
      cases hi
      exact hne rfl
    simp only [ne_eq, ha, not_false_eq_true, and_true]

/-- A process is taken off its list, and does not count any more. -/
theorem Orderly.unlistProcess {k p : Koid} (h : T.Orderly J P)
    (hp : ∀ {r}, T.process p = some r → r.job = k) :
    (T.relist k (.withoutProcess p)).Orderly J fun a state => P a state ∧ a ≠ p := by
  refine h.relist (fun _ => rfl) (fun _ => rfl) (fun q hq => ?_) (fun _ _ _ => Iff.rfl)
    fun {a i} hi hne => ?_
  · have he := h.exact hq
    refine ⟨he.jobs_lt, he.jobs, he.processes_lt.sublist List.erase_sublist, fun a => ?_⟩
    refine (mem_erase_iff_of_lt he.processes_lt).trans ?_
    rw [he.processes]
    constructor
    · rintro ⟨⟨i, hi, hcount, hjob⟩, hne⟩
      exact ⟨i, hi, ⟨hcount, hne⟩, hjob⟩
    · rintro ⟨i, hi, ⟨hcount, hne⟩, hjob⟩
      exact ⟨⟨i, hi, hcount, hjob⟩, hne⟩
  · have ha : a ≠ p := by
      rintro rfl
      exact hne (hp hi)
    simp only [ne_eq, ha, not_false_eq_true, and_true]

/-! ## 5. Children that go

A child that goes leaves a list that has it still.  For the time being the list counts the child
out by its number. -/

/-- A root job that goes leaves no list. -/
theorem Orderly.rootGone {k : Koid} {j : Job.Ties} (h : T.Orderly J P) (hk : T.job k = some j)
    (hp : j.parent = none) : (T.setJob k none).Orderly J P := by
  have hcount : T.Orderly (fun a => J a ∧ a ≠ k) P := by
    refine h.congr (fun {c i p} hi hpar => (and_iff_left ?_).symm) fun _ => Iff.rfl
    rintro rfl
    rw [hk] at hi
    cases hi
    rw [hp] at hpar
    cases hpar
  refine (hcount.eraseJob fun hkk => hkk.2 rfl).congr (fun {c i p} hi _ => and_iff_left ?_)
    fun _ => Iff.rfl
  rintro rfl
  rw [job_setJob_self] at hi
  cases hi

/-- A job that goes leaves its parent's list. -/
theorem Orderly.jobGone {k p : Koid} {j : Job.Ties} (h : T.Orderly J P) (hk : T.job k = some j)
    (hp : j.parent = some p) : ((T.setJob k none).relist p (.withoutJob k)).Orderly J P := by
  have hne : p ≠ k := Nat.ne_of_lt (h.older hk hp)
  have hcomm : (T.setJob k none).relist p (.withoutJob k) =
      (T.relist p (.withoutJob k)).setJob k none := by
    unfold Pedigree.relist
    rw [T.job_setJob_of_ne none hne]
    unfold Pedigree.setJob
    dsimp only
    rw [Function.update_comm hne]
  have hleft : (T.relist p (.withoutJob k)).Orderly (fun a => J a ∧ a ≠ k) P := by
    refine h.unlistJob fun {i a} hi ha => ?_
    rw [hk] at hi
    cases hi
    rw [hp] at ha
    exact (Option.some.inj ha).symm
  rw [hcomm]
  refine (hleft.eraseJob fun hkk => hkk.2 rfl).congr (fun {c i a} hi _ => and_iff_left ?_)
    fun _ => Iff.rfl
  rintro rfl
  rw [job_setJob_self] at hi
  cases hi

/-- A process that goes leaves its job's list. -/
theorem Orderly.processGone {p : Koid} {r : Process.Kin} (h : T.Orderly J P)
    (hp : T.process p = some r) :
    ((T.setProcess p none).relist r.job (.withoutProcess p)).Orderly J P := by
  have hleft : (T.relist r.job (.withoutProcess p)).Orderly J
      fun a state => P a state ∧ a ≠ p := by
    refine h.unlistProcess fun {i} hi => ?_
    rw [hp] at hi
    cases hi
    rfl
  have herase : ((T.relist r.job (.withoutProcess p)).setProcess p none).Orderly J
      fun a state => P a state ∧ a ≠ p := by
    refine hleft.setProcess fun k => ⟨?_, ?_⟩
    · rintro ⟨a, ha, -⟩
      cases ha
    · rintro ⟨a, -, ⟨-, hne⟩, -⟩
      exact absurd rfl hne
  refine herase.congr (fun _ _ => Iff.rfl) fun {a i} hi => and_iff_left ?_
  rintro rfl
  rw [process_setProcess_self] at hi
  cases hi

end Pedigree

open Pedigree

/-! ## 6. What the functions of the object layer do to the lists

One equation for each function, so that the lemmas on pedigrees apply to states. -/

namespace System

/-- The side of the state that the tree of jobs shows. -/
def pedigree (s : System) : Pedigree where
  job k := s.jobs[k]?.map Job.ties
  process p := s.processes[p]?.map Process.kin

variable {s t : System} {J : Koid → Prop} {P : Koid → ProcessState → Prop}

theorem job_pedigree {k : Koid} {j : Job} (h : s.jobs[k]? = some j) :
    s.pedigree.job k = some j.ties := congrArg (Option.map Job.ties) h

theorem process_pedigree {p : Koid} {r : Process} (h : s.processes[p]? = some r) :
    s.pedigree.process p = some r.kin := congrArg (Option.map Process.kin) h

theorem pedigree_of_inert (h : Inert s t) : t.pedigree = s.pedigree := by
  unfold pedigree
  congr 1
  · exact funext fun k => map_eq_of_map_eq (h.job k) Job.Kin.ties
  · exact funext h.process

theorem pedigree_of_same (hj : t.jobs = s.jobs) (hp : t.processes = s.processes) :
    t.pedigree = s.pedigree := by
  unfold pedigree
  rw [hj, hp]

theorem pedigree_modifyJob {k : Koid} {f : Job → Job} {g : Job.Ties → Job.Ties}
    (h : ∀ j, s.jobs[k]? = some j → (f j).ties = g j.ties) :
    (s.modifyJob k f).pedigree = s.pedigree.relist k g := by
  unfold pedigree relist setJob
  congr 1
  funext a
  by_cases ha : a = k
  · subst ha
    rw [Function.update_self]
    show (s.jobs.modify a f)[a]?.map Job.ties = (s.jobs[a]?.map Job.ties).map g
    rw [Store.getElem?_modify, if_pos rfl]
    cases hj : s.jobs[a]? with
    | none => rfl
    | some j => exact congrArg some (h j hj)
  · rw [Function.update_of_ne ha]
    show (s.jobs.modify k f)[a]?.map Job.ties = _
    rw [Store.getElem?_modify, if_neg (Ne.symm ha)]

/-- What a job shows of the tree is the same in every state of its life. -/
theorem pedigree_modifyJob_of_ties {k : Koid} {f : Job → Job}
    (h : ∀ j, s.jobs[k]? = some j → (f j).ties = j.ties) :
    (s.modifyJob k f).pedigree = s.pedigree := by
  unfold pedigree
  congr 1
  exact funext (Store.map_modify h)

@[simp] theorem pedigree_markDead (s : System) (k : Koid) :
    (s.markDead k).pedigree = s.pedigree := by
  unfold markDead
  split
  · rfl
  · rename_i j hj
    dsimp only
    rw [pedigree_of_inert ((inert_signal _ _ _ _).trans (inert_log _ _)),
      pedigree_of_inert ((inert_unbindSlot _ j.port).trans (inert_unbindSlot _ j.debuggerPort))]
    exact pedigree_modifyJob_of_ties fun _ _ => rfl

@[simp] theorem pedigree_childLeft (s : System) (k : Koid) :
    (s.childLeft k).pedigree = s.pedigree := by
  unfold childLeft
  split
  · rfl
  · rename_i j hj
    dsimp only
    generalize hu : (if (j.processes.isEmpty && j.jobs.isEmpty) && j.state = .killing
      then s.markDead k else s) = u
    have hsame : u.pedigree = s.pedigree := by
      rw [← hu]
      split
      · exact pedigree_markDead s k
      · rfl
    rw [← hsame]
    split
    · rw [pedigree_of_inert (inert_halt _ _), pedigree_of_inert (inert_signal _ _ _ _)]
      exact pedigree_modifyJob_of_ties fun _ _ => rfl
    · exact pedigree_of_inert (inert_signal _ _ _ _)

theorem pedigree_detachJob (s : System) (k c : Koid) :
    (s.detachJob k c).pedigree = s.pedigree.relist k (.withoutJob c) := by
  unfold detachJob
  cases hj : s.jobs[k]? with
  | none =>
    refine (relist_of_same fun q hq => ?_).symm
    obtain ⟨j, hj', -⟩ := Option.map_eq_some_iff.1 hq
    rw [hj] at hj'
    cases hj'
  | some j =>
    dsimp only
    split
    · rw [pedigree_childLeft]
      exact pedigree_modifyJob fun _ _ => rfl
    · rename_i hc
      refine (relist_of_same fun q hq => ?_).symm
      rw [job_pedigree hj] at hq
      cases hq
      exact congrArg (Job.Ties.mk _ _ · _) (List.erase_of_not_mem hc)

theorem pedigree_detachProcess (s : System) (k p : Koid) :
    (s.detachProcess k p).pedigree = s.pedigree.relist k (.withoutProcess p) := by
  unfold detachProcess
  cases hj : s.jobs[k]? with
  | none =>
    refine (relist_of_same fun q hq => ?_).symm
    obtain ⟨j, hj', -⟩ := Option.map_eq_some_iff.1 hq
    rw [hj] at hj'
    cases hj'
  | some j =>
    dsimp only
    split
    · rw [pedigree_childLeft]
      exact pedigree_modifyJob fun _ _ => rfl
    · rename_i hp
      refine (relist_of_same fun q hq => ?_).symm
      rw [job_pedigree hj] at hq
      cases hq
      exact congrArg (Job.Ties.mk _ _ _ ·) (List.erase_of_not_mem hp)

theorem pedigree_setJob {k : Koid} {x : Option Job}
    (hj : ∀ a : Nat, t.jobs[a]? = if k = a then x else s.jobs[a]?)
    (hp : t.processes = s.processes) : t.pedigree = s.pedigree.setJob k (x.map Job.ties) := by
  unfold pedigree Pedigree.setJob
  rw [hp]
  congr 1
  funext a
  dsimp only
  rw [hj a, Function.update_apply]
  simp only [eq_comm (a := k)]
  split <;> rfl

theorem pedigree_setProcess {p : Koid} {x : Option Process} (hj : t.jobs = s.jobs)
    (hp : ∀ a : Nat, t.processes[a]? = if p = a then x else s.processes[a]?) :
    t.pedigree = s.pedigree.setProcess p (x.map Process.kin) := by
  unfold pedigree Pedigree.setProcess
  rw [hj]
  congr 1
  funext a
  dsimp only
  rw [hp a, Function.update_apply]
  simp only [eq_comm (a := p)]
  split <;> rfl

theorem pedigree_forgetClone (s : System) (v c : VmoId) :
    (s.forgetClone v c).pedigree = s.pedigree := by
  obtain ⟨objects, trace, he, -⟩ := s.forgetClone_eq v c
  obtain ⟨families, hd, -⟩ := s.dropClone_eq v c
  rw [he, hd]
  rfl

theorem pedigree_destroyVmo (s : System) (v : VmoId) :
    (s.destroyVmo v).1.pedigree = s.pedigree := by
  unfold destroyVmo
  split
  · rfl
  · dsimp only
    rw [pedigree_of_inert (inert_log _ _)]
    split
    · rfl
    · exact pedigree_forgetClone _ _ _

theorem pedigree_closeHandle (s : System) (h : HandleId) :
    (s.closeHandle h).1.pedigree = s.pedigree := by
  unfold closeHandle
  split
  · rfl
  · dsimp only
    split
    · rw [pedigree_of_inert (inert_zeroHandles _ _)]
      rfl
    · rfl

/-! ## 7. Things that are given back

A destroyed job or process leaves the list of its job, and everything else that is destroyed does
not show. -/

theorem pedigree_destroyObject_of_root {k : Koid} {j : Job} (hj : s.jobs[k]? = some j)
    (hp : j.parent = none) : (s.destroyObject k).1.pedigree = s.pedigree.setJob k none := by
  unfold destroyObject
  simp only [hj, hp]
  rw [pedigree_of_inert (((inert_unregister _ _).trans (inert_bump _ _)).trans (inert_log _ _))]
  exact pedigree_setJob (x := none) (Store.getElem?_erase _ _) rfl

theorem pedigree_destroyObject_of_child {k p : Koid} {j : Job} (hj : s.jobs[k]? = some j)
    (hp : j.parent = some p) : (s.destroyObject k).1.pedigree =
      (s.pedigree.setJob k none).relist p (.withoutJob k) := by
  unfold destroyObject
  simp only [hj, hp]
  rw [pedigree_of_inert (((inert_unregister _ _).trans (inert_bump _ _)).trans (inert_log _ _)),
    pedigree_detachJob]
  congr 1
  exact pedigree_setJob (x := none) (Store.getElem?_erase _ _) rfl

theorem pedigree_destroyObject_of_process {p : Koid} {r : Process} (hj : s.jobs[p]? = none)
    (hr : s.processes[p]? = some r) : (s.destroyObject p).1.pedigree =
      (s.pedigree.setProcess p none).relist r.job (.withoutProcess p) := by
  unfold destroyObject
  simp only [hj, hr]
  rw [pedigree_of_inert ((inert_bump _ _).trans (inert_log _ _)), pedigree_detachProcess]
  congr 1
  exact pedigree_setProcess (x := none) rfl (Store.getElem?_erase _ _)

theorem pedigree_destroyObject_of_other {k : Koid} (hj : s.jobs[k]? = none)
    (hp : s.processes[k]? = none) : (s.destroyObject k).1.pedigree = s.pedigree := by
  unfold destroyObject
  simp only [hj, hp]
  cases s.views[k]? with
  | some v => rfl
  | none => cases s.witnesses[k]? <;> rfl

/-- A destroyed child leaves its list. -/
theorem orderly_destroyObject (h : s.pedigree.Orderly J P) (k : Koid) :
    (s.destroyObject k).1.pedigree.Orderly J P := by
  cases hj : s.jobs[k]? with
  | some j =>
    cases hp : j.parent with
    | none =>
      rw [pedigree_destroyObject_of_root hj hp]
      exact h.rootGone (job_pedigree hj) hp
    | some p =>
      rw [pedigree_destroyObject_of_child hj hp]
      exact h.jobGone (job_pedigree hj) hp
  | none =>
    cases hr : s.processes[k]? with
    | some r =>
      rw [pedigree_destroyObject_of_process hj hr]
      exact h.processGone (process_pedigree hr)
    | none =>
      rw [pedigree_destroyObject_of_other hj hr]
      exact h

theorem orderly_destroy (h : s.pedigree.Orderly J P) (r : Ref) :
    (s.destroy r).1.pedigree.Orderly J P := by
  cases r with
  | object k => exact orderly_destroyObject h k
  | handle a =>
    unfold destroy
    dsimp only
    split <;> exact h
  | vmo v =>
    unfold destroy
    rw [pedigree_destroyVmo]
    exact h
  | mapping m => exact h
  | listener o => exact h

theorem orderly_perform (h : s.pedigree.Orderly J P) (t : Task) :
    (s.perform t).1.pedigree.Orderly J P := by
  cases t with
  | release r =>
    unfold perform
    dsimp only
    split
    · exact h
    · exact orderly_destroy (s := { s with refs := s.refs.release r }) h r
    · exact h
  | close a =>
    unfold perform
    rw [pedigree_closeHandle]
    exact h
  | closeTable t =>
    unfold perform
    dsimp only
    split <;> exact h

/-- **Whatever is given back, with all that follows, leaves the tree in order.** -/
theorem orderly_settle (h : s.pedigree.Orderly J P) (ts : List Task) :
    (s.settle ts).pedigree.Orderly J P := by
  fun_induction settle s ts with
  | case1 s => exact h
  | case2 s t rest ih => exact ih (orderly_perform h t)

theorem orderly_tableClear (h : s.pedigree.Orderly J P) (t : TableId) :
    (s.tableClear t).2.pedigree.Orderly J P := by
  cases ht : s.tables[t]? with
  | none =>
    rw [tableClear_of_none ht]
    exact h
  | some table =>
    rw [tableClear_of_some ht]
    obtain ⟨handles, he, -⟩ := s.emptied_eq t table
    rw [he]
    exact orderly_settle (s := { s.setOwned t ∅ with handles }) h _

theorem job_destroyObject (s : System) (k : Koid) : (s.destroyObject k).1.jobs[k]? = none := by
  suffices hnone : (s.destroyObject k).1.pedigree.job k = none from Option.map_eq_none_iff.1 hnone
  cases hj : s.jobs[k]? with
  | some j =>
    cases hp : j.parent with
    | none => rw [pedigree_destroyObject_of_root hj hp, job_setJob_self]
    | some p =>
      rw [pedigree_destroyObject_of_child hj hp]
      exact job_relist_of_none _ _ (job_setJob_self _ _)
  | none =>
    have hnone : s.pedigree.job k = none := Option.map_eq_none_iff.2 hj
    cases hr : s.processes[k]? with
    | some r =>
      rw [pedigree_destroyObject_of_process hj hr]
      exact job_relist_of_none _ _ hnone
    | none =>
      rw [pedigree_destroyObject_of_other hj hr]
      exact hnone

theorem process_destroyObject {p : Koid} (hj : s.jobs[p]? = none) :
    (s.destroyObject p).1.processes[p]? = none := by
  suffices hnone : (s.destroyObject p).1.pedigree.process p = none from
    Option.map_eq_none_iff.1 hnone
  cases hr : s.processes[p]? with
  | some r =>
    rw [pedigree_destroyObject_of_process hj hr]
    exact process_setProcess_self _ _
  | none =>
    rw [pedigree_destroyObject_of_other hj hr]
    exact Option.map_eq_none_iff.2 hr

/-- With the last reference an object goes for good, whatever follows. -/
theorem gone_of_release {k : Koid} (h : s.refCount (.object k) = 1) :
    (s.release (.object k)).jobs[k]? = none ∧
      (s.jobs[k]? = none → (s.release (.object k)).processes[k]? = none) := by
  set t : System := { s with refs := s.refs.release (.object k) }
  have hfirst : s.release (.object k) = (t.destroyObject k).1.settle (t.destroyObject k).2 := by
    unfold release
    rw [settle]
    simp only [perform, h, destroy, List.append_nil]
    rfl
  have hwanes := (settle_declines (K := fun _ => True) (P := fun _ => True) (t.destroyObject k).1
    (t.destroyObject k).2 []).wanes
  dsimp only at hwanes
  rw [hfirst]
  refine ⟨Option.eq_none_iff_forall_not_mem.2 fun b hb => ?_,
    fun hj => Option.eq_none_iff_forall_not_mem.2 fun b hb => ?_⟩
  · obtain ⟨a, ha, -⟩ := hwanes.job hb
    rw [job_destroyObject] at ha
    cases ha
  · obtain ⟨a, ha, -⟩ := hwanes.process hb
    rw [process_destroyObject (s := t) hj] at ha
    cases ha

end System

end KernelObjects
