import KernelObjects.Proofs.Wanes
import KernelObjects.Proofs.Run

/-
# The tree of jobs

The tree is written down twice: a job names its parent, and a job lists its children.  The two
agree (`JobTree`) as far as anybody relies on it: what is listed and still there names the lister,
and a ready job lists everything that names it.  A parent is older than its children, since
identities are handed out in order, so going up from parent to parent never comes back.

A job that is not ready may be missing children that name it.  They were made while it was ready
no longer, and were given up at once.

The agreement about processes holds only if nobody lists a process by hand.

What is required here is less than exact lists, and it holds in the midst of operations, where
those are not exact (`Pedigree`).  Entries of what is gone are allowed, since whoever goes down a
list looks up what is there.  That makes the property one which everything that declines keeps
(`Wanes`), and a kill can use it on its way.
-/

namespace KernelObjects

/-! ## 1. The two ways to write the tree

Going up by parents and going down by lists, as far as they have to agree in the midst of an
operation. -/

/-- What the records of jobs and processes say of one another is true. -/
structure Filed (s : System) : Prop where
  older : ∀ {k p : Nat} {j : Job}, s.jobs[k]? = some j → j.parent = some p → p < k
  parent : ∀ {k c : Nat} {q j : Job}, s.jobs[k]? = some q → c ∈ q.jobs → s.jobs[c]? = some j →
    j.parent = some k
  job : ∀ {k p : Nat} {q : Job} {r : Process}, s.jobs[k]? = some q → p ∈ q.processes →
    s.processes[p]? = some r → r.job = k
  /-- What is listed was handed out. -/
  known : ∀ {k c : Nat} {q : Job}, s.jobs[k]? = some q → c ∈ q.jobs ∨ c ∈ q.processes →
    c < s.nextKoid

/-- **The tree of jobs is in order.** -/
structure JobTree (s : System) : Prop extends Filed s where
  listed : ∀ {k p : Nat} {j q : Job}, s.jobs[k]? = some j → j.parent = some p →
    s.jobs[p]? = some q → q.state = .ready → k ∈ q.jobs

variable {s t : System} {d : List Task}

/-- The jobs that are there were handed out. -/
theorem Accounted.job_lt (h : Accounted s d) {k : Nat} {j : Job} (hj : s.jobs[k]? = some j) :
    k < s.nextKoid := by
  obtain ⟨o, ho⟩ := h.object_of_present (.inl (Store.contains_iff.2 ⟨j, hj⟩))
  exact h.bounded.object (Store.contains_iff.2 ⟨o, ho⟩)

theorem Accounted.process_lt (h : Accounted s d) {p : Nat} {r : Process}
    (hr : s.processes[p]? = some r) : p < s.nextKoid := by
  obtain ⟨o, ho⟩ := h.object_of_present (.inr (.inl (Store.contains_iff.2 ⟨r, hr⟩)))
  exact h.bounded.object (Store.contains_iff.2 ⟨o, ho⟩)

namespace JobTree

theorem initial : JobTree .initial where
  older h := by simp [System.initial] at h
  parent h := by simp [System.initial] at h
  listed h := by simp [System.initial] at h
  job h := by simp [System.initial] at h
  known h := by simp [System.initial] at h

/-- What declines keeps its tree. -/
theorem wanes {K P : Koid → Prop} (h : JobTree s) (hw : Wanes K P s t) : JobTree t where
  older := by
    intro k p b hb hp
    obtain ⟨a, ha, hab⟩ := hw.job hb
    have hpa : a.parent = some p := hab.parent.symm.trans hp
    exact h.older ha hpa
  parent := by
    intro k c q b hq hc hb
    obtain ⟨q', hq', hqq⟩ := hw.job hq
    obtain ⟨a, ha, hab⟩ := hw.job hb
    exact hab.parent.trans (h.parent hq' (hqq.jobs.subset hc) ha)
  -- The only clause that asks for something to be listed: a child that is still there is not
  -- taken off while its parent is ready.
  listed := by
    intro k p b q hb hp hq hr
    obtain ⟨q', hq', hqq⟩ := hw.job hq
    obtain ⟨a, ha, hab⟩ := hw.job hb
    have hpa : a.parent = some p := hab.parent.symm.trans hp
    exact hw.child hq' hq (h.listed ha hpa hq' (hqq.ready hr)) hb
  job := by
    intro k p q r hq hp hr
    obtain ⟨q', hq', hqq⟩ := hw.job hq
    obtain ⟨r', hr', hrr⟩ := hw.process hr
    exact hrr.job.trans (h.job hq' (hqq.processes.subset hp) hr')
  known := by
    intro k c q hq hc
    obtain ⟨q', hq', hqq⟩ := hw.job hq
    refine Nat.lt_of_lt_of_le (h.known hq' ?_) hw.nextKoid
    exact hc.imp (fun h => hqq.jobs.subset h) fun h => hqq.processes.subset h

/-- A state with the same jobs and the same processes has the same tree. -/
theorem congr (h : JobTree s) (hn : s.nextKoid ≤ t.nextKoid) (hj : t.jobs = s.jobs)
    (hp : t.processes = s.processes) : JobTree t :=
  h.wanes (Wanes.of_same (K := fun _ => False) (P := fun _ => False) hn hj hp)

end JobTree

/-! ## 2. New jobs and longer lists

A new job is on no list and has an empty one.  What is put on a list names the lister. -/

namespace Filed

theorem ne_nextKoid (h : Filed s) {k c : Nat} {q : Job} (hq : s.jobs[k]? = some q)
    (hc : c ∈ q.jobs ∨ c ∈ q.processes) : s.nextKoid ≠ c :=
  (Nat.ne_of_lt (h.known hq hc)).symm

/-- A job of the state with a new one is the new one or an old one. -/
theorem withJob_cases {signals : Signals} {j : Job} {k : Nat} {b : Job}
    (hb : (s.withJob signals j).jobs[k]? = some b) :
    s.nextKoid = k ∧ b = j ∨ s.nextKoid ≠ k ∧ s.jobs[k]? = some b := by
  have hb := (Store.getElem?_insert s.jobs s.nextKoid k j).symm.trans hb
  split at hb
  · rename_i he
    cases hb
    exact .inl ⟨he, rfl⟩
  · rename_i hne
    exact .inr ⟨hne, hb⟩

/-- A new job lists nothing, and nobody lists it yet. -/
theorem withJob {signals : Signals} {j : Job} (h : Filed s) (hacc : Accounted s d)
    (hjobs : j.jobs = []) (hprocesses : j.processes = [])
    (hp : ∀ p, j.parent = some p → ∃ q, s.jobs[p]? = some q) :
    Filed (s.withJob signals j) where
  older := by
    intro k p b hb hparent
    rcases withJob_cases hb with ⟨rfl, rfl⟩ | ⟨-, hb⟩
    · obtain ⟨q, hq⟩ := hp p hparent
      exact hacc.job_lt hq
    · exact h.older hb hparent
  -- The new number is on no list, since lists have known numbers only, and the new lists are
  -- empty.
  parent := by
    intro k c q b hq hc hb
    rcases withJob_cases hq with ⟨-, rfl⟩ | ⟨-, hq⟩
    · rw [hjobs] at hc
      cases hc
    · rcases withJob_cases hb with ⟨he, -⟩ | ⟨-, hb⟩
      · exact absurd he (h.ne_nextKoid hq (.inl hc))
      · exact h.parent hq hc hb
  job := by
    intro k p q r hq hpq hr
    rcases withJob_cases hq with ⟨-, rfl⟩ | ⟨-, hq⟩
    · rw [hprocesses] at hpq
      cases hpq
    · exact h.job hq hpq hr
  known := by
    intro k c q hq hc
    rcases withJob_cases hq with ⟨-, rfl⟩ | ⟨-, hq⟩
    · rw [hjobs, hprocesses] at hc
      rcases hc with hc | hc <;> cases hc
    · exact Nat.lt_succ_of_lt (h.known hq hc)

/-- A job after a change of its lists: everything but the lists is what it was. -/
theorem relist_cases {k : Koid} {j : Job} {f : Job → Job} (hj : s.jobs[k]? = some j)
    (hparent : (f j).parent = j.parent) (hstate : (f j).state = j.state) {a : Nat} {b : Job}
    (hb : (s.modifyJob k f).jobs[a]? = some b) :
    ∃ i, s.jobs[a]? = some i ∧ b.parent = i.parent ∧ b.state = i.state ∧
      (b = i ∨ a = k ∧ i = j ∧ b = f j) := by
  have hb := (Store.getElem?_modify s.jobs k a f).symm.trans hb
  split at hb
  · rename_i he
    rw [← he, hj] at hb
    cases hb
    exact ⟨j, he ▸ hj, hparent, hstate, .inr ⟨he.symm, rfl, rfl⟩⟩
  · exact ⟨b, hb, rfl, rfl, .inl rfl⟩

/-- A job may list more of what names it. -/
theorem relist {k : Koid} {j : Job} {f : Job → Job} (h : Filed s) (hj : s.jobs[k]? = some j)
    (hparent : (f j).parent = j.parent) (hstate : (f j).state = j.state)
    (hjobs : ∀ c ∈ (f j).jobs, c ∈ j.jobs ∨
      c < s.nextKoid ∧ ∀ i, s.jobs[c]? = some i → i.parent = some k)
    (hprocesses : ∀ p ∈ (f j).processes, p ∈ j.processes ∨
      p < s.nextKoid ∧ ∀ r, s.processes[p]? = some r → r.job = k) :
    Filed (s.modifyJob k f) where
  older := by
    intro a p b hb hp
    obtain ⟨i, hi, hpar, -⟩ := relist_cases hj hparent hstate hb
    exact h.older hi (hpar ▸ hp)
  parent := by
    intro a c q b hq hc hb
    obtain ⟨i, hi, hpar, -⟩ := relist_cases hj hparent hstate hb
    obtain ⟨q', hq', -, -, rfl | ⟨rfl, rfl, rfl⟩⟩ := relist_cases hj hparent hstate hq
    · exact hpar.trans (h.parent hq' hc hi)
    · rcases hjobs c hc with hc | ⟨-, hc⟩
      · exact hpar.trans (h.parent hj hc hi)
      · exact hpar.trans (hc i hi)
  job := by
    intro a p q r hq hp hr
    obtain ⟨q', hq', -, -, rfl | ⟨rfl, rfl, rfl⟩⟩ := relist_cases hj hparent hstate hq
    · exact h.job hq' hp hr
    · rcases hprocesses p hp with hp | ⟨-, hp⟩
      · exact h.job hj hp hr
      · exact hp r hr
  -- What a longer list has in addition is known by hypothesis; whose child it is was settled in
  -- the clauses above.
  known := by
    intro a c q hq hc
    obtain ⟨q', hq', -, -, rfl | ⟨rfl, rfl, rfl⟩⟩ := relist_cases hj hparent hstate hq
    · exact h.known hq' hc
    · rcases hc with hc | hc
      · rcases hjobs c hc with hc | ⟨hlt, -⟩
        · exact h.known hj (.inl hc)
        · exact hlt
      · rcases hprocesses c hc with hc | ⟨hlt, -⟩
        · exact h.known hj (.inr hc)
        · exact hlt

end Filed

namespace JobTree

open Filed

/-- A new job below a parent that is not ready, or below none. -/
theorem job_born {signals : Signals} {j : Job} (h : JobTree s) (hacc : Accounted s d)
    (hjobs : j.jobs = []) (hprocesses : j.processes = [])
    (hp : ∀ p, j.parent = some p → ∃ q, s.jobs[p]? = some q ∧ q.state ≠ .ready) :
    JobTree (s.withJob signals j) where
  toFiled := h.toFiled.withJob hacc hjobs hprocesses fun p hq =>
    (hp p hq).imp fun _ hq => hq.1
  listed := by
    intro k p b q hb hparent hq hr
    rcases withJob_cases hb with ⟨-, rfl⟩ | ⟨-, hb⟩
    · -- the parent is not ready, and it is not the new job either
      obtain ⟨q', hq', hne⟩ := hp p hparent
      rcases withJob_cases hq with ⟨he, -⟩ | ⟨-, hq⟩
      · exact absurd he.symm (Nat.ne_of_lt (hacc.job_lt hq'))
      · rw [hq'] at hq
        cases hq
        exact absurd hr hne
    · rcases withJob_cases hq with ⟨he, -⟩ | ⟨-, hq⟩
      · obtain ⟨q', hq'⟩ := Store.contains_iff.1 (hacc.parent hb hparent)
        exact absurd he.symm (Nat.ne_of_lt (hacc.job_lt hq'))
      · exact h.listed hb hparent hq hr

/-- A new job that its parent lists at once. -/
theorem child_born {signals : Signals} {j q : Job} {p : Koid} {f : Job → Job} (h : JobTree s)
    (hacc : Accounted s d) (hjobs : j.jobs = []) (hprocesses : j.processes = [])
    (hparent : j.parent = some p) (hq : s.jobs[p]? = some q)
    (hf : (f q).kin = { q.kin with jobs := q.jobs ++ [s.nextKoid] }) :
    JobTree ((s.withJob signals j).modifyJob p f) := by
  have hne : s.nextKoid ≠ p := (Nat.ne_of_lt (hacc.job_lt hq)).symm
  have hlist : (f q).jobs = q.jobs ++ [s.nextKoid] := congrArg Job.Kin.jobs hf
  have hpar : (f q).parent = q.parent := congrArg Job.Kin.parent hf
  have hstate : (f q).state = q.state := congrArg Job.Kin.state hf
  have hq' : (s.withJob signals j).jobs[p]? = some q := by
    rw [System.withJob, Store.getElem?_insert, if_neg hne]
    exact hq
  have hnew : (s.withJob signals j).jobs[s.nextKoid]? = some j := by
    rw [System.withJob, Store.getElem?_insert, if_pos rfl]
  have hborn : Filed (s.withJob signals j) :=
    h.toFiled.withJob hacc hjobs hprocesses fun a ha => by
      rw [hparent] at ha
      cases ha
      exact ⟨q, hq⟩
  have hfiled : Filed ((s.withJob signals j).modifyJob p f) := by
    refine hborn.relist hq' hpar hstate (fun c hc => ?_) fun x hx => .inl ?_
    · rw [hlist, List.mem_append, List.mem_singleton] at hc
      refine hc.imp id ?_
      rintro rfl
      refine ⟨Nat.lt_succ_self _, fun i hi => ?_⟩
      rw [hnew] at hi
      cases hi
      exact hparent
    · rw [show (f q).processes = q.processes from congrArg Job.Kin.processes hf] at hx
      exact hx
  refine { hfiled with listed := ?_ }
  intro k a b r hb ha hr hready
  obtain ⟨i, hi, hpi, -⟩ := relist_cases hq' hpar hstate hb
  obtain ⟨r', hr', -, hsr, hlists⟩ := relist_cases hq' hpar hstate hr
  -- what the lister lists now includes what it listed before
  have hkeep : k ∈ r'.jobs → k ∈ r.jobs := by
    rcases hlists with rfl | ⟨-, rfl, rfl⟩
    · exact id
    · rw [hlist]
      exact List.mem_append_left _
  rcases withJob_cases hi with ⟨rfl, rfl⟩ | ⟨-, hi⟩
  · have hap : a = p := by
      rw [hpi, hparent] at ha
      exact (Option.some.inj ha).symm
    rcases hlists with rfl | ⟨-, -, rfl⟩
    · have hmod : ((s.withJob signals i).modifyJob p f).jobs[p]? = some (f q) := by
        rw [System.modifyJob, Store.getElem?_modify, if_pos rfl, hq']
        rfl
      rw [hap, hmod] at hr
      cases hr
      rw [hlist]
      exact List.mem_append_right _ (List.mem_singleton_self _)
    · rw [hlist]
      exact List.mem_append_right _ (List.mem_singleton_self _)
  · obtain ⟨x, hx⟩ := Store.contains_iff.1 (hacc.parent hi (hpi ▸ ha))
    rcases withJob_cases hr' with ⟨he, -⟩ | ⟨-, hr'⟩
    · exact absurd he.symm (Nat.ne_of_lt (hacc.job_lt hx))
    · exact hkeep (h.listed hi (hpi ▸ ha) hr' (hsr ▸ hready))

/-- A list of processes that changes keeps the tree, if it only grows by what names the job. -/
theorem relist_processes {k : Koid} {j : Job} {f : Job → Job} {ps : List Koid} (h : JobTree s)
    (hj : s.jobs[k]? = some j) (hf : (f j).kin = { j.kin with processes := ps })
    (hps : ∀ p ∈ ps, p ∈ j.processes ∨
      p < s.nextKoid ∧ ∀ r, s.processes[p]? = some r → r.job = k) : JobTree (s.modifyJob k f) := by
  have hpar : (f j).parent = j.parent := congrArg Job.Kin.parent hf
  have hstate : (f j).state = j.state := congrArg Job.Kin.state hf
  have hjobs : (f j).jobs = j.jobs := congrArg Job.Kin.jobs hf
  have hprocesses : (f j).processes = ps := congrArg Job.Kin.processes hf
  have hfiled : Filed (s.modifyJob k f) :=
    h.toFiled.relist hj hpar hstate (fun c hc => .inl (hjobs ▸ hc))
      fun p hp => hps p (hprocesses ▸ hp)
  refine { hfiled with listed := ?_ }
  intro a p b q hb hp hq hr
  obtain ⟨i, hi, hpi, -⟩ := relist_cases hj hpar hstate hb
  obtain ⟨q', hq', -, hsq, hlists⟩ := relist_cases hj hpar hstate hq
  have hmem := h.listed hi (hpi ▸ hp) hq' (hsq ▸ hr)
  rcases hlists with rfl | ⟨-, rfl, rfl⟩
  · exact hmem
  · rw [hjobs]
    exact hmem

end JobTree

/-! ## 3. The tree through all moves

Declines are settled by one lemma, births by those above. -/

/-- **Births keep the tree in order**, as long as nobody lists a process by hand. -/
theorem Birth.jobTree {C : Prop} {w w' : World} (h : Birth False C w w')
    (hacc : Accounted w.system w.dues) (ht : JobTree w.system) : JobTree w'.system := by
  cases h with
  | job hs hl hq hp =>
    exact ht.job_born hacc hl hq fun p hpar => (hp p hpar).imp fun _ hq => ⟨hq.1, hq.2.1⟩
  | child hs hl hq hp hj hr hh hf => exact ht.child_born hacc hl hq hp hj hf
  | @process s d signals process hj =>
    have hfresh : ∀ {p : Nat} {r : Process}, s.nextKoid ≠ p →
        (s.withProcess signals process).processes[p]? = some r → s.processes[p]? = some r := by
      intro p r hne hr
      have hr := (Store.getElem?_insert s.processes s.nextKoid p process).symm.trans hr
      rwa [if_neg hne] at hr
    exact { ht with
      job := fun hq hp hr => ht.job hq hp (hfresh (ht.ne_nextKoid hq (.inr hp)) hr)
      known := fun hq hc => Nat.lt_succ_of_lt (ht.known hq hc) }
  -- A process is entered into a list: by its creation, so that it names this job, or by hand,
  -- which is ruled out here.
  | @list s d k p j f hj hr hp hf =>
    obtain ⟨q, hq, hqk⟩ := hp.resolve_right id
    refine ht.relist_processes hj hf fun x hx => ?_
    rw [List.mem_append, List.mem_singleton] at hx
    refine hx.imp id ?_
    rintro rfl
    refine ⟨hacc.process_lt hq, fun r hr => ?_⟩
    rw [hq] at hr
    cases hr
    exact hqk
  | unlist hj hf => exact ht.relist_processes hj hf fun x hx => .inl (List.mem_of_mem_erase hx)
  | view | witness => exact ht.congr (Nat.le_succ _) rfl rfl
  | _ => exact ht.congr (Nat.le_refl _) rfl rfl

/-- **In every state that is passed the tree of jobs is in order**, unless a client listed a process
by hand. -/
theorem World.Passed.jobTree {C : Prop} {w : World} (h : Passed False C w) :
    JobTree w.system := by
  refine h.keeps (I := fun w => JobTree w.system) JobTree.initial fun v v' hacc hmove ht => ?_
  rcases hmove with hmove | hmove
  · exact ht.wanes hmove.wanes
  · exact hmove.jobTree hacc ht

end KernelObjects
