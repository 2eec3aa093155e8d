import Mathlib
import KernelObjects.Proofs.KillReach
import KernelObjects.Proofs.Run

/-
# What the lists of children say

A job lists its child jobs and its processes.  A client can list a process by hand, but nobody can
list a job: a job enters one list, that of its parent, when it is created.  So whatever clients
do, a child job that is listed and still there names its lister as parent and has one generation
less below it (`Lineage`).  As long as nobody lists a process by hand, no list names a process
twice either (`ListedOnce`).

The two are kept apart because they hold for different clients and are kept by different steps.
What the lists of jobs say is kept by every single move, so it holds in the midst of walks and
destructions too, and walks rest on it.  That a process is listed once is a matter of stages,
since the process is entered by one move and listed by another.
-/

namespace KernelObjects

/-! ## 1. Lists of child jobs

Lists of jobs are written by creation and destruction only, so nothing has to be asked of
clients. -/

/-- What the lists of child jobs say is true.  Nobody can write into them by hand. -/
structure Lineage (s : System) : Prop where
  nodup : ∀ {k : Nat} {q : Job}, s.jobs[k]? = some q → q.jobs.Nodup
  known : ∀ {k c : Nat} {q : Job}, s.jobs[k]? = some q → c ∈ q.jobs → c < s.nextKoid
  child : ∀ {k c : Nat} {q j : Job}, s.jobs[k]? = some q → c ∈ q.jobs → s.jobs[c]? = some j →
    j.parent = some k ∧ q.maxHeight = j.maxHeight + 1

namespace Lineage

variable {s t : System} {d : List Task}

/-- At first there is no job. -/
theorem initial : Lineage .initial where
  nodup h := by simp [System.initial] at h
  known h := by simp [System.initial] at h
  child h := by simp [System.initial] at h

/-- What takes away only leaves the lineage: parents and heights of jobs stay as they are. -/
theorem wanes {K P : Koid → Prop} (h : Lineage s) (hw : Wanes K P s t) : Lineage t where
  nodup hq := by
    obtain ⟨a, ha, hab⟩ := hw.job hq
    exact (h.nodup ha).sublist hab.jobs
  known hq hc := by
    obtain ⟨a, ha, hab⟩ := hw.job hq
    exact Nat.lt_of_lt_of_le (h.known ha (hab.jobs.subset hc)) hw.nextKoid
  child hq hc hj := by
    obtain ⟨a, ha, hab⟩ := hw.job hq
    obtain ⟨i, hi, hij⟩ := hw.job hj
    have hold := h.child ha (hab.jobs.subset hc) hi
    exact ⟨hij.parent.trans hold.1, hab.maxHeight.trans (hold.2.trans (congrArg (· + 1)
      hij.maxHeight.symm))⟩

theorem congr (h : Lineage s) (hn : s.nextKoid ≤ t.nextKoid) (hj : t.jobs = s.jobs) :
    Lineage t where
  nodup hq := h.nodup (hj ▸ hq)
  known hq hc := Nat.lt_of_lt_of_le (h.known (hj ▸ hq) hc) hn
  child hq hc hi := h.child (hj ▸ hq) hc (hj ▸ hi)

/-- A change of a job that its children do not show. -/
theorem modifyJob {k : Koid} {j : Job} {f : Job → Job} (h : Lineage s) (hj : s.jobs[k]? = some j)
    (hparent : (f j).parent = j.parent) (hheight : (f j).maxHeight = j.maxHeight)
    (hjobs : (f j).jobs = j.jobs) : Lineage (s.modifyJob k f) := by
  -- Read backwards: each job of now was there, with the parent, the height and the list that it
  -- has now.
  have hold : ∀ {a : Nat} {b : Job}, (s.modifyJob k f).jobs[a]? = some b →
      ∃ i, s.jobs[a]? = some i ∧ b.parent = i.parent ∧ b.maxHeight = i.maxHeight ∧
        b.jobs = i.jobs := by
    intro a b hb
    have hb := (Store.getElem?_modify s.jobs k a f).symm.trans hb
    split at hb
    · rename_i he
      rw [← he, hj] at hb
      cases hb
      exact ⟨j, he ▸ hj, hparent, hheight, hjobs⟩
    · exact ⟨b, hb, rfl, rfl, rfl⟩
  constructor
  case nodup =>
    intro a q hq
    obtain ⟨i, hi, -, -, hlist⟩ := hold hq
    exact hlist ▸ h.nodup hi
  case known =>
    intro a c q hq hc
    obtain ⟨i, hi, -, -, hlist⟩ := hold hq
    exact h.known hi (hlist ▸ hc)
  case child =>
    intro a c q b hq hc hb
    obtain ⟨i, hi, -, hh, hlist⟩ := hold hq
    obtain ⟨x, hx, hpar, hx', -⟩ := hold hb
    rw [hpar, hh, hx']
    exact h.child hi (hlist ▸ hc) hx

/-- A new job lists nothing, and nobody lists it yet. -/
theorem withJob {signals : Signals} {j : Job} (h : Lineage s) (hjobs : j.jobs = []) :
    Lineage (s.withJob signals j) where
  nodup hq := by
    rcases Filed.withJob_cases hq with ⟨-, rfl⟩ | ⟨-, hq⟩
    · rw [hjobs]
      exact List.nodup_nil
    · exact h.nodup hq
  known hq hc := by
    rcases Filed.withJob_cases hq with ⟨-, rfl⟩ | ⟨-, hq⟩
    · rw [hjobs] at hc
      cases hc
    · exact Nat.lt_succ_of_lt (h.known hq hc)
  child hq hc hb := by
    rcases Filed.withJob_cases hq with ⟨-, rfl⟩ | ⟨-, hq⟩
    · rw [hjobs] at hc
      cases hc
    · rcases Filed.withJob_cases hb with ⟨he, -⟩ | ⟨-, hb⟩
      · exact absurd he (Nat.ne_of_lt (h.known hq hc)).symm
      · exact h.child hq hc hb

/-- A new job that its parent lists at once. -/
theorem child_born {signals : Signals} {j q : Job} {p : Koid} {f : Job → Job} (h : Lineage s)
    (hacc : Accounted s d) (hjobs : j.jobs = []) (hparent : j.parent = some p)
    (hq : s.jobs[p]? = some q) (hh : q.maxHeight = j.maxHeight + 1)
    (hf : (f q).kin = { q.kin with jobs := q.jobs ++ [s.nextKoid] }) :
    Lineage ((s.withJob signals j).modifyJob p f) := by
  have hne : s.nextKoid ≠ p := (Nat.ne_of_lt (hacc.job_lt hq)).symm
  have hlist : (f q).jobs = q.jobs ++ [s.nextKoid] := congrArg Job.Kin.jobs hf
  have hpar : (f q).parent = q.parent := congrArg Job.Kin.parent hf
  have hheight : (f q).maxHeight = q.maxHeight := congrArg Job.Kin.maxHeight hf
  have hnew : (s.withJob signals j).jobs[s.nextKoid]? = some j := by
    rw [System.withJob, Store.getElem?_insert, if_pos rfl]
  have hborn : Lineage (s.withJob signals j) := h.withJob hjobs
  -- a record afterwards is one before, and only the list of the parent got longer
  have hold : ∀ {a : Nat} {b : Job}, ((s.withJob signals j).modifyJob p f).jobs[a]? = some b →
      ∃ i, (s.withJob signals j).jobs[a]? = some i ∧ b.parent = i.parent ∧
        b.maxHeight = i.maxHeight ∧
        (b.jobs = i.jobs ∨ a = p ∧ i = q ∧ b.jobs = q.jobs ++ [s.nextKoid]) := by
    intro a b hb
    have hb := (Store.getElem?_modify _ p a f).symm.trans hb
    split at hb
    · rename_i he
      subst he
      rw [System.withJob, Store.getElem?_insert, if_neg hne, hq] at hb
      cases hb
      refine ⟨q, ?_, hpar, hheight, .inr ⟨rfl, rfl, hlist⟩⟩
      rw [System.withJob, Store.getElem?_insert, if_neg hne]
      exact hq
    · exact ⟨b, hb, rfl, rfl, .inl rfl⟩
  constructor
  case nodup =>
    intro a b hb
    obtain ⟨i, hi, -, -, he | ⟨-, -, he⟩⟩ := hold hb
    · exact he ▸ hborn.nodup hi
    · rw [he, List.nodup_append]
      refine ⟨h.nodup hq, List.nodup_singleton _, fun x hx y hy => ?_⟩
      rw [List.mem_singleton.1 hy]
      exact Nat.ne_of_lt (h.known hq hx)
  case known =>
    intro a c b hb hc
    obtain ⟨i, hi, -, -, he | ⟨-, -, he⟩⟩ := hold hb
    · exact hborn.known hi (he ▸ hc)
    · rw [he, List.mem_append, List.mem_singleton] at hc
      rcases hc with hc | rfl
      · exact Nat.lt_succ_of_lt (h.known hq hc)
      · exact Nat.lt_succ_self _
  case child =>
    intro a c b x hb hc hx
    obtain ⟨i, hi, -, hhi, hlists⟩ := hold hb
    obtain ⟨y, hy, hpy, hhy, -⟩ := hold hx
    rw [hpy, hhi, hhy]
    rcases hlists with he | ⟨rfl, rfl, he⟩
    · exact hborn.child hi (he ▸ hc) hy
    · rw [he, List.mem_append, List.mem_singleton] at hc
      rcases hc with hc | rfl
      · exact hborn.child hi hc hy
      · rw [hnew] at hy
        cases hy
        exact ⟨hparent, hh⟩

end Lineage

/-- A job is born below its parent by one, with an identity that nothing has. -/
theorem Birth.lineage {A C : Prop} {w w' : World} (h : Birth A C w w')
    (hacc : Accounted w.system w.dues) (hl : Lineage w.system) : Lineage w'.system := by
  cases h with
  | job hs hjobs hq hp => exact hl.withJob hjobs
  | child hs hjobs hq hp hj hr hh hf => exact hl.child_born hacc hjobs hp hj hh hf
  | list hj hr hp hf | unlist hj hf =>
    exact hl.modifyJob hj (congrArg Job.Kin.parent hf) (congrArg Job.Kin.maxHeight hf)
      (congrArg Job.Kin.jobs hf)
  | process | view | witness => exact hl.congr (Nat.le_succ _) rfl
  | _ => exact hl.congr (Nat.le_refl _) rfl

/-- **In every state that is passed the lists of child jobs are true**, whatever clients do. -/
theorem World.Passed.lineage {A C : Prop} {w : World} (h : Passed A C w) : Lineage w.system := by
  refine h.keeps (I := fun w => Lineage w.system) Lineage.initial fun v v' hacc hmove hl => ?_
  rcases hmove with hmove | hmove
  · exact hl.wanes hmove.wanes
  · exact hmove.lineage hacc hl

/-! ## 2. Lists of processes

Lists of processes can be written by hand, so no list names a process twice only if nobody
does. -/

/-- No list names a process twice, nor one that was not handed out. -/
structure ListedOnce (s : System) : Prop where
  nodup : ∀ {k : Nat} {q : Job}, s.jobs[k]? = some q → q.processes.Nodup
  known : ∀ {k p : Nat} {q : Job}, s.jobs[k]? = some q → p ∈ q.processes → p < s.nextKoid

namespace ListedOnce

variable {s t : System} {d : List Task}

theorem initial : ListedOnce .initial where
  nodup h := by simp [System.initial] at h
  known h := by simp [System.initial] at h

/-- Lists that get shorter list nothing twice. -/
theorem wanes {K P : Koid → Prop} (h : ListedOnce s) (hw : Wanes K P s t) : ListedOnce t where
  nodup hq := by
    obtain ⟨a, ha, hab⟩ := hw.job hq
    exact (h.nodup ha).sublist hab.processes
  known hq hp := by
    obtain ⟨a, ha, hab⟩ := hw.job hq
    exact Nat.lt_of_lt_of_le (h.known ha (hab.processes.subset hp)) hw.nextKoid

theorem declines {w w' : World} (h : ListedOnce w.system)
    (hd : Declines (fun _ => True) (fun _ => True) w w') : ListedOnce w'.system := h.wanes hd.wanes

theorem still (h : ListedOnce s) (hs : Still s t) : ListedOnce t :=
  h.wanes (Wanes.of_inert (K := fun _ => True) (P := fun _ => True) hs.toInert)

theorem congr (h : ListedOnce s) (hn : s.nextKoid ≤ t.nextKoid) (hj : t.jobs = s.jobs) :
    ListedOnce t where
  nodup hq := h.nodup (hj ▸ hq)
  known hq hp := Nat.lt_of_lt_of_le (h.known (hj ▸ hq) hp) hn

/-- A new job lists nothing. -/
theorem withJob {signals : Signals} {j : Job} (h : ListedOnce s) (hprocesses : j.processes = []) :
    ListedOnce (s.withJob signals j) where
  nodup hq := by
    rcases Filed.withJob_cases hq with ⟨-, rfl⟩ | ⟨-, hq⟩
    · rw [hprocesses]
      exact List.nodup_nil
    · exact h.nodup hq
  known hq hp := by
    rcases Filed.withJob_cases hq with ⟨-, rfl⟩ | ⟨-, hq⟩
    · rw [hprocesses] at hp
      cases hp
    · exact Nat.lt_succ_of_lt (h.known hq hp)

/-- The list of a job may become any list of the kind. -/
theorem modifyJob {k : Koid} {f : Job → Job} (h : ListedOnce s)
    (hf : ∀ j, s.jobs[k]? = some j →
      (f j).processes.Nodup ∧ ∀ p ∈ (f j).processes, p < s.nextKoid) :
    ListedOnce (s.modifyJob k f) := by
  have hlists : ∀ {a : Nat} {b : Job}, (s.modifyJob k f).jobs[a]? = some b →
      b.processes.Nodup ∧ ∀ p ∈ b.processes, p < s.nextKoid := by
    intro a b hb
    have hb := (Store.getElem?_modify s.jobs k a f).symm.trans hb
    split at hb
    · rename_i he
      subst he
      obtain ⟨j, hj, rfl⟩ := Option.map_eq_some_iff.1 hb
      exact hf j hj
    · exact ⟨h.nodup hb, fun p => h.known hb⟩
  exact ⟨fun hq => (hlists hq).1, fun hq => (hlists hq).2 _⟩

end ListedOnce

/-- Identities are handed out in order. -/
theorem Birth.nextKoid_le {A C : Prop} {w w' : World} (h : Birth A C w w') :
    w.system.nextKoid ≤ w'.system.nextKoid := by
  cases h with
  | job | child | process | view | witness => exact Nat.le_succ _
  | _ => exact Nat.le_refl _

/-- **Every stage leaves the lists of processes in order**, unless a process is listed by hand. -/
theorem Stage.listedOnce {L : Liberties} {w w' : World} (h : Stage L w w') (hA : ¬ L.attaches)
    (hacc : Accounted w.system w.dues) (hl : ListedOnce w.system) : ListedOnce w'.system := by
  -- Lists get longer where a process is created and where one is listed by hand.  The first is
  -- younger than all on the list, the second is ruled out by `hA`.
  cases h with
  | still h => exact hl.still h
  | @drop s d t => exact hl.declines (s.settle_declines [t] d)
  | beside h hj _ _ => exact hl.congr (h True True).nextKoid_le hj
  | root _ _ hq _ => exact hl.withJob hq
  | @child s d signals job p q f _ _ hq _ hj _ _ hf =>
    refine (hl.withJob hq).modifyJob fun j hj' => ?_
    rcases Filed.withJob_cases hj' with ⟨he, -⟩ | ⟨-, hj'⟩
    · exact absurd he.symm (Nat.ne_of_lt (hacc.job_lt hj))
    rw [hj] at hj'
    cases hj'
    rw [show (f q).processes = q.processes from congrArg Job.Kin.processes hf]
    exact ⟨hl.nodup hj, fun x hx => Nat.lt_succ_of_lt (hl.known hj hx)⟩
  | @refusedJob s t d signals job p q _ _ hq _ _ _ _ ht =>
    exact ((hl.withJob hq).still ht).declines (t.settle_declines [.release (.object s.nextKoid)] d)
  | @process s d signals process q f _ hj _ hf =>
    have hborn : ListedOnce (s.withProcess signals process) := hl.congr (Nat.le_succ _) rfl
    refine hborn.modifyJob fun j hj' => ?_
    have hj' : s.jobs[process.job]? = some j := hj'
    rw [hj] at hj'
    cases hj'
    rw [show (f q).processes = q.processes ++ [s.nextKoid] from congrArg Job.Kin.processes hf]
    refine ⟨List.nodup_append.2 ⟨hl.nodup hj, List.nodup_singleton _, fun x hx y hy => ?_⟩,
      fun x hx => ?_⟩
    · rw [List.mem_singleton.1 hy]
      exact Nat.ne_of_lt (hl.known hj hx)
    · rw [List.mem_append, List.mem_singleton] at hx
      rcases hx with hx | rfl
      · exact Nat.lt_succ_of_lt (hl.known hj hx)
      · exact Nat.lt_succ_self _
  | @refusedProcess s t d signals process _ ht =>
    have hborn : ListedOnce (s.withProcess signals process) := hl.congr (Nat.le_succ _) rfl
    exact (hborn.still ht).declines (t.settle_declines [.release (.object s.nextKoid)] d)
  | @clear s d t => exact hl.declines (s.tableClear_declines t d)
  | @condemn s d k j code hj hr => exact hl.declines (System.commitKill_declines hj hr trivial d)
  | @kill s d code k => exact hl.declines (s.killProcess_declines code trivial d)
  | tell _ => exact hl.wanes (Wanes.of_inert (K := fun _ => True) (P := fun _ => True)
      (System.inert_zeroHandles _ _))
  | attach hL => exact absurd hL hA
  | @detach s d hL k p =>
    unfold System.detachProcess
    split
    · exact hl
    · rename_i j hj
      split
      · refine ListedOnce.declines ?_ (System.childLeft_declines _ k d)
        refine hl.modifyJob fun i hi => ?_
        exact ⟨(hl.nodup hi).erase _, fun x hx => hl.known hi (List.mem_of_mem_erase hx)⟩
      · exact hl
  | _ => exact hl.congr (Nat.le_refl _) rfl

/-- **No list names a process twice**, as long as nobody lists a process by hand. -/
theorem World.Ran.listedOnce {w : World} (h : w.Ran fun _ op => ¬ op.Attaches) :
    ListedOnce w.system := by
  refine h.keeps (I := fun w => ListedOnce w.system) ListedOnce.initial (fun _ _ _ _ hl => hl) ?_
  intro s op v v' hop hpassed hstage hl
  refine hstage.listedOnce (fun hL => hop ?_) hpassed.accounted hl
  unfold Op.liberties at hL
  split at hL <;> first | exact hL.elim | trivial

end KernelObjects
