import KernelObjects.Proofs.Weight
import KernelObjects.Proofs.Decline

/-
# Nothing comes back

Seen from the tree of jobs, a decline only takes away: jobs and processes go, lists get shorter, a
job that is not ready never gets ready again and a dead process never runs again.  `Wanes` is this
one-way relation between an earlier and a later state.  It is a preorder and every decline is
inside it, so it relates the two ends of every kill.

The relation also says what is *not* taken away.  A process that runs at the end stays on every
list that it was on, and so does a job that is still there: lists lose only what has died or is
gone.  Without this half the relation would hold between a state and any smaller one, and a walk
that goes down the lists of the later state could miss somebody.

The number of ready jobs is the first thing to read off: it never grows.  That bounds the walk of
a kill, which condemns a ready job with each job that it enters.
-/

namespace KernelObjects

/-! ## 1. The relation -/

/-- What a job that stays may become; it can stop being ready only if `K` holds. -/
structure Job.Kin.Wanes (K : Prop) (a b : Job.Kin) : Prop where
  parent : b.parent = a.parent
  maxHeight : b.maxHeight = a.maxHeight
  ready : b.state = .ready → a.state = .ready
  stays : ¬ K → a.state = .ready → b.state = .ready
  jobs : b.jobs.Sublist a.jobs
  processes : b.processes.Sublist a.processes

/-- What a process that stays may become; it can end only if `P` holds. -/
structure Process.Kin.Wanes (P : Prop) (a b : Process.Kin) : Prop where
  job : b.job = a.job
  running : b.state = .running → a.state = .running
  stays : ¬ P → a.state = .running → b.state = .running

/-- `Wanes K P s t`: in `t` there is nothing that was not in `s`, only jobs of `K` stopped being
ready, and only processes of `P` ended.  A job that is still there is still listed, and so is a
process that still runs. -/
structure Wanes (K P : Koid → Prop) (s t : System) : Prop where
  nextKoid : s.nextKoid ≤ t.nextKoid
  job : ∀ {k : Nat} {b : Job}, t.jobs[k]? = some b →
    ∃ a, s.jobs[k]? = some a ∧ a.kin.Wanes (K k) b.kin
  process : ∀ {p : Nat} {b : Process}, t.processes[p]? = some b →
    ∃ a, s.processes[p]? = some a ∧ a.kin.Wanes (P p) b.kin
  listed : ∀ {k p : Nat} {a b : Job} {q : Process}, s.jobs[k]? = some a → t.jobs[k]? = some b →
    p ∈ a.processes → t.processes[p]? = some q → q.state = .running → p ∈ b.processes
  child : ∀ {k c : Nat} {a b j : Job}, s.jobs[k]? = some a → t.jobs[k]? = some b →
    c ∈ a.jobs → t.jobs[c]? = some j → c ∈ b.jobs

theorem Job.Kin.Wanes.refl (X : Prop) (a : Job.Kin) : a.Wanes X a :=
  ⟨rfl, rfl, id, fun _ h => h, .refl _, .refl _⟩

theorem Job.Kin.Wanes.trans {X : Prop} {a b c : Job.Kin} (h : a.Wanes X b) (h' : b.Wanes X c) :
    a.Wanes X c where
  parent := h'.parent.trans h.parent
  maxHeight := h'.maxHeight.trans h.maxHeight
  ready hc := h.ready (h'.ready hc)
  stays hx ha := h'.stays hx (h.stays hx ha)
  jobs := h'.jobs.trans h.jobs
  processes := h'.processes.trans h.processes

theorem Process.Kin.Wanes.refl (X : Prop) (a : Process.Kin) : a.Wanes X a :=
  ⟨rfl, id, fun _ h => h⟩

theorem Process.Kin.Wanes.trans {X : Prop} {a b c : Process.Kin} (h : a.Wanes X b)
    (h' : b.Wanes X c) : a.Wanes X c where
  job := h'.job.trans h.job
  running hc := h.running (h'.running hc)
  stays hx ha := h'.stays hx (h.stays hx ha)

/-- Two look-ups that agree in what is read of a record find records that agree in it. -/
theorem exists_of_map_eq {α β : Type} {f : α → β} {x y : Option α} (h : y.map f = x.map f)
    {b : α} (hb : y = some b) : ∃ a, x = some a ∧ f a = f b := by
  subst hb
  cases x with
  | none => cases h
  | some a => exact ⟨a, rfl, (Option.some.inj h).symm⟩

namespace Wanes

variable {K P : Koid → Prop} {s t u : System}

/-- Nothing at all is taken away. -/
theorem refl (s : System) : Wanes K P s s where
  nextKoid := Nat.le_refl _
  job hb := ⟨_, hb, .refl _ _⟩
  process hb := ⟨_, hb, .refl _ _⟩
  listed ha hb hp _ _ := by
    rw [ha] at hb
    cases hb
    exact hp
  child ha hb hc _ := by
    rw [ha] at hb
    cases hb
    exact hc

/-- What was taken away does not come back later. -/
theorem trans (h : Wanes K P s t) (h' : Wanes K P t u) : Wanes K P s u where
  nextKoid := Nat.le_trans h.nextKoid h'.nextKoid
  job hc := by
    obtain ⟨b, hb, hbc⟩ := h'.job hc
    obtain ⟨a, ha, hab⟩ := h.job hb
    exact ⟨a, ha, hab.trans hbc⟩
  process hc := by
    obtain ⟨b, hb, hbc⟩ := h'.process hc
    obtain ⟨a, ha, hab⟩ := h.process hb
    exact ⟨a, ha, hab.trans hbc⟩
  listed ha hc hp hq hrun := by
    obtain ⟨b, hb, -⟩ := h'.job hc
    obtain ⟨q', hq', hqq⟩ := h'.process hq
    exact h'.listed hb hc (h.listed ha hb hp hq' (hqq.running hrun)) hq hrun
  child ha hc hl hj := by
    obtain ⟨b, hb, -⟩ := h'.job hc
    obtain ⟨i, hi, -⟩ := h'.job hj
    exact h'.child hb hc (h.child ha hb hl hi) hj

/-! ## 2. Every decline is inside the relation

Only two kinds of change write to jobs and processes that stay: a job fades and a process ends.
All else takes a record out of the tree or leaves the tree alone. -/

/-- Nothing changed that the relation looks at. -/
theorem of_same (hn : s.nextKoid ≤ t.nextKoid) (hj : t.jobs = s.jobs)
    (hp : t.processes = s.processes) : Wanes K P s t where
  nextKoid := hn
  job hb := ⟨_, hj ▸ hb, .refl _ _⟩
  process hb := ⟨_, hp ▸ hb, .refl _ _⟩
  listed ha hb hp _ _ := by
    rw [hj, ha] at hb
    cases hb
    exact hp
  child ha hb hc _ := by
    rw [hj, ha] at hb
    cases hb
    exact hc

/-- What is inert takes nothing away from the tree. -/
theorem of_inert (h : Inert s t) : Wanes K P s t where
  nextKoid := h.nextKoid
  job hb := by
    obtain ⟨a, ha, he⟩ := exists_of_map_eq (h.job _) hb
    exact ⟨a, ha, he ▸ .refl _ _⟩
  process hb := by
    obtain ⟨a, ha, he⟩ := exists_of_map_eq (h.process _) hb
    exact ⟨a, ha, he ▸ .refl _ _⟩
  listed := by
    intro k p a b q ha hb hp _ _
    obtain ⟨a', ha', he⟩ := exists_of_map_eq (h.job _) hb
    rw [ha] at ha'
    cases ha'
    show p ∈ b.kin.processes
    rw [← he]
    exact hp
  child := by
    intro k c a b j ha hb hc _
    obtain ⟨a', ha', he⟩ := exists_of_map_eq (h.job _) hb
    rw [ha] at ha'
    cases ha'
    show c ∈ b.kin.jobs
    rw [← he]
    exact hc

/-- A job goes with its record; that it is still on lists is no matter here. -/
theorem of_erase_job (k : Koid) (hn : s.nextKoid ≤ t.nextKoid) (hj : t.jobs = s.jobs.erase k)
    (hp : t.processes = s.processes) : Wanes K P s t where
  nextKoid := hn
  job hb := by
    rw [hj, Store.getElem?_erase] at hb
    split at hb
    · cases hb
    · exact ⟨_, hb, .refl _ _⟩
  process hb := ⟨_, hp ▸ hb, .refl _ _⟩
  listed ha hb hp _ _ := by
    rw [hj, Store.getElem?_erase] at hb
    split at hb
    · cases hb
    · rw [ha] at hb
      cases hb
      exact hp
  child ha hb hc _ := by
    rw [hj, Store.getElem?_erase] at hb
    split at hb
    · cases hb
    · rw [ha] at hb
      cases hb
      exact hc

/-- A process goes with its record. -/
theorem of_erase_process (k : Koid) (hn : s.nextKoid ≤ t.nextKoid) (hj : t.jobs = s.jobs)
    (hp : t.processes = s.processes.erase k) : Wanes K P s t where
  nextKoid := hn
  job hb := ⟨_, hj ▸ hb, .refl _ _⟩
  process hb := by
    rw [hp, Store.getElem?_erase] at hb
    split at hb
    · cases hb
    · exact ⟨_, hb, .refl _ _⟩
  listed ha hb hp _ _ := by
    rw [hj, ha] at hb
    cases hb
    exact hp
  child ha hb hc _ := by
    rw [hj, ha] at hb
    cases hb
    exact hc

/-- **A job fades**: it stops being ready, gets dead, or takes off its lists what is not there to be
listed.  The last two fields need this, and no more than this. -/
theorem of_fades {k : Koid} {j : Job} {f : Job → Job} (hj : s.jobs[k]? = some j)
    (h : Job.Fades s K k j.kin (f j).kin) : Wanes K P s (s.modifyJob k f) := by
  have hkin : j.kin.Wanes (K k) (f j).kin := by
    cases hb : (f j).kin
    rw [hb] at h
    cases h with
    | condemned hk ha => exact ⟨rfl, rfl, by simp, fun hn => absurd hk hn, .refl _, .refl _⟩
    | buried ha =>
      refine ⟨rfl, rfl, by simp, fun _ hr => ?_, .refl _, .refl _⟩
      rw [ha] at hr
      cases hr
    | jobGone hc => exact ⟨rfl, rfl, id, fun _ h => h, List.erase_sublist, .refl _⟩
    | processGone hp => exact ⟨rfl, rfl, id, fun _ h => h, .refl _, List.erase_sublist⟩
  have hget : ∀ {a : Nat} {b : Job}, (s.modifyJob k f).jobs[a]? = some b →
      s.jobs[a]? = some b ∧ a ≠ k ∨ a = k ∧ b = f j := by
    intro a b hb
    rw [System.modifyJob, Store.getElem?_modify] at hb
    split at hb
    · subst_vars
      rw [hj] at hb
      cases hb
      exact .inr ⟨rfl, rfl⟩
    · rename_i hne
      exact .inl ⟨hb, fun h => hne h.symm⟩
  constructor
  case nextKoid => exact Nat.le_refl _
  case job =>
    intro a b hb
    obtain ⟨hb, -⟩ | ⟨rfl, rfl⟩ := hget hb
    · exact ⟨b, hb, .refl _ _⟩
    · exact ⟨j, hj, hkin⟩
  case process => exact fun hb => ⟨_, hb, .refl _ _⟩
  case listed =>
    intro a p ja jb q ha hb hp hq hrun
    obtain ⟨hb, -⟩ | ⟨rfl, rfl⟩ := hget hb
    · rw [ha] at hb
      cases hb
      exact hp
    · rw [hj] at ha
      cases ha
      -- only a process that does not run is taken off a list
      show p ∈ (f j).kin.processes
      cases hb : (f j).kin
      rw [hb] at h
      cases h with
      | condemned hk ha => exact hp
      | buried ha => exact hp
      | jobGone hc => exact hp
      | @processGone p' hp' =>
        refine (List.mem_erase_of_ne fun he => ?_).2 hp
        subst he
        rw [hp' q hq] at hrun
        cases hrun
  case child =>
    intro a c ja jb i ha hb hl hi
    obtain ⟨hb, -⟩ | ⟨rfl, rfl⟩ := hget hb
    · rw [ha] at hb
      cases hb
      exact hl
    · rw [hj] at ha
      cases ha
      -- only a job that is gone is taken off a list
      show c ∈ (f j).kin.jobs
      cases hb : (f j).kin
      rw [hb] at h
      cases h with
      | condemned hk ha => exact hl
      | buried ha => exact hl
      | processGone hp => exact hl
      | @jobGone c' hc' =>
        refine (List.mem_erase_of_ne fun he => ?_).2 hl
        subst he
        obtain ⟨hi, -⟩ | ⟨rfl, -⟩ := hget hi
        · rw [hc'] at hi
          cases hi
        · rw [hj] at hc'
          cases hc'

/-- A process ends, and stays on the list of its job until the job is told. -/
theorem of_ends {k : Koid} {p : Process} {f : Process → Process}
    (hp : s.processes[k]? = some p) (hk : P k) (h : (f p).kin = { p.kin with state := .dead }) :
    Wanes K P s (s.modifyProcess k f) where
  nextKoid := Nat.le_refl _
  job hb := ⟨_, hb, .refl _ _⟩
  process := by
    intro a b hb
    rw [System.modifyProcess, Store.getElem?_modify] at hb
    split at hb
    · subst_vars
      rw [hp] at hb
      cases hb
      refine ⟨p, hp, ?_⟩
      rw [h]
      exact ⟨rfl, by simp, fun hn => absurd hk hn⟩
    · exact ⟨b, hb, .refl _ _⟩
  listed ha hb hp _ _ := by
    rw [show (s.modifyProcess k f).jobs = s.jobs from rfl, ha] at hb
    cases hb
    exact hp
  child ha hb hc _ := by
    rw [show (s.modifyProcess k f).jobs = s.jobs from rfl, ha] at hb
    cases hb
    exact hc

end Wanes

/-- **Every step of a decline is inside the relation.** -/
theorem Decline.wanes {K P : Koid → Prop} {w w' : World} (h : Decline K P w w') :
    Wanes K P w.system w'.system := by
  cases h with
  | inert h => exact .of_inert h
  | fades hj h => exact .of_fades hj h
  | ends hp hk h => exact .of_ends hp hk h
  | job _ _ => exact .of_erase_job _ (Nat.le_refl _) rfl rfl
  | process _ _ _ => exact .of_erase_process _ (Nat.le_refl _) rfl rfl
  | @vmo s d v o _ _ =>
    obtain ⟨families, he, -⟩ := s.withoutVmo_eq v o
    rw [he]
    exact .of_same (Nat.le_refl _) rfl rfl
  | _ => exact .of_same (Nat.le_refl _) rfl rfl

/-- So is a whole decline. -/
theorem Declines.wanes {K P : Koid → Prop} {w w' : World} (h : Declines K P w w') :
    Wanes K P w.system w'.system := by
  induction h with
  | refl => exact .refl _
  | tail _ hstep ih => exact ih.trans hstep.wanes

end KernelObjects
