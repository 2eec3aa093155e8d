import Mathlib
import KernelObjects.Proofs.Levels

/-
# What a walk visits while the tree changes

A visitor may do whatever a client can do: create and kill, drop references, start walks of its
own.  The walk does not lose its place.  `Agenda` says what its calls are: at first the agenda
holds what the start job shows, each call visits what comes next, and after a job its level goes
in front, as it is at that moment.  So each level that a walk enters is visited just as it was
when the walk reached it, also if something of it was killed, taken off its list or given up by
everybody else in the meantime (`Ran.walk_sound`).

**Why the visited things are there.**  A level is held until it was visited.  What is there under
its identity is still a thing of the same kind, since identities are not used again (`Steady`).

**Why nothing comes twice.**  A child belongs to one job for good, and a level shows a child
once.  So a child that came twice would belong to a job that was reached twice, which is the
start, older than everything below it, or came twice itself.

The second argument needs the levels in their order.  Each is reached in a state that operations
lead to from the state of the one before (`Guides.levels_steady`), so homes of children can be
compared between any two of them, though no state on the way shows both levels.

It is here that listing by hand matters.  A process that a client lists in two jobs is shown by
the levels of both, and the walk visits it twice.
-/

namespace KernelObjects

/-! ## 1. Agendas

What is still to be visited stands in a list, and the walk takes its head.  An agenda is given by
the calls that were made, so it can be read in both directions: which calls a walk makes, and what
it has visited if these were its calls. -/

/-- The identity of what is visited. -/
def Visit.koid : Visit → Koid
  | job k => k
  | process k => k

namespace System

/-- What the level below a job shows: its live processes, then its live child jobs. -/
def shown (s : System) (k : Koid) : List Visit :=
  (s.liveChildren k).processes.map .process ++ (s.liveChildren k).jobs.map .job

/-- Whether something is there, as what it is visited as. -/
def Finds (s : System) : Visit → Prop
  | .job k => s.jobs.contains k
  | .process p => s.processes.contains p

/-- Whether something was there once, in a state that this one has come from. -/
def Knew (s : System) (v : Visit) : Prop := ∃ t d, Accounted t d ∧ Steady t s ∧ t.Finds v

variable {s t : System} {v : Visit}

/-- What a level shows are its processes, -/
@[simp] theorem process_mem_shown {k p : Koid} :
    .process p ∈ s.shown k ↔ p ∈ (s.liveChildren k).processes := by
  simp [shown]

/-- and then its jobs. -/
@[simp] theorem job_mem_shown {k c : Koid} :
    .job c ∈ s.shown k ↔ c ∈ (s.liveChildren k).jobs := by
  simp [shown]

/-- What is shown is there. -/
theorem finds_of_mem_shown {k : Koid} (h : v ∈ s.shown k) : s.Finds v := by
  cases v with
  | process p =>
    obtain ⟨-, r, -, -, hr⟩ := mem_liveChildren_processes.1 (process_mem_shown.1 h)
    exact Store.contains_iff.2 ⟨r, hr⟩
  | job c =>
    obtain ⟨-, j, -, -, hj⟩ := mem_liveChildren_jobs.1 (job_mem_shown.1 h)
    exact Store.contains_iff.2 ⟨j, hj⟩

/-- What is held under an identity is still what it was. -/
theorem Knew.finds (h : s.Knew v) (hp : s.Present (.object v.koid)) : s.Finds v := by
  obtain ⟨t, d, hacc, hsteady, hv⟩ := h
  cases v with
  | job k =>
    obtain ⟨j, hj⟩ := Store.contains_iff.1 hv
    exact hsteady.job_of_present hacc hj hp
  | process p =>
    obtain ⟨r, hr⟩ := Store.contains_iff.1 hv
    exact hsteady.process_of_present hacc hr hp

end System

/-- What was once there is not forgotten. -/
theorem Steady.knew {s t : System} {v : Visit} (h : Steady s t) (hv : s.Knew v) : t.Knew v := by
  obtain ⟨u, d, hacc, hsteady, hu⟩ := hv
  exact ⟨u, d, hacc, hsteady.trans h, hu⟩

/-- **The calls of a walk**, given what it still has to visit, next things first, and how the walk
ends.  After a job its level goes in front, as it is after the call, unless the walk is not deep. -/
inductive Agenda (refuses : Allocator) (deep : Bool) :
    List Visit → List Call → WalkEnd → Prop
  | done : Agenda refuses deep [] [] .finished
  | stop {c : Call} {vs : List Visit} (h : c.goesOn = false) :
      Agenda refuses deep (c.visit :: vs) [c] .stopped
  | pass {c : Call} {vs : List Visit} {cs : List Call} {e : WalkEnd} (h : c.goesOn = true)
      (hp : ∀ j, c.visit = .job j → deep = false) (further : Agenda refuses deep vs cs e) :
      Agenda refuses deep (c.visit :: vs) (c :: cs) e
  | refuse {c : Call} {j : Koid} {vs : List Visit} {asked : List SnapshotRequest}
      (h : c.goesOn = true) (hj : c.visit = .job j) (hd : deep = true)
      (hr : refuses asked (c.after.snapshotRequest j) = true) :
      Agenda refuses deep (c.visit :: vs) [c] .refused
  | enter {c : Call} {j : Koid} {vs : List Visit} {cs : List Call} {e : WalkEnd}
      (h : c.goesOn = true) (hj : c.visit = .job j) (hd : deep = true)
      (further : Agenda refuses deep (c.after.shown j ++ vs) cs e) :
      Agenda refuses deep (c.visit :: vs) (c :: cs) e

/-- The level that a call opens, with the state in which it is reached. -/
def Call.level (deep : Bool) (c : Call) : Option (System × Koid) :=
  match c.visit with
  | .job j => if deep then some (c.after, j) else none
  | .process _ => none

/-- A call opens a level if the walk is deep and the visit was to a job. -/
theorem Call.level_eq_some {deep : Bool} {c : Call} {l : System × Koid} :
    c.level deep = some l ↔ deep = true ∧ c.visit = .job l.2 ∧ c.after = l.1 := by
  unfold Call.level
  cases c.visit with
  | process p => simp
  | job j =>
    cases deep with
    | false => simp
    | true => simp [Prod.ext_iff, and_comm]

/-- The levels that calls open. -/
def opened (deep : Bool) (calls : List Call) : List (System × Koid) :=
  calls.filterMap (Call.level deep)

/-- All levels of a walk. -/
def levelsOf (s : System) (k : Koid) (deep : Bool) (calls : List Call) : List (System × Koid) :=
  (s, k) :: opened deep calls

/-- What the levels of a walk show: first what the start job shows. -/
theorem shown_levelsOf (s : System) (k : Koid) (deep : Bool) (calls : List Call) :
    ((levelsOf s k deep calls).flatMap fun l => l.1.shown l.2) =
      s.shown k ++ (opened deep calls).flatMap fun l => l.1.shown l.2 := List.flatMap_cons

/-- The level that opens is that of the job as the visit left it. -/
theorem opened_of_enter {deep : Bool} {c : Call} {j : Koid} {cs : List Call} (hj : c.visit = .job j)
    (hd : deep = true) : opened deep (c :: cs) = (c.after, j) :: opened deep cs :=
  List.filterMap_cons_some (Call.level_eq_some.2 ⟨hd, hj, rfl⟩)

/-- Other visits open none. -/
theorem opened_of_pass {deep : Bool} {c : Call} {cs : List Call}
    (hp : ∀ j, c.visit = .job j → deep = false) : opened deep (c :: cs) = opened deep cs := by
  refine List.filterMap_cons_none (Option.eq_none_iff_forall_ne_some.2 fun l hl => ?_)
  obtain ⟨hd, hj, -⟩ := Call.level_eq_some.1 hl
  rw [hp _ hj] at hd
  cases hd

namespace Agenda

variable {refuses : Allocator} {deep : Bool} {vs us : List Visit} {cs ds : List Call} {e : WalkEnd}

/-- An agenda that is finished goes on with the next. -/
theorem append (h : Agenda refuses deep vs cs .finished) (h' : Agenda refuses deep us ds e) :
    Agenda refuses deep (vs ++ us) (cs ++ ds) e := by
  generalize hf : WalkEnd.finished = x at h
  induction h with
  | done => exact h'
  | stop => cases hf
  | pass h hp _ ih => exact .pass h hp (ih hf)
  | refuse => cases hf
  | enter h hj hd _ ih =>
    have hfurther := ih hf
    rw [List.append_assoc] at hfurther
    exact .enter h hj hd hfurther

/-- Where the walk broke off, it does not matter what would come next. -/
theorem cut (h : Agenda refuses deep vs cs e) (he : e ≠ .finished) (us : List Visit) :
    Agenda refuses deep (vs ++ us) cs e := by
  induction h with
  | done => exact absurd rfl he
  | stop h => exact .stop h
  | pass h hp _ ih => exact .pass h hp (ih he)
  | refuse h hj hd hr => exact .refuse h hj hd hr
  | enter h hj hd _ ih =>
    have hfurther := ih he
    rw [List.append_assoc] at hfurther
    exact .enter h hj hd hfurther

/-- Only a call that breaks off stops a walk. -/
theorem exists_stop (h : Agenda refuses deep vs cs e) (he : e = .stopped) :
    ∃ c ∈ cs, c.goesOn = false := by
  induction h with
  | done | refuse => cases he
  | stop h => exact ⟨_, List.mem_singleton_self _, h⟩
  | pass _ _ _ ih | enter _ _ _ _ ih =>
    obtain ⟨c, hc, hstop⟩ := ih he
    exact ⟨c, List.mem_cons_of_mem _ hc, hstop⟩

/-- Only the allocator cuts a walk short otherwise. -/
theorem exists_refusal (h : Agenda refuses deep vs cs e) (he : e = .refused) :
    ∃ asked ask, refuses asked ask = true := by
  induction h with
  | done | stop => cases he
  | refuse _ _ _ hr => exact ⟨_, _, hr⟩
  | pass _ _ _ ih | enter _ _ _ _ ih => exact ih he

/-- A walk that finishes visits what is on its agenda, in order. -/
theorem sublist (h : Agenda refuses deep vs cs .finished) : vs.Sublist (cs.map Call.visit) := by
  generalize hf : WalkEnd.finished = x at h
  induction h with
  | done => exact .slnil
  | stop | refuse => cases hf
  | pass _ _ _ ih => exact (ih hf).cons_cons _
  | enter _ _ _ _ ih => exact ((List.sublist_append_right _ _).trans (ih hf)).cons_cons _

/-- **A level is visited in its order**, after the job that it is below. -/
theorem sublist_level (h : Agenda refuses deep vs cs .finished) {pre post : List Call} {c : Call}
    {j : Koid} (hd : deep = true) (hcs : cs = pre ++ c :: post) (hj : c.visit = .job j) :
    (c.after.shown j).Sublist (post.map Call.visit) := by
  generalize hf : WalkEnd.finished = x at h
  induction h generalizing pre with
  | done => simp at hcs
  | stop | refuse => cases hf
  | @pass c' vs cs e _ hp _ ih =>
    cases pre with
    | nil =>
      cases hcs
      rw [hp j hj] at hd
      cases hd
    | cons b pre => exact ih (List.cons.inj hcs).2 hf
  | @enter c' i vs cs e _ hi _ further ih =>
    cases pre with
    | nil =>
      cases hcs
      rw [hj] at hi
      cases hi
      subst hf
      exact (List.sublist_append_left _ _).trans further.sublist
    | cons b pre => exact ih (List.cons.inj hcs).2 hf

/-- **Nothing else is visited**: the calls and what is left of the agenda are what was on it and
what the opened levels show. -/
theorem perm (h : Agenda refuses deep vs cs e) : ∃ left, (e = .finished → left = []) ∧
    (cs.map Call.visit ++ left).Perm
      (vs ++ (opened deep cs).flatMap fun l : System × Koid => l.1.shown l.2) := by
  induction h with
  | done => exact ⟨[], fun _ => rfl, .refl _⟩
  | stop | refuse => exact ⟨_, fun he => (by cases he), .refl _⟩
  | pass _ hp _ ih =>
    obtain ⟨left, he, hperm⟩ := ih
    refine ⟨left, he, ?_⟩
    rw [opened_of_pass hp]
    exact hperm.cons _
  | @enter c j vs cs e _ hj hd _ ih =>
    obtain ⟨left, he, hperm⟩ := ih
    refine ⟨left, he, ?_⟩
    rw [opened_of_enter hj hd, List.flatMap_cons]
    have hswap : ∀ ls : List Visit, (c.after.shown j ++ vs ++ ls).Perm
        (vs ++ (c.after.shown j ++ ls)) := fun ls => by
      rw [← List.append_assoc]
      exact List.perm_append_comm.append_right ls
    exact (hperm.trans (hswap _)).cons _

end Agenda

/-! ## 2. The calls of the loop

The loop makes the calls of an agenda, one rule of the loop for one rule of the agenda.  That what
is visited is there comes with it, since the levels are among the dues. -/

namespace Walk

open World

variable {σ : Type} {P : System → Op → Prop} {held : σ → List Task} {f : Visitor σ} {deep : Bool}

/-- A visit is noted at the end, with the states before and after it. -/
theorem log_of_visit {w v : Walk (σ × List Call)} {a : Visit} {goesOn : Bool}
    (h : w.visit (logging f) a = (goesOn, v)) :
    v.own.2 = w.own.2 ++ [⟨a, w.system, goesOn, v.system⟩] ∧ v.supply = w.supply := by
  cases h
  exact ⟨rfl, rfl⟩

/-- The calls between two points of a walk are those of an agenda, and find what they visit. -/
structure Covers (deep : Bool) (vs : List Visit) (w : Walk (σ × List Call)) (e : WalkEnd)
    (w' : Walk (σ × List Call)) : Prop where
  refuses : w'.supply.refuses = w.supply.refuses
  calls : ∃ cs, w'.own.2 = w.own.2 ++ cs ∧ (∀ c ∈ cs, c.before.Finds c.visit) ∧
    Agenda w.supply.refuses deep vs cs e

namespace Covers

variable {vs us : List Visit} {w v w' : Walk (σ × List Call)} {a : Visit} {j : Koid} {e : WalkEnd}

/-- A walk with nothing ahead is finished. -/
theorem done (w : Walk (σ × List Call)) : Covers deep [] w .finished w :=
  ⟨rfl, [], (List.append_nil _).symm, by simp, .done⟩

/-- What covers one list and then another covers both. -/
theorem append (h : Covers deep vs w .finished v) (h' : Covers deep us v e w') :
    Covers deep (vs ++ us) w e w' := by
  obtain ⟨hr, cs, hcs, hall, hagenda⟩ := h
  obtain ⟨hr', ds, hds, hall', hagenda'⟩ := h'
  refine ⟨hr'.trans hr, cs ++ ds, ?_, List.forall_mem_append.2 ⟨hall, hall'⟩,
    hagenda.append (hr ▸ hagenda')⟩
  rw [hds, hcs, List.append_assoc]

/-- A walk that was broken off has covered its list, whatever was still on it. -/
theorem cut (h : Covers deep vs w e v) (he : e ≠ .finished) (us : List Visit) :
    Covers deep (vs ++ us) w e v := by
  obtain ⟨hr, cs, hcs, hall, hagenda⟩ := h
  exact ⟨hr, cs, hcs, hall, hagenda.cut he us⟩

/-- The last call. -/
theorem last {goesOn : Bool} (hv : w.visit (logging f) a = (goesOn, v))
    (hfinds : w.system.Finds a)
    (h : Agenda w.supply.refuses deep vs [⟨a, w.system, goesOn, v.system⟩] e) :
    Covers deep vs w e v := by
  obtain ⟨hlog, hsupply⟩ := log_of_visit hv
  refine ⟨congrArg Supply.refuses hsupply, _, hlog, fun c hc => ?_, h⟩
  rw [List.mem_singleton.1 hc]
  exact hfinds

/-- One more call in front. -/
theorem cons {goesOn : Bool} (hv : w.visit (logging f) a = (goesOn, v))
    (hfinds : w.system.Finds a) (h : Covers deep us v e w')
    (hagenda : ∀ cs, Agenda w.supply.refuses deep us cs e →
      Agenda w.supply.refuses deep (a :: vs) (⟨a, w.system, goesOn, v.system⟩ :: cs) e) :
    Covers deep (a :: vs) w e w' := by
  obtain ⟨hlog, hsupply⟩ := log_of_visit hv
  obtain ⟨hr, cs, hcs, hall, h⟩ := h
  rw [hsupply] at hr h
  refine ⟨hr, _, ?_, List.forall_mem_cons.2 ⟨hfinds, hall⟩, hagenda cs h⟩
  rw [hcs, hlog, List.append_assoc, List.singleton_append]

/-- A visit may stop the walk, -/
theorem stop (hv : w.visit (logging f) a = (false, v)) (hfinds : w.system.Finds a)
    (vs : List Visit) : Covers deep (a :: vs) w .stopped v :=
  last hv hfinds (.stop (c := ⟨a, w.system, false, v.system⟩) rfl)

/-- or the walk goes on with the next entry, -/
theorem pass (hv : w.visit (logging f) a = (true, v)) (hfinds : w.system.Finds a)
    (hp : ∀ j, a = .job j → deep = false) (h : Covers deep vs v e w') :
    Covers deep (a :: vs) w e w' :=
  h.cons hv hfinds fun _ hagenda => .pass (c := ⟨a, w.system, true, v.system⟩) rfl hp hagenda

/-- or a job is visited and its level is refused, -/
theorem refuse (hv : w.visit (logging f) (.job j) = (true, v))
    (hfinds : w.system.Finds (.job j)) (hd : deep = true)
    (hr : v.supply.refuses v.supply.asked (v.system.snapshotRequest j) = true)
    (vs : List Visit) : Covers deep (.job j :: vs) w .refused v := by
  rw [(log_of_visit hv).2] at hr
  exact last hv hfinds (.refuse (c := ⟨.job j, w.system, true, v.system⟩) rfl rfl hd hr)

/-- or the level opens, and what it shows comes first. -/
theorem enter (hv : w.visit (logging f) (.job j) = (true, v)) (hfinds : w.system.Finds (.job j))
    (hd : deep = true) (h : Covers deep (v.system.shown j ++ vs) v e w') :
    Covers deep (.job j :: vs) w e w' :=
  h.cons hv hfinds fun _ hagenda =>
    .enter (c := ⟨.job j, w.system, true, v.system⟩) rfl rfl hd hagenda

/-- It does not show where a walk gives things back. -/
theorem from_giveBack {ks : List Koid} (h : Covers deep vs (v.giveBack ks) e w') :
    Covers deep vs v e w' := ⟨h.refuses, h.calls⟩

theorem to_giveBack (h : Covers deep vs w e v) (ks : List Koid) :
    Covers deep vs w e (v.giveBack ks) := ⟨h.refuses, h.calls⟩

end Covers

/-- What is held in a walk is found. -/
theorem finds_of_due {s : System} {d : List Task} {v : Visit} (hacc : Accounted s d)
    (hknew : s.Knew v) (hdue : .release (.object v.koid) ∈ d) : s.Finds v :=
  hknew.finds (hacc.present_of_owed (owed_pos hdue (by simp [Task.holds])))

/-- The job at hand is one of those that the levels hold. -/
theorem dues_of_first (j : Koid) (js : List Koid) (levels : List (List Koid)) (d : List Task) :
    (dues (rest ((j :: js) :: levels)) ++ d).Perm
      (.release (.object j) :: (dues (rest (js :: levels)) ++ d)) := by
  rw [rest_cons, rest_cons, dues_append, dues_append]
  exact List.perm_middle.append_right d

variable (hshare : ∀ s r, P s (.share r)) (hdrop : ∀ s t, P s (.drop t)) (hf : Guides P held f)

include hshare hdrop hf

/-- The processes of a level are visited in turn. -/
theorem visitProcesses_covers (deep : Bool) (ps : List Koid) {w v : Walk (σ × List Call)}
    {goesOn : Bool} (hv : visitProcesses (logging f) ps w = (goesOn, v)) {d : List Task}
    (hran : Ran P ⟨w.system, held w.own.1 ++ d⟩) (hknew : ∀ p ∈ ps, w.system.Knew (.process p))
    (hdue : ∀ p ∈ ps, .release (.object p) ∈ d) :
    Covers deep (ps.map .process) w (if goesOn then .finished else .stopped) v := by
  induction ps generalizing w with
  | nil =>
    cases hv
    exact .done _
  | cons p ps ih =>
    rw [visitProcesses] at hv
    cases hu : w.visit (logging f) (.process p) with
    | mk on u =>
      -- The snapshot holds a reference to the process, so it is there when its turn comes,
      -- whatever the visits before it did.
      have hfinds : w.system.Finds (.process p) :=
        finds_of_due hran.passed.accounted (hknew p List.mem_cons_self)
          (List.mem_append_right _ (hdue p List.mem_cons_self))
      have hkept := visit_keeps (hf.logging.under_keeps hshare hdrop w.system) hu ⟨hran, .refl _⟩
      rw [hu] at hv
      cases on with
      | false =>
        cases hv
        exact .stop hu hfinds _
      | true =>
        exact .pass hu hfinds (fun j hj => by cases hj) (ih hv hkept.1
          (fun q hq => hkept.2.knew (hknew q (List.mem_cons_of_mem _ hq)))
          fun q hq => hdue q (List.mem_cons_of_mem _ hq))

/-- **Reaching a level**: it is refused, or its processes are visited, and if the walk goes on its
jobs are next. -/
theorem enter_covers (deep : Bool) {w v : Walk (σ × List Call)} {j : Koid}
    {x : Except WalkEnd (List Koid)} (hv : w.enter (logging f) j = (x, v)) {d : List Task}
    (hran : Ran P ⟨w.system, held w.own.1 ++ d⟩) :
    (x = .error .refused ∧ v.supply.refuses = w.supply.refuses ∧ v.own = w.own ∧
        w.supply.refuses w.supply.asked (w.system.snapshotRequest j) = true) ∨
      (x = .error .stopped ∧
        Covers deep ((w.system.liveChildren j).processes.map .process) w .stopped v) ∨
      (x = .ok (w.system.liveChildren j).jobs ∧
        Covers deep ((w.system.liveChildren j).processes.map .process) w .finished v) := by
  unfold enter System.snapshot at hv
  dsimp only at hv
  by_cases hr : w.supply.refuses w.supply.asked (w.system.snapshotRequest j) = true
  · rw [if_pos hr] at hv
    cases hv
    exact .inl ⟨rfl, rfl, rfl, hr⟩
  · rw [if_neg hr] at hv
    dsimp only at hv
    -- The snapshot is held while its processes are visited: the dues of the run are those of the
    -- walk and the ones of this level.
    have hheld := ((hf.logging.under_keeps hshare hdrop w.system).lending w.own).hold j
      (s := w.system) (d := d) ⟨hran, .refl _⟩
    unfold System.hold at hheld
    have hknew : ∀ p ∈ (w.system.liveChildren j).processes, ((w.system.retainAll
        ((w.system.liveChildren j).processes.map .object)).retainAll
          ((w.system.liveChildren j).jobs.map .object)).Knew (.process p) := fun p hp =>
      ⟨w.system, _, hran.passed.accounted, hheld.2, System.finds_of_mem_shown
        (System.process_mem_shown.2 hp)⟩
    have hdue : ∀ p ∈ (w.system.liveChildren j).processes,
        .release (.object p) ∈ w.system.snapshotDues j ++ d := fun p hp =>
      List.mem_append_left _ (List.mem_append_right _ (List.mem_map_of_mem hp))
    split at hv
    · rename_i u hu
      cases hv
      have hcovers := visitProcesses_covers hshare hdrop hf deep _ hu hheld.1 hknew hdue
      exact .inr (.inr ⟨rfl, hcovers.refuses, hcovers.calls⟩)
    · rename_i u hu
      cases hv
      have hcovers := visitProcesses_covers hshare hdrop hf deep _ hu hheld.1 hknew hdue
      exact .inr (.inl ⟨rfl, hcovers.refuses, hcovers.calls⟩)

/-- **What the loop calls** is an agenda that starts with the jobs of its levels. -/
theorem Loops.covers {levels : List (List Koid)} {w w' : Walk (σ × List Call)} {e : WalkEnd}
    (hl : Loops (logging f) deep levels w e w') {d : List Task}
    (hran : Ran P ⟨w.system, held w.own.1 ++ (dues (rest levels) ++ d)⟩)
    (hknew : ∀ j ∈ levels.flatten, w.system.Knew (.job j)) :
    Covers deep (levels.flatten.map .job) w e w' := by
  have hkeeps := hf.logging.under_keeps hshare hdrop
  -- what the visit of the next job leaves: the job is still held, and so are the others
  have hvisit : ∀ {j : Koid} {js : List Koid} {levels : List (List Koid)} {goesOn : Bool}
      {w v : Walk (σ × List Call)}, w.visit (logging f) (.job j) = (goesOn, v) →
      Ran P ⟨w.system, held w.own.1 ++ (dues (rest ((j :: js) :: levels)) ++ d)⟩ →
      (∀ i ∈ ((j :: js) :: levels).flatten, w.system.Knew (.job i)) →
      w.system.Finds (.job j) ∧ Under P (fun own : σ × List Call => held own.1) w.system
        ⟨v.system, .release (.object j) :: (dues (rest (js :: levels)) ++ d)⟩ v.own := by
    intro j js levels goesOn w v hv hran hknew
    have hheld := hran.reorder ((dues_of_first j js levels d).append_left _)
    exact ⟨finds_of_due hheld.passed.accounted (hknew j List.mem_cons_self)
        (List.mem_append_right _ List.mem_cons_self),
      visit_keeps (hkeeps w.system) hv ⟨hheld, .refl _⟩⟩
  induction hl with
  | @done w => exact .done w
  | pop _ ih =>
    rw [rest_cons, List.append_nil] at hran
    exact ih hran hknew
  | stop hv => exact (Covers.stop hv (hvisit hv hran hknew).1 _).to_giveBack _
  | @stay j js levels w v w' e hd hv _ ih =>
    obtain ⟨hfinds, hkept⟩ := hvisit hv hran hknew
    have hback := giveBack_keeps (hkeeps w.system) v [j] _ hkept
    exact .pass hv hfinds (fun _ _ => hd) (ih hback.1 fun i hi =>
      hback.2.knew (hknew i (List.mem_cons_of_mem _ hi))).from_giveBack
  | @fail j js levels w v u e hd hv hu =>
    obtain ⟨hfinds, hkept⟩ := hvisit hv hran hknew
    rcases enter_covers hshare hdrop hf deep hu hkept.1 with
      ⟨he, hrefuses, hown, hr⟩ | ⟨he, hcovers⟩ | ⟨he, -⟩
    · cases he
      have hlast := Covers.refuse hv hfinds hd hr ((js :: levels).flatten.map .job)
      exact ⟨hrefuses.trans hlast.refuses, hown ▸ hlast.calls⟩
    · cases he
      refine (Covers.enter hv hfinds hd ?_).to_giveBack _
      unfold System.shown
      rw [List.append_assoc]
      exact hcovers.cut (by simp) _
    · cases he
  | @push j js jobs levels w v u w' e hd hv hu _ ih =>
    obtain ⟨hfinds, hkept⟩ := hvisit hv hran hknew
    have hentered := enter_keeps (hkeeps v.system) v j _ ⟨hkept.1, .refl _⟩
    rw [hu] at hentered
    rcases enter_covers hshare hdrop hf deep hu hkept.1 with ⟨he, -⟩ | ⟨he, -⟩ |
      ⟨he, hcovers⟩
    · cases he
    · cases he
    cases he
    have hheld : Under P (fun own : σ × List Call => held own.1) v.system ⟨u.system,
        dues [j] ++ (dues (rest ((v.system.liveChildren j).jobs :: js :: levels)) ++ d)⟩ u.own :=
      ((hkeeps v.system).lending u.own).reorder
        (List.perm_middle.trans ((dues_of_level _ (js :: levels) d).symm.cons _)) hentered
    have hback := giveBack_keeps (hkeeps v.system) u [j] _ hheld
    have hshown : ∀ i ∈ (v.system.liveChildren j).jobs, v.system.Knew (.job i) := fun i hi =>
      ⟨v.system, _, hkept.1.passed.accounted, .refl _, System.finds_of_mem_shown
        (System.job_mem_shown.2 hi)⟩
    have hknew' : ∀ i ∈ ((v.system.liveChildren j).jobs :: js :: levels).flatten,
        (u.giveBack [j]).system.Knew (.job i) := fun i hi => by
      rcases List.mem_append.1 hi with hi | hi
      · exact hback.2.knew (hshown i hi)
      · exact hback.2.knew (hkept.2.knew (hknew i (List.mem_cons_of_mem _ hi)))
    have hboth := hcovers.append (ih hback.1 hknew').from_giveBack
    rw [List.flatten_cons, List.map_append, ← List.append_assoc] at hboth
    exact .enter hv hfinds hd hboth

end Walk

/-! ## 3. The levels in their order

A level is known by its job and by the state in which it is reached.  These states come one after
the other, so something that two levels show can be traced from the one to the other. -/

namespace World

variable {σ : Type} {P : System → Op → Prop} {held : σ → List Task} {f : Visitor σ}

/-- The states that calls leave are on the way from the start of a walk to the present point. -/
structure Chained (P : System → Op → Prop) (held : σ → List Task) (s : System) (w : World)
    (own : σ × List Call) : Prop where
  here : Under P held s w own.1
  since : ∀ c ∈ own.2, Steady s c.after ∧ (∃ d, Ran P ⟨c.after, d⟩) ∧ Under P held c.after w own.1
  inOrder : own.2.Pairwise fun c c' => Steady c.after c'.after

/-- A visitor that does operations of a run makes the walk a chain of such runs. -/
theorem chained_keeps (hshare : ∀ s r, P s (.share r)) (hdrop : ∀ s t, P s (.drop t))
    (hf : Guides P held f) (s : System) : Walk.Keeps (Walk.logging f) (Chained P held s) where
  lending own :=
    -- Each call in the log is followed by a run of its own, from its state to the present one.
    -- So every step has to be shown for all of these runs, not only for the one that starts at
    -- `s`.
    have hlending : ∀ t, Lending fun w => Under P held t w own.1 := fun t =>
      (hf.under_keeps hshare hdrop t).lending own.1
    { reorder := fun hp h => ⟨(hlending s).reorder hp h.here, fun c hc =>
        ⟨(h.since c hc).1, (h.since c hc).2.1, (hlending c.after).reorder hp (h.since c hc).2.2⟩,
        h.inOrder⟩
      share := fun hr h => ⟨(hlending s).share hr h.here, fun c hc =>
        ⟨(h.since c hc).1, (h.since c hc).2.1, (hlending c.after).share hr (h.since c hc).2.2⟩,
        h.inOrder⟩
      release := fun h => ⟨(hlending s).release h.here, fun c hc =>
        ⟨(h.since c hc).1, (h.since c hc).2.1, (hlending c.after).release (h.since c hc).2.2⟩,
        h.inOrder⟩ }
  visit a t own d h := by
    have hkeeps : ∀ u, Under P held u ⟨t, d⟩ own.1 →
        Under P held u ⟨(f a t own.1).2.1, d⟩ (f a t own.1).2.2 := fun u =>
      (hf.under_keeps hshare hdrop u).visit a t own.1 d
    have hnow := hkeeps s h.here
    refine ⟨hnow, fun c hc => ?_, List.pairwise_append.2 ⟨h.inOrder, List.pairwise_singleton _ _,
      fun c hc c' hc' => ?_⟩⟩
    · rcases List.mem_append.1 hc with hc | hc
      · exact ⟨(h.since c hc).1, (h.since c hc).2.1, hkeeps _ (h.since c hc).2.2⟩
      · rw [List.mem_singleton.1 hc]
        exact ⟨hnow.2, ⟨_, hnow.1⟩, hnow.1, .refl _⟩
    · rw [List.mem_singleton.1 hc']
      exact (hkeeps _ (h.since c hc).2.2).2

/-- **The levels of a walk are reached one after the other**, in states that operations lead to. -/
theorem Guides.levels_steady (hshare : ∀ s r, P s (.share r)) (hdrop : ∀ s t, P s (.drop t))
    (hf : Guides P held f) {s : System} {own : σ} {d : List Task}
    (hran : Ran P ⟨s, held own ++ d⟩) (refuses : Allocator) (k : Koid) (deep : Bool) :
    let levels := levelsOf s k deep (s.walk refuses k deep (Walk.logging f) (own, [])).2.2.2
    (levels.Pairwise fun l l' => Steady l.1 l'.1) ∧ ∀ l ∈ levels, ∃ e, Ran P ⟨l.1, e⟩ := by
  have hchained := System.walk_keeps (chained_keeps hshare hdrop hf s) s refuses k deep (own, []) d
    ⟨⟨hran, .refl s⟩, by simp, .nil⟩
  generalize (s.walk refuses k deep (Walk.logging f) (own, [])).2.2 = mine at hchained
  have hopened : ∀ l ∈ opened deep mine.2, ∃ c ∈ mine.2, c.after = l.1 := by
    intro l hl
    obtain ⟨c, hc, hcl⟩ := List.mem_filterMap.1 hl
    exact ⟨c, hc, (Call.level_eq_some.1 hcl).2.2⟩
  refine ⟨List.pairwise_cons.2 ⟨fun l hl => ?_, ?_⟩, fun l hl => ?_⟩
  · obtain ⟨c, hc, he⟩ := hopened l hl
    exact he ▸ (hchained.since c hc).1
  · refine List.Pairwise.filterMap _ (fun c c' hcc l hl l' hl' => ?_) hchained.inOrder
    exact (Call.level_eq_some.1 hl).2.2 ▸ (Call.level_eq_some.1 hl').2.2 ▸ hcc
  · rcases List.mem_cons.1 hl with rfl | hl
    · exact ⟨_, hran⟩
    · obtain ⟨c, hc, he⟩ := hopened l hl
      exact he ▸ (hchained.since c hc).2.1

end World

/-! ## 4. Nothing comes twice

Counted are the occurrences of one visit in all levels together.  A level shows it at most once,
only levels of its one home show it, and its home is opened at most once, by induction on the age
of the job. -/

/-- Everything has its place: the lists of children are true and name nothing twice. -/
structure InPlace (s : System) : Prop where
  lineage : Lineage s
  tree : JobTree s
  once : ListedOnce s
  accounted : ∃ d, Accounted s d

theorem World.Ran.inPlace {w : World} (h : w.Ran fun _ op => ¬ op.Attaches) : InPlace w.system where
  lineage := h.passed.lineage
  tree := (h.passed_of (A := False) (C := True) fun _ _ hop => ⟨hop, fun _ => trivial⟩).jobTree
  once := h.listedOnce
  accounted := ⟨_, h.passed.accounted⟩

namespace InPlace

variable {s t : System} {j k : Koid} {v : Visit}

/-- A level shows nobody twice, since nobody is listed twice. -/
theorem nodup_shown (h : InPlace s) (k : Koid) : (s.shown k).Nodup := by
  have hprocesses : (s.liveChildren k).processes.Nodup := by
    unfold System.liveChildren
    cases hk : s.jobs[k]? with
    | none => exact List.nodup_nil
    | some q => exact (h.once.nodup hk).filter _
  refine List.nodup_append.2 ⟨hprocesses.map fun _ _ he => Visit.process.inj he,
    (h.lineage.nodup_liveChildren k).map fun _ _ he => Visit.job.inj he, fun v hv u hu => ?_⟩
  obtain ⟨p, -, rfl⟩ := List.mem_map.1 hv
  obtain ⟨c, -, rfl⟩ := List.mem_map.1 hu
  simp

/-- What a level shows was handed out before the level was reached. -/
theorem koid_lt (h : InPlace s) (hv : v ∈ s.shown k) : v.koid < s.nextKoid := by
  obtain ⟨d, hacc⟩ := h.accounted
  have hfinds := System.finds_of_mem_shown hv
  cases v with
  | job c =>
    obtain ⟨j, hj⟩ := Store.contains_iff.1 hfinds
    exact hacc.job_lt hj
  | process p =>
    obtain ⟨r, hr⟩ := Store.contains_iff.1 hfinds
    exact hacc.process_lt hr

/-- A job is older than its child jobs. -/
theorem older (h : InPlace s) {c : Koid} (hc : .job c ∈ s.shown k) : k < c := by
  obtain ⟨q, b, hq, hmem, hb⟩ := System.mem_liveChildren_jobs.1 (System.job_mem_shown.1 hc)
  exact h.tree.older hb (h.lineage.child hq hmem hb).1

/-- **A child has one home**: later on no level below another job shows it. -/
theorem same_home (hs : InPlace s) (ht : InPlace t) (hst : Steady s t) (hv : v ∈ s.shown k)
    (hv' : v ∈ t.shown j) : k = j := by
  have hlt := hs.koid_lt hv
  cases v with
  | process p =>
    obtain ⟨q, r, hq, hmem, hr⟩ :=
      System.mem_liveChildren_processes.1 (System.process_mem_shown.1 hv)
    obtain ⟨q', r', hq', hmem', hr'⟩ :=
      System.mem_liveChildren_processes.1 (System.process_mem_shown.1 hv')
    obtain ⟨a, ha, hjob⟩ := hst.process hlt hr'
    obtain rfl : r = a := Option.some.inj (hr.symm.trans ha)
    rw [← hs.tree.job hq hmem hr, ← ht.tree.job hq' hmem' hr', hjob]
  | job c =>
    obtain ⟨q, b, hq, hmem, hb⟩ := System.mem_liveChildren_jobs.1 (System.job_mem_shown.1 hv)
    obtain ⟨q', b', hq', hmem', hb'⟩ :=
      System.mem_liveChildren_jobs.1 (System.job_mem_shown.1 hv')
    obtain ⟨a, ha, hparent, -⟩ := hst.job hlt hb'
    obtain rfl : b = a := Option.some.inj (hb.symm.trans ha)
    have hk := (hs.lineage.child hq hmem hb).1
    have hj := (ht.lineage.child hq' hmem' hb').1
    rw [hparent, hk] at hj
    exact Option.some.inj hj

end InPlace

/-- Levels that were reached one after the other, each in a state where everything has its place. -/
structure LevelRun (levels : List (System × Koid)) : Prop where
  steady : levels.Pairwise fun l l' => Steady l.1 l'.1
  inPlace : ∀ l ∈ levels, InPlace l.1

namespace LevelRun

variable {levels : List (System × Koid)} {v : Visit}

/-- What is visited at a level shows which job it is below. -/
theorem home (h : LevelRun levels) {l l' : System × Koid} (hl : l ∈ levels) (hl' : l' ∈ levels)
    (hv : v ∈ l.1.shown l.2) (hv' : v ∈ l'.1.shown l'.2) : l.2 = l'.2 := by
  let SameHome (a b : System × Koid) : Prop :=
    v ∈ a.1.shown a.2 → v ∈ b.1.shown b.2 → a.2 = b.2
  have : Std.Symm SameHome := ⟨fun _ _ hab hb ha => (hab ha hb).symm⟩
  have hordered : levels.Pairwise SameHome :=
    h.steady.imp_of_mem fun ha hb hab => (h.inPlace _ ha).same_home (h.inPlace _ hb) hab
  exact hordered.forall_of_forall (fun _ _ _ _ => rfl) hl hl' hv hv'

/-- A child of one job comes as often as there are levels of that job. -/
theorem count_shown_le (h : LevelRun levels) {j : Koid}
    (hhome : ∀ l ∈ levels, v ∈ l.1.shown l.2 → l.2 = j)
    (hj : (levels.map Prod.snd).count j ≤ 1) :
    (levels.flatMap fun l => l.1.shown l.2).count v ≤ 1 := by
  induction levels with
  | nil => simp
  | cons l levels ih =>
    have hrun : LevelRun levels := ⟨(List.pairwise_cons.1 h.steady).2,
      fun l hl => h.inPlace l (List.mem_cons_of_mem _ hl)⟩
    have hnodup := (h.inPlace l List.mem_cons_self).nodup_shown l.2
    rw [List.map_cons, List.count_cons] at hj
    rw [List.flatMap_cons, List.count_append]
    by_cases hv : v ∈ l.1.shown l.2
    · have hlj := hhome l List.mem_cons_self hv
      have hnone : (levels.flatMap fun l => l.1.shown l.2).count v = 0 := by
        refine List.count_eq_zero.2 fun hmem => ?_
        obtain ⟨l', hl', hv'⟩ := List.mem_flatMap.1 hmem
        have hpos := List.count_pos_iff.2 (List.mem_map_of_mem (f := Prod.snd) hl')
        rw [hhome l' (List.mem_cons_of_mem _ hl') hv'] at hpos
        simp only [hlj, beq_self_eq_true, if_true] at hj
        omega
      rw [hnone]
      exact List.nodup_iff_count_le_one.1 hnodup v
    · rw [List.count_eq_zero.2 hv, Nat.zero_add]
      exact ih hrun (fun l hl => hhome l (List.mem_cons_of_mem _ hl)) (by omega)

end LevelRun

/-- What is visited is shown by some level. -/
theorem Agenda.count_visit_le {refuses : Allocator} {deep : Bool} {s : System} {k : Koid}
    {calls : List Call} {e : WalkEnd} (h : Agenda refuses deep (s.shown k) calls e) (v : Visit) :
    (calls.map Call.visit).count v ≤
      ((levelsOf s k deep calls).flatMap fun l => l.1.shown l.2).count v := by
  obtain ⟨left, -, hperm⟩ := h.perm
  have hcount := hperm.count_eq v
  rw [List.count_append] at hcount
  rw [shown_levelsOf]
  omega

/-- A level is opened by the visit of its job. -/
theorem count_opened_le (deep : Bool) (calls : List Call) (c : Koid) :
    ((opened deep calls).map Prod.snd).count c ≤ (calls.map Call.visit).count (.job c) := by
  induction calls with
  | nil => simp [opened]
  | cons b calls ih =>
    rw [List.map_cons, List.count_cons]
    by_cases hlevel : ∀ j, b.visit = .job j → deep = false
    · rw [opened_of_pass hlevel]
      omega
    · push Not at hlevel
      obtain ⟨j, hj, hd⟩ := hlevel
      rw [opened_of_enter hj (Bool.eq_true_of_not_eq_false hd), List.map_cons, List.count_cons, hj]
      have hsame : ((j == c) : Bool) = (Visit.job j == Visit.job c) := by
        rw [Bool.eq_iff_iff]
        simp
      rw [hsame]
      omega

/-- **Nothing comes twice** in a walk whose levels are reached one after the other. -/
theorem LevelRun.nodup {refuses : Allocator} {deep : Bool} {s : System} {k : Koid}
    {calls : List Call} {e : WalkEnd} (h : LevelRun (levelsOf s k deep calls))
    (ha : Agenda refuses deep (s.shown k) calls e) : (calls.map Call.visit).Nodup := by
  -- a child of a job that is reached once comes once
  have hchild : ∀ v : Visit, (∀ l ∈ levelsOf s k deep calls, v ∈ l.1.shown l.2 →
      ((levelsOf s k deep calls).map Prod.snd).count l.2 ≤ 1) →
      (calls.map Call.visit).count v ≤ 1 := by
    intro v hv
    refine (ha.count_visit_le v).trans ?_
    by_cases hshown : ∃ l ∈ levelsOf s k deep calls, v ∈ l.1.shown l.2
    · obtain ⟨l, hl, hvl⟩ := hshown
      exact h.count_shown_le (fun l' hl' hvl' => h.home hl' hl hvl' hvl) (hv l hl hvl)
    · have hnone : v ∉ (levelsOf s k deep calls).flatMap fun l : System × Koid => l.1.shown l.2 :=
        fun hmem => hshown (List.mem_flatMap.1 hmem)
      rw [List.count_eq_zero.2 hnone]
      exact Nat.zero_le _
  -- by age: what is visited is younger than the start, and is reached once
  have hjob : ∀ c : Koid, (.job c ∈ calls.map Call.visit → k < c) ∧
      ((levelsOf s k deep calls).map Prod.snd).count c ≤ 1 := by
    intro c
    induction c using Nat.strong_induction_on with
    | _ c ih =>
      have hvisited : .job c ∈ calls.map Call.visit →
          ∃ l ∈ levelsOf s k deep calls, .job c ∈ l.1.shown l.2 := fun hmem => by
        have hcount := ha.count_visit_le (.job c)
        have hpos := List.count_pos_iff.2 hmem
        exact List.mem_flatMap.1 (List.count_pos_iff.1 (by omega))
      have hyounger : .job c ∈ calls.map Call.visit → k < c := fun hmem => by
        obtain ⟨l, hl, hshown⟩ := hvisited hmem
        have hlt := (h.inPlace l hl).older hshown
        rcases List.mem_cons.1 hl with rfl | hl
        · exact hlt
        · have hopened := List.count_pos_iff.2 (List.mem_map_of_mem (f := Prod.snd) hl)
          have hle := count_opened_le deep calls l.2
          exact ((ih l.2 hlt).1 (List.count_pos_iff.1 (by omega))).trans hlt
      refine ⟨hyounger, ?_⟩
      have honce : (calls.map Call.visit).count (.job c) ≤ 1 :=
        hchild _ fun l hl hshown => (ih l.2 ((h.inPlace l hl).older hshown)).2
      have hopened := count_opened_le deep calls c
      unfold levelsOf
      rw [List.map_cons, List.count_cons]
      split
      · rename_i he
        have hne : .job c ∉ calls.map Call.visit := fun hmem =>
          Nat.ne_of_lt (hyounger hmem) (beq_iff_eq.1 he)
        rw [List.count_eq_zero.2 hne] at hopened
        omega
      · omega
  exact List.nodup_iff_count_le_one.2 fun v => hchild v fun l _ _ => (hjob l.2).2

/-! ## 5. Walks while the tree changes

All that was said of the loop, said of the walk, with the visitor of a client and in a run. -/

namespace World

/-- **What a walk comes to**, whatever its visitor does to the tree. -/
structure WalkSound {σ : Type} (s : System) (refuses : Allocator) (k : Koid) (deep : Bool)
    (f : Visitor σ) (own : σ) : Prop where
  /-- Without a bound on its depth the walk comes to an end, and to the same one. -/
  ends : ∃ w', Walk.Takes f deep k ⟨s, ⟨refuses, []⟩, own⟩ (s.walk refuses k deep f own).1 w' ∧
    (s.walk refuses k deep f own).2 = (w'.system, w'.own)
  /-- If it is neither broken off nor refused memory, it goes to its end. -/
  finishes : (∀ v t mine, (f v t mine).1 = true) → (∀ asked ask, ¬ refuses asked ask = true) →
    (s.walk refuses k deep f own).1 = .finished
  /-- Notes change nothing. -/
  noted : let r := s.walk refuses k deep (Walk.logging f) (own, [])
    s.walk refuses k deep f own = (r.1, r.2.1, r.2.2.1)
  /-- Each level comes as it is when the walk reaches it. -/
  agenda : let r := s.walk refuses k deep (Walk.logging f) (own, [])
    (r.1 = .refused ∧ r.2.2.2 = [] ∧ refuses [] (s.snapshotRequest k) = true) ∨
      Agenda refuses deep (s.shown k) r.2.2.2 r.1
  /-- What is visited is there, also if it was killed, delisted or given up by everybody else. -/
  found : ∀ c ∈ (s.walk refuses k deep (Walk.logging f) (own, [])).2.2.2, c.before.Finds c.visit
  /-- A walk that goes to its end visits all of each level that it enters, in list order. -/
  whole : let r := s.walk refuses k deep (Walk.logging f) (own, [])
    r.1 = .finished → (s.shown k).Sublist (r.2.2.2.map Call.visit) ∧
      ∀ pre c post j, deep = true → r.2.2.2 = pre ++ c :: post → c.visit = .job j →
        (c.after.shown j).Sublist (post.map Call.visit)
  /-- And nothing else. -/
  only : let r := s.walk refuses k deep (Walk.logging f) (own, [])
    r.1 = .finished → (r.2.2.2.map Call.visit).Perm
      ((levelsOf s k deep r.2.2.2).flatMap fun l => l.1.shown l.2)
  /-- What is created after a level was reached is not visited there. -/
  earlier : ∀ l ∈ levelsOf s k deep (s.walk refuses k deep (Walk.logging f) (own, [])).2.2.2,
    ∀ v ∈ l.1.shown l.2, v.koid < l.1.nextKoid
  /-- Nothing is visited twice. -/
  once : ((s.walk refuses k deep (Walk.logging f) (own, [])).2.2.2.map Call.visit).Nodup

/-- The calls of a visitor that never breaks off. -/
theorem goesOn_of_patient {σ : Type} {f : Visitor σ} (hf : ∀ v t mine, (f v t mine).1 = true)
    (s : System) (refuses : Allocator) (k : Koid) (deep : Bool) (own : σ) :
    ∀ c ∈ (s.walk refuses k deep (Walk.logging f) (own, [])).2.2.2, c.goesOn = true := by
  have hkeeps : Walk.Keeps (Walk.logging f) fun _ mine => ∀ c ∈ mine.2, c.goesOn = true :=
    { lending := fun _ => ⟨fun _ h => h, fun _ h => h, fun h => h⟩
      visit := fun v t mine _ h =>
        List.forall_mem_append.2 ⟨h, List.forall_mem_singleton.2 (hf v t mine.1)⟩ }
  exact System.walk_keeps hkeeps s refuses k deep (own, []) [] (by simp)

/-- **The agenda of a walk**: the calls of a guided visitor. -/
theorem Guides.walk_agenda {σ : Type} {P : System → Op → Prop} {held : σ → List Task}
    {f : Visitor σ} (hshare : ∀ s r, P s (.share r)) (hdrop : ∀ s t, P s (.drop t))
    (hf : Guides P held f) {s : System} {own : σ} {d : List Task}
    (hran : Ran P ⟨s, held own ++ d⟩) (refuses : Allocator) (k : Koid) (deep : Bool) :
    let r := s.walk refuses k deep (Walk.logging f) (own, [])
    ((r.1 = .refused ∧ r.2.2.2 = [] ∧ refuses [] (s.snapshotRequest k) = true) ∨
      Agenda refuses deep (s.shown k) r.2.2.2 r.1) ∧ ∀ c ∈ r.2.2.2, c.before.Finds c.visit := by
  have hstart : Ran P ⟨s, held ((own, []) : σ × List Call).1 ++ d⟩ := hran
  obtain ⟨w', htakes, hend⟩ := System.walk_takes hshare hdrop hf.logging hstart refuses k deep
  dsimp only
  rw [hend]
  generalize (s.walk refuses k deep (Walk.logging f) (own, [])).1 = e at htakes
  -- the walk ends at its first level, or it goes on with the loop over the jobs of that level
  cases htakes with
  | fail hv =>
    rcases Walk.enter_covers hshare hdrop hf deep hv hstart with
      ⟨he, -, hown, hr⟩ | ⟨he, hcovers⟩ | ⟨he, -⟩
    · cases he
      rw [hown]
      exact ⟨.inl ⟨rfl, rfl, hr⟩, by simp⟩
    · cases he
      obtain ⟨-, cs, hcs, hall, hagenda⟩ := hcovers.cut (by simp)
        ((s.liveChildren k).jobs.map .job)
      rw [hcs]
      exact ⟨.inr hagenda, hall⟩
    · cases he
  | @loop jobs e v w' hv hl =>
    have hkeeps := hf.logging.under_keeps hshare hdrop s
    have hentered := Walk.enter_keeps hkeeps ⟨s, ⟨refuses, []⟩, (own, [])⟩ k d ⟨hstart, .refl s⟩
    rw [hv] at hentered
    rcases Walk.enter_covers hshare hdrop hf deep hv hstart with
      ⟨he, -⟩ | ⟨he, -⟩ | ⟨he, hcovers⟩
    · cases he
    · cases he
    cases he
    have hheld := (hkeeps.lending v.own).reorder
      (Walk.dues_of_level _ [] d).symm hentered
    have hknew : ∀ c ∈ [(s.liveChildren k).jobs].flatten, v.system.Knew (.job c) := fun c hc => by
      rw [List.flatten_singleton] at hc
      exact ⟨s, _, hran.passed.accounted, hentered.2, System.finds_of_mem_shown
        (System.job_mem_shown.2 hc)⟩
    have hloop := hl.covers hshare hdrop hf hheld.1 hknew
    rw [List.flatten_singleton] at hloop
    obtain ⟨-, cs, hcs, hall, hagenda⟩ := hcovers.append hloop
    rw [hcs]
    exact ⟨.inr hagenda, hall⟩

/-- **Walks stand what their visitors do**: in every state that operations lead to, from every job,
for every allocator and every visitor whose calls are runs of operations themselves, walks included,
as long as nobody lists a process by hand. -/
theorem Ran.walk_sound {σ : Type} {held : σ → List Task} {f : Visitor σ} {s : System} {own : σ}
    {d : List Task} (h : Ran (fun _ op => ¬ op.Attaches) ⟨s, held own ++ d⟩)
    (hf : Guides (fun _ op => ¬ op.Attaches) held f) (refuses : Allocator) (k : Koid)
    (deep : Bool) : WalkSound s refuses k deep f own := by
  have hshare : ∀ (t : System) (r : Ref), ¬ (Op.share r).Attaches := fun _ _ => id
  have hdrop : ∀ (t : System) (x : Task), ¬ (Op.drop x).Attaches := fun _ _ => id
  obtain ⟨hagenda, hfound⟩ := hf.walk_agenda hshare hdrop h refuses k deep
  obtain ⟨hsteady, hran⟩ := hf.levels_steady hshare hdrop h refuses k deep
  have hnoted := s.walk_logging refuses k deep f own []
  have hgoesOn := fun hpatient => goesOn_of_patient (f := f) hpatient s refuses k deep own
  -- no process is listed by hand, so in each of the states everything has its place
  have hlevels : LevelRun (levelsOf s k deep
      (s.walk refuses k deep (Walk.logging f) (own, [])).2.2.2) :=
    ⟨hsteady, fun l hl => by
      obtain ⟨e, he⟩ := hran l hl
      exact he.inPlace⟩
  have hend : (s.walk refuses k deep f own).1 =
      (s.walk refuses k deep (Walk.logging f) (own, [])).1 := congrArg Prod.fst hnoted
  have hdone : (s.walk refuses k deep (Walk.logging f) (own, [])).1 = .finished →
      Agenda refuses deep (s.shown k)
        (s.walk refuses k deep (Walk.logging f) (own, [])).2.2.2 .finished := fun he => by
    rcases hagenda with ⟨hr, -⟩ | hagenda
    · rw [he] at hr
      cases hr
    · rwa [he] at hagenda
  constructor
  case ends => exact System.walk_takes hshare hdrop hf h refuses k deep
  case noted => exact hnoted
  case agenda => exact hagenda
  case found => exact hfound
  case earlier => exact fun l hl v hv => (hlevels.inPlace l hl).koid_lt hv
  case finishes =>
    -- an end before the last entry is the doing of a visit or of the allocator
    intro hpatient hgenerous
    rw [hend]
    rcases hagenda with ⟨-, -, hr⟩ | hagenda
    · exact absurd hr (hgenerous _ _)
    cases he : (s.walk refuses k deep (Walk.logging f) (own, [])).1 with
    | finished => rfl
    | stopped =>
      obtain ⟨c, hc, hstop⟩ := hagenda.exists_stop he
      rw [hgoesOn hpatient c hc] at hstop
      cases hstop
    | refused =>
      obtain ⟨asked, ask, hr⟩ := hagenda.exists_refusal he
      exact absurd hr (hgenerous asked ask)
  case whole => exact fun he => ⟨(hdone he).sublist, fun _ _ _ _ => (hdone he).sublist_level⟩
  case only =>
    intro r he
    obtain ⟨left, hnone, hperm⟩ := (hdone he).perm
    rw [hnone rfl, List.append_nil, ← shown_levelsOf] at hperm
    exact hperm
  case once =>
    rcases hagenda with ⟨-, hnone, -⟩ | hagenda
    · rw [hnone]
      exact List.nodup_nil
    · exact hlevels.nodup hagenda

/-- Drops all that it holds when it comes by a process, and makes the first root job another child
when it comes by a job. -/
def restlessVisitor : Visitor (List Task) := fun v s mine =>
  match v with
  | .process _ => (true, s.settle mine, [])
  | .job _ =>
    let w := World.act ⟨s, mine⟩ (.createJob 1024)
    (true, w.system, w.dues)

/-- Giving back all that one holds is a run of operations. -/
theorem onward_settle {P : System → Op → Prop} (hdrop : ∀ s t, P s (.drop t)) (s : System)
    (ts d : List Task) : Onward P ⟨s, ts ++ d⟩ ⟨s.settle ts, d⟩ := by
  induction ts generalizing s with
  | nil =>
    rw [System.settle]
    exact .refl
  | cons t ts ih =>
    have hfirst := (Onward.refl (P := P) (w := ⟨s, t :: (ts ++ d)⟩)).act (hdrop s t)
    unfold World.act at hfirst
    dsimp only at hfirst
    rw [if_pos List.mem_cons_self, List.erase_cons_head] at hfirst
    rw [← List.singleton_append, System.settle_append]
    exact hfirst.trans (ih _)

theorem guides_restlessVisitor :
    Guides (fun _ op => ¬ op.Attaches) (fun mine => mine) restlessVisitor := by
  intro v s mine d _
  cases v with
  | process p => exact onward_settle (fun _ _ => id) s mine d
  | job j =>
    have hcreate : ¬ (Op.createJob 1024).Attaches := id
    have hact := (Onward.refl (P := fun _ op => ¬ op.Attaches) (w := ⟨s, mine ++ d⟩)).act hcreate
    unfold restlessVisitor
    unfold World.act World.after at hact ⊢
    dsimp only at hact ⊢
    generalize s.createJob 1024 = r at hact ⊢
    obtain ⟨k | k, t⟩ := r <;> exact hact

/-- The client gives up everything at the first visit and makes new jobs at the others.  What the
level showed is visited all the same, and the new jobs are not. -/
theorem Ran.walk_sound_of_restless :
    let s := (run cousinOps).system
    let r := s.walk .generous 1024 true (Walk.logging restlessVisitor) ((run cousinOps).dues, [])
    WalkSound s .generous 1024 true restlessVisitor (run cousinOps).dues ∧
      s.shown 1024 = [.process 1025, .job 1026, .job 1029] ∧
      r.2.2.2.map Call.visit = [.process 1025, .job 1026, .job 1029] ∧
      r.2.2.1 = [.release (.object 1031), .release (.object 1030)] := by
  have hran : Ran (fun _ op => ¬ op.Attaches)
      ⟨(run cousinOps).system, (run cousinOps).dues ++ []⟩ := by
    rw [List.append_nil]
    exact ran_cousins
  exact ⟨@Ran.walk_sound _ (fun mine => mine) _ _ _ _ hran guides_restlessVisitor .generous 1024
    true, by cbv, by cbv, by cbv⟩

end World

end KernelObjects
