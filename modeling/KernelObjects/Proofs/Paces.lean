import KernelObjects.Proofs.Beats

/-
# Operations, pace by pace

Some properties speak of single things that happen inside of an operation: a child leaves its job,
a job dies, a job is destroyed.  One operation may do many of them, one after the other.  A *pace*
is the smallest unit that such a property can tell apart, always a function of the object layer as
it stands (`System.Pace`).  Paces are listed with the states before and after them
(`System.Paces`).

Most operations do one thing and are one pace themselves (`Op.AtOnce`).  The others enter
something and offer it around, give something back, kill or walk, and all of that is paces
(`World.exists_route`).  A *journey* is a run with the route of each of its operations written
down, so that what happened on the way can be looked up and counted.  Every run is a journey
(`World.Onward.journey`).

A destruction is more than one pace.  The object goes, then it is taken off the list of its
parent, then the loss is booked: the second may be the death of the parent, and what is counted at
that moment must not be mixed up with what is counted when the object goes.  Those tasks that fell
a job or a process are therefore taken apart (`Fells`), and all other tasks are left whole.

A run may have several journeys.  Which one is taken does not matter, since what is counted along
a journey is claimed of every one of them.
-/

namespace KernelObjects

/-! ## 1. Paces

Each pace is a function of the object layer as it is, with the condition under which it is
called. -/

/-- Operations that do one thing, from which nothing follows. -/
def Op.AtOnce : Op → Prop
  | createJob .. | createProcess .. | createView .. | drop .. | makeFromKernel .. | tableAdd ..
  | tableDuplicate .. | tableClear .. | killJob .. | killProcess .. | enforcePolicy ..
  | resetPort .. => False
  | _ => True

/-- What other operations do on their way as well. -/
def Op.Helps : Op → Prop
  | openSharedArena | makeHandle .. | attachProcess .. | zeroHandles .. | dropReports ..
  | setUserId .. | setWatcher .. => True
  | _ => False

namespace System

/-- Whether a task gives back the last reference to a job or to a process. -/
def Fells (s : System) (x : Task) : Prop :=
  ∃ k, x = .release (.object k) ∧ s.refCount (.object k) = 1 ∧
    (s.jobs.contains k ∨ s.processes.contains k)

/-- One pace of an operation. -/
inductive Pace (op : Op) : System → System → Prop
  /-- An operation that does one thing, whatever is held. -/
  | help {s : System} {d : List Task} {aux : Op} (h : aux.Helps) :
      Pace op s (World.act ⟨s, d⟩ aux).system
  | share {s : System} {r : Ref} (h : s.Present r) : Pace op s (s.retain r)
  /-- A task that destroys no job and no process. -/
  | perform {s : System} {x : Task} (h : ¬ s.Fells x) : Pace op s (s.perform x).1
  /-- The record of a job whose last reference is given back. -/
  | jobGone {s : System} {k : Koid} {j : Job} (h : s.refCount (.object k) = 1)
      (hj : s.jobs[k]? = some j) :
      Pace op s { s with
        refs := s.refs.release (.object k)
        objects := s.objects.erase k
        jobs := s.jobs.erase k }
  | processGone {s : System} {k : Koid} {p : Process} (h : s.refCount (.object k) = 1)
      (hj : s.jobs[k]? = none) (hp : s.processes[k]? = some p) :
      Pace op s { s with
        refs := s.refs.release (.object k)
        objects := s.objects.erase k
        processes := s.processes.erase k }
  /-- A job that is gone is taken off the list of its parent. -/
  | jobLeft {s : System} {k c : Koid} (hc : s.jobs[c]? = none) : Pace op s (s.detachJob k c)
  | processLeft {s : System} {k p : Koid} : Pace op s (s.detachProcess k p)
  /-- The end of a job or a process goes into the books. -/
  | booked {s : System} (k : Koid) (counters : Counters) (registry : List Koid) :
      Pace op s (log { s with counters, registry } (.destroyed k none))
  | emptied {s : System} {t : TableId} {table : Table} (ht : s.tables[t]? = some table) :
      Pace op s (s.emptied t table)
  | ended {s : System} {k : Koid} {p : Process} (code : Int) (hp : s.processes[k]? = some p)
      (hr : p.state = .running) : Pace op s (s.endProcess code k)
  | condemned {s : System} {k : Koid} {j : Job} (code : Int) (hj : s.jobs[k]? = some j)
      (hr : j.state = .ready) : Pace op s (s.commitKill code k j)
  | jobBorn {s : System} {p : Koid} {q : Job} {height : Nat} (hn : s.jobs[s.nextKoid]? = none)
      (hq : s.jobs[p]? = some q) (hh : q.maxHeight = height + 1) :
      Pace op s (s.addJob
        { parent := some p, maxHeight := height, name := Name.blank, policy := q.policy }).2
  | jobListed {s : System} {k c : Koid} : Pace op s (s.attachJob k c).2
  | processBorn {s : System} {job : Koid} {j : Job} (name : Name) (hj : s.jobs[job]? = some j) :
      Pace op s (s.enterProcess job name j.policy)
  | viewBorn {s : System} {v : VmoId} (hv : s.vmos.contains v) :
      Pace op s (bump (s.withView .noClones { vmo := v }) .viewCreate)
  /-- A table takes in a handle. -/
  | adopted {s : System} {t : TableId} {table : Table} {h : HandleId} {r : Handle}
      (ht : s.tables[t]? = some table) (hh : s.handles[h]? = some r) :
      Pace op s ((s.setProcess table.process h).setOwned t (table.owned.insert r.base h))
  /-- A port is taken out of its slot and told so. -/
  | unbound {s : System} {refuses : Allocator} {k : Koid} {j : Job} {p : PortId} {debugger : Bool}
      (hop : op = .resetPort refuses k debugger) (hj : s.jobs[k]? = some j)
      (hp : j.slot debugger = some p) :
      Pace op s ((s.modifyJob k (·.clearSlot debugger)).unbindPort p)

/-- Paces one after the other, each with the states before and after it. -/
inductive Paces (op : Op) : System → List (System × System) → System → Prop
  | nil {s : System} : Paces op s [] s
  | cons {s t u : System} {es : List (System × System)} (h : Pace op s t) (rest : Paces op t es u) :
      Paces op s ((s, t) :: es) u

/-- Whether paces of an operation lead from one state to another. -/
def Paced (op : Op) (s t : System) : Prop := ∃ es, Paces op s es t

variable {op : Op} {s t u : System} {es fs : List (System × System)}

/-- Paces can be joined. -/
theorem Paces.append (h : Paces op s es t) (h' : Paces op t fs u) : Paces op s (es ++ fs) u := by
  induction h with
  | nil => exact h'
  | cons hpace _ ih => exact .cons hpace (ih h')

namespace Paced

theorem refl : Paced op s s := ⟨[], .nil⟩

theorem pace (h : Pace op s t) : Paced op s t := ⟨_, .cons h .nil⟩

/-- Whoever gets somewhere at a pace goes on from there. -/
theorem trans (h : Paced op s t) (h' : Paced op t u) : Paced op s u := by
  obtain ⟨es, hes⟩ := h
  obtain ⟨fs, hfs⟩ := h'
  exact ⟨es ++ fs, hes.append hfs⟩

/-- An auxiliary operation is a pace. -/
theorem help (d : List Task) (aux : Op) (h : aux.Helps) :
    Paced op s (World.act ⟨s, d⟩ aux).system :=
  pace (.help h)

end Paced

/-! ## 2. What follows from tasks

A run over tasks is the list of its tasks, each of them one pace unless it fells a job or a
process. -/

/-- A job that goes, goes before its parent forgets it, and is written off last. -/
theorem destroyJob_paced {k : Koid} {j : Job} (h : s.refCount (.object k) = 1)
    (hj : s.jobs[k]? = some j) : Paced op s (s.perform (.release (.object k))).1 := by
  have hgone : Pace op s _ := .jobGone h hj
  set t : System := { s with
    refs := s.refs.release (.object k)
    objects := s.objects.erase k
    jobs := s.jobs.erase k }
  -- The destructor as three steps in a row, of which the middle one is missing for a root job.
  have hperform : (s.perform (.release (.object k))).1 =
      (((j.parent.elim t fun p => t.detachJob p k).unregister k).bump .jobDestroy).log
        (.destroyed k none) := by
    unfold perform
    dsimp only
    rw [h]
    dsimp only [destroy]
    unfold destroyObject
    dsimp only
    rw [hj]
    dsimp only
    cases j.parent <;> rfl
  have hbooked : ∀ u : System,
      Paced op u (((u.unregister k).bump .jobDestroy).log (.destroyed k none)) := fun u =>
    .pace (.booked k (u.counters.bump .jobDestroy) (u.registry.filter (· ≠ k)))
  rw [hperform]
  refine .trans (.pace hgone) (.trans ?_ (hbooked _))
  cases j.parent with
  | none => exact .refl
  | some p =>
    refine .pace (.jobLeft ?_)
    show (s.jobs.erase k)[k]? = none
    rw [Store.getElem?_erase, if_pos rfl]

/-- A process is out of the system before its job lets go of it, and the loss is booked last. -/
theorem destroyProcess_paced {k : Koid} {p : Process} (h : s.refCount (.object k) = 1)
    (hj : s.jobs[k]? = none) (hp : s.processes[k]? = some p) :
    Paced op s (s.perform (.release (.object k))).1 := by
  have hgone : Pace op s _ := .processGone h hj hp
  set t : System := { s with
    refs := s.refs.release (.object k)
    objects := s.objects.erase k
    processes := s.processes.erase k }
  have hperform : (s.perform (.release (.object k))).1 =
      ((t.detachProcess p.job k).bump .processDestroy).log (.destroyed k none) := by
    unfold perform
    dsimp only
    rw [h]
    dsimp only [destroy]
    unfold destroyObject
    dsimp only
    rw [hj, hp]
  have hbooked : ∀ u : System, Paced op u ((u.bump .processDestroy).log (.destroyed k none)) :=
    fun u => .pace (.booked k (u.counters.bump .processDestroy) u.registry)
  rw [hperform]
  exact .trans (.pace hgone) (.trans (.pace .processLeft) (hbooked _))

/-- **What one task does is a list of paces.** -/
theorem perform_paced (s : System) (x : Task) : Paced op s (s.perform x).1 := by
  by_cases hx : s.Fells x
  · obtain ⟨k, rfl, h, hk⟩ := hx
    cases hj : s.jobs[k]? with
    | some j => exact destroyJob_paced h hj
    | none =>
      cases hp : s.processes[k]? with
      | some p => exact destroyProcess_paced h hj hp
      | none => simp [Store.contains_eq_isSome, hj, hp] at hk
  · exact .pace (.perform hx)

/-! ## 3. Chores

A chore that is more than one pace is the end of a job or of a process; here these are taken
apart. -/

/-- A handle that is made takes three references and a slot. -/
theorem makeHandle_paced {k : Koid} (hk : s.Present (.object k)) (arena : ArenaId) (rights : Rights)
    (mayGrow : Bool) : Paced op s (s.makeHandle arena k rights mayGrow).2 := by
  have hhelp : Paced op s (World.act ⟨s, []⟩ (.makeHandle arena k rights mayGrow)).system :=
    .help [] (.makeHandle arena k rights mayGrow) trivial
  unfold World.act at hhelp
  dsimp only at hhelp
  rw [if_pos hk] at hhelp
  generalize s.makeHandle arena k rights mayGrow = r at hhelp ⊢
  obtain ⟨_ | _, t⟩ := r <;> exact hhelp

end System

/-- **Every chore is a list of paces.** -/
theorem Chore.paced {op : Op} {v w : World} (h : Chore op v w) :
    System.Paced op v.system w.system := by
  cases h with
  | reorder => exact .refl
  | share h => exact .pace (.share h)
  | @perform s d x => exact s.perform_paced x
  | emptied ht => exact .pace (.emptied ht)
  | ended _ hp hr => exact .pace (.ended _ hp hr)
  | left => exact .pace .processLeft
  | condemned _ hj hr => exact .pace (.condemned _ hj hr)
  | told k => exact .help [] (.zeroHandles k) trivial
  | made arena rights mayGrow hk =>
    rw [World.system_after]
    exact System.makeHandle_paced hk arena rights mayGrow
  | adopted ht hh => exact .pace (.adopted ht hh)
  | unslotted hop hj hp => exact .pace (.unbound hop hj hp)
  | dropped p k => exact .help [] (.dropReports p k) trivial

/-- Chores are done at a pace each. -/
theorem Chores.paced {op : Op} {v w : World} (h : Chores op v w) :
    System.Paced op v.system w.system := by
  induction h with
  | refl => exact .refl
  | tail _ hchore ih => exact ih.trans hchore.paced

namespace System

variable {op : Op} {s : System}

/-- What follows from giving back is done at a pace each. -/
theorem release_paced (s : System) (r : Ref) : Paced op s (s.release r) :=
  (s.release_chores r [] : Chores op _ _).paced

/-! ## 4. What is entered and offered

A creation is a birth and an offer, and what follows if the offer is turned down. -/

/-- A child that is turned down is destroyed at a pace of its own. -/
theorem createJob_paced {d : List Task} (hacc : Accounted s d) (parent : Koid) :
    Paced op s (s.createJob parent).2 := by
  have hborn : ∀ {q : Job} {height : Nat}, s.jobs[parent]? = some q → q.maxHeight = height + 1 →
      Paced op s (s.addChild parent q height) :=
    fun hq hh => .pace (.jobBorn hacc.fresh_object.2.1 hq hh)
  have hcreation := createJob_creation hacc parent
  generalize s.createJob parent = r at hcreation
  cases hcreation with
  | absent | low => exact .refl
  | taken hq hh => exact (hborn hq hh).trans (.pace .jobListed)
  | untaken hq hh => exact (hborn hq hh).trans (release_paced _ _)

/-- The same of a process. -/
theorem createProcess_paced (s : System) (job : Koid) (name : Name) :
    Paced op s (s.createProcess job name).2 := by
  have hcreation := s.createProcess_creation job name
  generalize s.createProcess job name = r at hcreation
  cases hcreation with
  | absent => exact .refl
  | offered hoffer =>
    have hopened : Paced op s s.openSharedArena := .help [] .openSharedArena trivial
    refine hopened.trans ?_
    generalize s.openSharedArena = t at hoffer
    have hborn : ∀ {j : Job}, t.jobs[job]? = some j →
        Paced op t (t.enterProcess job name j.policy) := fun hj => .pace (.processBorn name hj)
    cases hoffer with
    | taken hj => exact (hborn hj).trans (.help [] (.attachProcess job t.nextKoid) trivial)
    | untaken hj => exact (hborn hj).trans (release_paced _ _)

/-- The same of a view. -/
theorem createView_paced (s : System) (v : VmoId) : Paced op s (s.createView v).2 := by
  have hborn : ∀ {o : Vmo}, s.vmos[v]? = some o → Paced op s (s.enterView v) :=
    fun ho => .pace (.viewBorn (Store.contains_iff.2 ⟨_, ho⟩))
  have hcreation := s.createView_creation v
  generalize s.createView v = r at hcreation
  cases hcreation with
  | absent => exact .refl
  | stamped ho => exact (hborn ho).trans (release_paced _ _)
  | taken ho =>
    exact (hborn ho).trans (.trans (.help [] (.setUserId v s.nextKoid) trivial)
      (.help [] (.setWatcher v (some (.view s.nextKoid))) trivial))

end System

/-! ## 5. Routes

What an operation did is its route: the operation as it stands, or a list of paces. -/

namespace World

/-- The route of an operation: the operation itself, or paces if it does several things. -/
inductive Route (w : World) (op : Op) : List (System × System) → Prop
  | once (h : op.AtOnce) : Route w op [(w.system, (w.act op).system)]
  | paces {es : List (System × System)} (h : ¬ op.AtOnce)
      (hes : System.Paces op w.system es (w.act op).system) : Route w op es

/-- **Every operation has a route.** -/
theorem exists_route {w : World} (hacc : Accounted w.system w.dues) (op : Op) :
    ∃ es, w.Route op es := by
  obtain ⟨s, d⟩ := w
  have hacc : Accounted s d := hacc
  have paced : ∀ {op : Op}, ¬ op.AtOnce → System.Paced op s (World.act ⟨s, d⟩ op).system →
      ∃ es, Route ⟨s, d⟩ op es := fun hop ⟨es, hes⟩ => ⟨es, .paces hop hes⟩
  have chored : ∀ {op : Op}, op.DoesChores → System.Paced op s (World.act ⟨s, d⟩ op).system :=
    fun hop => (act_chores (w := ⟨s, d⟩) hacc hop).paced
  cases op with
  | createJob parent =>
    refine paced id ?_
    rw [act, system_after]
    exact System.createJob_paced hacc parent
  | createProcess job name =>
    refine paced id ?_
    rw [act, system_after]
    exact s.createProcess_paced job name
  | createView v =>
    refine paced id ?_
    rw [act, system_after]
    exact s.createView_paced v
  | drop | makeFromKernel | tableAdd | tableDuplicate | tableClear | killJob | killProcess
  | enforcePolicy | resetPort => exact paced id (chored trivial)
  | _ => exact ⟨_, .once trivial⟩

/-! ## 6. Journeys

A run with the paces of all its operations written down, one after the other. -/

/-- One operation of a journey, with the state in which it was done and its route. -/
structure Leg where
  start : World
  op : Op
  route : List (System × System)

/-- A run by operations that keep to a rule, with all that happened on the way. -/
inductive Journey (P : System → Op → Prop) (w : World) : List Leg → World → Prop
  | refl : Journey P w [] w
  | act {v : World} {ls : List Leg} {op : Op} {es : List (System × System)} (h : Journey P w ls v)
      (hop : P v.system op) (hes : v.Route op es) : Journey P w (ls ++ [⟨v, op, es⟩]) (v.act op)
  /-- The dues stand in no order. -/
  | reorder {s : System} {d e : List Task} {ls : List Leg} (h : Journey P w ls ⟨s, d⟩)
      (hp : d.Perm e) : Journey P w ls ⟨s, e⟩

/-- All that happened on a journey, one thing after the other. -/
def along (ls : List Leg) : List (System × System) := ls.flatMap Leg.route

/-- The route of a run is that of its legs. -/
theorem along_concat (ls : List Leg) (l : Leg) : along (ls ++ [l]) = along ls ++ l.route := by
  simp [along]

/-- Where something stands in a history with one more entry at its end. -/
theorem split_concat {α : Type} {xs as bs : List α} {x y : α} (h : xs ++ [x] = as ++ y :: bs) :
    (as = xs ∧ y = x ∧ bs = []) ∨ ∃ cs, bs = cs ++ [x] ∧ xs = as ++ y :: cs := by
  rcases List.eq_nil_or_concat bs with rfl | ⟨cs, z, rfl⟩
  · obtain ⟨rfl, hlast⟩ := List.append_inj' h rfl
    exact .inl ⟨rfl, (List.head_eq_of_cons_eq hlast).symm, rfl⟩
  · rw [List.concat_eq_append, ← List.cons_append, ← List.append_assoc] at h
    obtain ⟨rfl, hlast⟩ := List.append_inj' h rfl
    obtain rfl : x = z := List.head_eq_of_cons_eq hlast
    exact .inr ⟨cs, List.concat_eq_append, rfl⟩

variable {P Q : System → Op → Prop} {w u : World} {ls : List Leg}

/-- A run with its route written down is a run. -/
theorem Journey.onward (h : w.Journey P ls u) : w.Onward P u := by
  induction h with
  | refl => exact .refl
  | act _ hop _ ih => exact ih.act hop
  | reorder _ hp ih => exact ih.reorder hp

/-- **Every run is a journey.** -/
theorem Onward.journey (h : w.Onward P u) (hw : w.Ran Q) : ∃ ls, w.Journey P ls u := by
  induction h with
  | refl => exact ⟨[], .refl⟩
  | act h hop ih =>
    obtain ⟨ls, hls⟩ := ih
    obtain ⟨es, hes⟩ := exists_route (h.ran_any hw).passed.accounted _
    exact ⟨_, hls.act hop hes⟩
  | reorder _ hp ih =>
    obtain ⟨ls, hls⟩ := ih
    exact ⟨ls, hls.reorder hp⟩

/-- What operations lead to is reached from the start, -/
theorem Ran.onward (h : w.Ran P) : Onward P {} w := by
  induction h with
  | start => exact .refl
  | act _ hop ih => exact ih.act hop
  | reorder _ hp ih => exact ih.reorder hp

/-- and there is a route. -/
theorem Ran.journey (h : w.Ran P) : ∃ ls, Journey P {} ls w := h.onward.journey (Q := P) .start

end World

end KernelObjects
