import Mathlib.Logic.Relation
import KernelObjects.Proofs.Inert

/-
# How things decline

Killing and destroying are long chains of small changes, and the chains differ with what refers to
what.  The small changes are few: a record goes when the last reference to it is given back, a job
fades, a process ends, a list or a table gets shorter.  `Decline` names them all, one constructor
each.  Every operation that kills or destroys is a run of them (`settle_declines`,
`killProcess_declines`, ...), so whatever one such change preserves the operations preserve, and
nobody has to take the operations apart again.

Beside the state stand the *dues*: the references, handles and tables that somebody still has to
give back.  Giving something back takes it off the dues and puts there what follows from it, so in
every moment the counts in the state can be compared with the dues.

Two bounds go with a decline.  `K` are the jobs that may stop being ready in it and `P` the
processes that may end, so that a decline with empty bounds is a destruction, and one that is
bounded by a tree of jobs is a kill inside of that tree.  Bounds are part of the constructors and
not a property to be shown later: a kill decides on the spot whom it kills.

Each constructor asks for what the program has checked at that point, and for no more.  A record
goes only at the count one (`job`, `process`, `view`, ...), a process is taken off a list only if
it does not run, a job only if it is gone.  These guards are what the invariants live on.
-/

namespace KernelObjects

/-- The object layer together with what is still to be given back. -/
structure World where
  system : System := .initial
  dues : List Task := []

/-- Whether the record of what a reference refers to is there. -/
def System.Present (s : System) : Ref → Prop
  | .object k =>
    s.jobs.contains k ∨ s.processes.contains k ∨ s.views.contains k ∨ s.witnesses.contains k
  | .handle h => s.handles.contains h
  | .vmo v => s.vmos.contains v
  | .mapping m => s.mappings.contains m
  | .listener o => s.listeners.contains o

/-! ## 1. Single changes

The guards of the constructors are what the object layer has checked by then, and what the
invariants need. -/

/-- What may happen to a job that is there: only a job of `K` stops being ready. -/
inductive Job.Fades (s : System) (K : Koid → Prop) (k : Koid) : Job.Kin → Job.Kin → Prop
  | condemned {a : Job.Kin} (hk : K k) (ha : a.state = .ready) :
      Fades s K k a { a with state := .killing }
  | buried {a : Job.Kin} (ha : a.state = .killing) : Fades s K k a { a with state := .dead }
  | jobGone {a : Job.Kin} {c : Koid} (hc : s.jobs[c]? = none) :
      Fades s K k a { a with jobs := a.jobs.erase c }
  | processGone {a : Job.Kin} {p : Koid}
      (hp : ∀ q, s.processes[p]? = some q → q.state = .dead) :
      Fades s K k a { a with processes := a.processes.erase p }

namespace System

/-- The state after the last reference to a VM object is gone: the list of all and its parent do not
list it any more and its family does not know it. -/
def withoutVmo (s : System) (v : VmoId) (o : Vmo) : System :=
  let s : System := { s with
    refs := s.refs.release (.vmo v)
    vmos := s.vmos.erase v
    vmoList := s.vmoList.erase v }
  let s := match o.parent with
    | none => s
    | some p => s.dropClone p v
  { s with families := s.families.modify o.family fun f => f.erase v }

/-- An object that goes leaves its own store, the list of all and its family; of the rest only lists
of clones change. -/
theorem withoutVmo_eq (s : System) (v : VmoId) (o : Vmo) :
    ∃ families : Store Family, s.withoutVmo v o =
        { s with
          refs := s.refs.release (.vmo v)
          vmos := s.vmos.erase v
          vmoList := s.vmoList.erase v
          families } ∧
      ∀ f : Nat, families.contains f = s.families.contains f := by
  unfold withoutVmo
  dsimp only
  split
  · exact ⟨_, rfl, fun f => Store.contains_modify _ _ _ f⟩
  · rename_i p _
    obtain ⟨families, h, hf⟩ := dropClone_eq { s with
      refs := s.refs.release (.vmo v)
      vmos := s.vmos.erase v
      vmoList := s.vmoList.erase v } p v
    rw [h]
    exact ⟨_, rfl, fun f => (Store.contains_modify _ _ _ f).trans (hf f)⟩

/-- The state after a handle was deleted from its arena. -/
def withoutSlot (s : System) (r : Handle) : System :=
  { s with
    arenas := s.arenas.modify r.arena fun a => a.erase r.base
    objects := s.objects.modify r.object fun o => { o with handles := o.handles - 1 } }

end System

/-- One change by which things decline.  Only jobs of `K` stop being ready and only processes of
`P` end. -/
inductive Decline (K P : Koid → Prop) : World → World → Prop
  | inert {s t : System} {d : List Task} (h : Inert s t) : Decline K P ⟨s, d⟩ ⟨t, d⟩
  /-- The dues stand in no order. -/
  | reorder {s : System} {d d' : List Task} (h : d.Perm d') : Decline K P ⟨s, d⟩ ⟨s, d'⟩
  | share {s : System} {d : List Task} {r : Ref} (h : s.Present r) :
      Decline K P ⟨s, d⟩ ⟨s.retain r, .release r :: d⟩
  | unshare {s : System} {d : List Task} {r : Ref} (h : 1 < s.refCount r) :
      Decline K P ⟨s, .release r :: d⟩ ⟨{ s with refs := s.refs.release r }, d⟩
  | job {s : System} {d : List Task} {k : Koid} {j : Job} (h : s.refCount (.object k) = 1)
      (hj : s.jobs[k]? = some j) :
      Decline K P ⟨s, .release (.object k) :: d⟩
        ⟨{ s with
            refs := s.refs.release (.object k)
            objects := s.objects.erase k
            jobs := s.jobs.erase k },
          (j.parent.toList.map fun p => .release (.object p)) ++ d⟩
  | process {s : System} {d : List Task} {k : Koid} {p : Process}
      (h : s.refCount (.object k) = 1) (hj : s.jobs[k]? = none) (hp : s.processes[k]? = some p) :
      Decline K P ⟨s, .release (.object k) :: d⟩
        ⟨{ s with
            refs := s.refs.release (.object k)
            objects := s.objects.erase k
            processes := s.processes.erase k },
          .release (.object p.job) :: .closeTable p.table :: d⟩
  | view {s : System} {d : List Task} {k : Koid} {v : View} (h : s.refCount (.object k) = 1)
      (hj : s.jobs[k]? = none) (hp : s.processes[k]? = none) (hv : s.views[k]? = some v) :
      Decline K P ⟨s, .release (.object k) :: d⟩
        ⟨{ s with
            refs := s.refs.release (.object k)
            objects := s.objects.erase k
            views := s.views.erase k },
          .release (.vmo v.vmo) :: d⟩
  | witness {s : System} {d : List Task} {k : Koid} (h : s.refCount (.object k) = 1)
      (hj : s.jobs[k]? = none) (hp : s.processes[k]? = none) (hv : s.views[k]? = none) :
      Decline K P ⟨s, .release (.object k) :: d⟩
        ⟨{ s with
            refs := s.refs.release (.object k)
            objects := s.objects.erase k
            witnesses := s.witnesses.erase k }, d⟩
  | handle {s : System} {d : List Task} {h : HandleId} {r : Handle}
      (h1 : s.refCount (.handle h) = 1) (hh : s.handles[h]? = some r) :
      Decline K P ⟨s, .release (.handle h) :: d⟩
        ⟨{ s with refs := s.refs.release (.handle h), handles := s.handles.erase h },
          .release (.object r.object) :: d⟩
  | vmo {s : System} {d : List Task} {v : VmoId} {o : Vmo} (h : s.refCount (.vmo v) = 1)
      (ho : s.vmos[v]? = some o) :
      Decline K P ⟨s, .release (.vmo v) :: d⟩
        ⟨s.withoutVmo v o, (o.parent.toList.map fun p => .release (.vmo p)) ++ d⟩
  | mapping {s : System} {d : List Task} {m : MappingId} (h : s.refCount (.mapping m) = 1) :
      Decline K P ⟨s, .release (.mapping m) :: d⟩
        ⟨{ s with refs := s.refs.release (.mapping m), mappings := s.mappings.erase m }, d⟩
  | listener {s : System} {d : List Task} {o : ListenerId}
      (h : s.refCount (.listener o) = 1) :
      Decline K P ⟨s, .release (.listener o) :: d⟩
        ⟨{ s with refs := s.refs.release (.listener o), listeners := s.listeners.erase o }, d⟩
  /-- There is no reference to give back. -/
  | idle {s : System} {d : List Task} {r : Ref} (h : s.refCount r = 0) :
      Decline K P ⟨s, .release r :: d⟩ ⟨s, d⟩
  /-- The last reference to something without a record. -/
  | void {s : System} {d : List Task} {r : Ref} (h : s.refCount r = 1) (hr : ¬ s.Present r) :
      Decline K P ⟨s, .release r :: d⟩ ⟨{ s with refs := s.refs.release r }, d⟩
  | closed {s : System} {d : List Task} {h : HandleId} (hh : s.handles[h]? = none) :
      Decline K P ⟨s, .close h :: d⟩ ⟨s, d⟩
  | close {s : System} {d : List Task} {h : HandleId} {r : Handle}
      (hh : s.handles[h]? = some r) :
      Decline K P ⟨s, .close h :: d⟩
        ⟨s.withoutSlot r, .release (.handle h) :: .release (.handle h) :: d⟩
  | shut {s : System} {d : List Task} {t : TableId} (ht : s.tables[t]? = none) :
      Decline K P ⟨s, .closeTable t :: d⟩ ⟨s, d⟩
  | closeTable {s : System} {d : List Task} {t : TableId} {table : Table}
      (ht : s.tables[t]? = some table) :
      Decline K P ⟨s, .closeTable t :: d⟩
        ⟨{ s with tables := s.tables.erase t }, table.owned.values.map .close ++ d⟩
  | emptyTable {s : System} {d : List Task} {t : TableId} {table : Table}
      (ht : s.tables[t]? = some table) :
      Decline K P ⟨s, d⟩ ⟨s.setOwned t ∅, table.owned.values.map .close ++ d⟩
  | fades {s : System} {d : List Task} {k : Koid} {j : Job} {f : Job → Job}
      (hj : s.jobs[k]? = some j) (h : Job.Fades s K k j.kin (f j).kin) :
      Decline K P ⟨s, d⟩ ⟨s.modifyJob k f, d⟩
  | ends {s : System} {d : List Task} {k : Koid} {p : Process} {f : Process → Process}
      (hp : s.processes[k]? = some p) (hk : P k) (h : (f p).kin = { p.kin with state := .dead }) :
      Decline K P ⟨s, d⟩ ⟨s.modifyProcess k f, d⟩

/-- A run of changes by which things decline. -/
abbrev Declines (K P : Koid → Prop) : World → World → Prop := Relation.ReflTransGen (Decline K P)

variable {K P : Koid → Prop}

/-- What is inert is a decline. -/
theorem Inert.declines {s t : System} (h : Inert s t) (d : List Task) :
    Declines K P ⟨s, d⟩ ⟨t, d⟩ := .single (.inert h)

/-- A job that fades within one bound fades within a wider one. -/
theorem Job.Fades.mono {s : System} {K' : Koid → Prop} {k : Koid} {a b : Job.Kin}
    (h : Job.Fades s K k a b) (hK : ∀ k, K k → K' k) : Job.Fades s K' k a b := by
  cases h with
  | condemned hk ha => exact .condemned (hK k hk) ha
  | buried ha => exact .buried ha
  | jobGone hc => exact .jobGone hc
  | processGone hp => exact .processGone hp

/-- Allowing more leaves every run a run. -/
theorem Declines.mono {K' P' : Koid → Prop} {w w' : World} (h : Declines K P w w')
    (hK : ∀ k, K k → K' k) (hP : ∀ p, P p → P' p) : Declines K' P' w w' := by
  refine Relation.ReflTransGen.mono (fun a b hab => ?_) _ _ h
  -- Only fading and ending ask whether they are allowed; the other steps are taken over as they
  -- are.
  cases hab with
  | fades hj hf => exact .fades hj (hf.mono hK)
  | ends hp hk hf => exact .ends hp (hP _ hk) hf
  | inert h => exact .inert h
  | reorder h => exact .reorder h
  | share h => exact .share h
  | unshare h => exact .unshare h
  | job h hj => exact .job h hj
  | process h hj hp => exact .process h hj hp
  | view h hj hp hv => exact .view h hj hp hv
  | witness h hj hp hv => exact .witness h hj hp hv
  | handle h hh => exact .handle h hh
  | vmo h ho => exact .vmo h ho
  | mapping h => exact .mapping h
  | listener h => exact .listener h
  | idle h => exact .idle h
  | void h hr => exact .void h hr
  | closed hh => exact .closed hh
  | close hh => exact .close hh
  | shut ht => exact .shut ht
  | closeTable ht => exact .closeTable ht
  | emptyTable ht => exact .emptyTable ht

namespace System

/-! ## 2. Jobs whose children leave

A job may die of the loss of a child.  It was condemned before that, so its death needs no leave
of `K`. -/

/-- The death of a job that is being killed. -/
theorem markDead_declines {s : System} {k : Koid} {j : Job} (hj : s.jobs[k]? = some j)
    (hk : j.state = .killing) (d : List Task) : Declines K P ⟨s, d⟩ ⟨s.markDead k, d⟩ := by
  unfold markDead
  rw [hj]
  have hdies : Decline K P ⟨s, d⟩
      ⟨s.modifyJob k fun j => { j with state := .dead, port := none, debuggerPort := none }, d⟩ :=
    .fades hj (.buried hk)
  refine .head hdies (Inert.declines ?_ d)
  refine .trans (.trans ?_ (inert_signal _ _ _ _)) (inert_log _ _)
  exact .trans (inert_unbindSlot _ j.port) (inert_unbindSlot _ j.debuggerPort)

/-- The loss of a child writes to the record of one job, and its death and halt are on the way of a
decline. -/
theorem childLeft_declines (s : System) (k : Koid) (d : List Task) :
    Declines K P ⟨s, d⟩ ⟨s.childLeft k, d⟩ := by
  unfold childLeft
  split
  · exact .refl
  · rename_i j hj
    dsimp only
    -- first the job may die, and what comes after that is inert
    refine .trans (b := ⟨if (j.processes.isEmpty && j.jobs.isEmpty) && j.state = .killing
      then s.markDead k else s, d⟩) ?_ (Inert.declines ?_ d)
    · split
      · rename_i h
        simp only [Bool.and_eq_true, decide_eq_true_eq] at h
        exact markDead_declines hj h.2 d
      · exact .refl
    · generalize (if (j.processes.isEmpty && j.jobs.isEmpty) && j.state = .killing
        then s.markDead k else s) = t
      split
      · refine .trans (.trans ?_ (inert_signal _ _ _ _)) (inert_halt _ _)
        exact t.inert_modifyJob fun _ _ => rfl
      · exact t.inert_signal _ _ _

/-- A job that is gone may be taken off the list of its parent, -/
theorem detachJob_declines {s : System} {k c : Koid} (hc : s.jobs[c]? = none) (d : List Task) :
    Declines K P ⟨s, d⟩ ⟨s.detachJob k c, d⟩ := by
  unfold detachJob
  split
  · exact .refl
  · rename_i j hj
    split
    · have hgone : Decline K P ⟨s, d⟩
          ⟨s.modifyJob k fun j => { j with jobs := j.jobs.erase c }, d⟩ := .fades hj (.jobGone hc)
      exact .head hgone (childLeft_declines _ k d)
    · exact .refl

/-- and a process that is dead or gone off the list of its job. -/
theorem detachProcess_declines {s : System} {k p : Koid}
    (hp : ∀ q, s.processes[p]? = some q → q.state = .dead) (d : List Task) :
    Declines K P ⟨s, d⟩ ⟨s.detachProcess k p, d⟩ := by
  unfold detachProcess
  split
  · exact .refl
  · rename_i j hj
    split
    · have hgone : Decline K P ⟨s, d⟩
          ⟨s.modifyJob k fun j => { j with processes := j.processes.erase p }, d⟩ :=
        .fades hj (.processGone hp)
      exact .head hgone (childLeft_declines _ k d)
    · exact .refl

/-! ## 3. Destruction

What goes leaves the stores first, and what its record held is due after that.  So whatever is
destroyed next finds no trace of it. -/

/-- What telling a watcher writes. -/
theorem tellWatcher_eq (s : System) (v : VmoId) (b : Bool) :
    ∃ (objects : Store Object) (trace : List Event),
      s.tellWatcher v b = { s with objects, trace } ∧
        ∀ k : Nat, objects[k]?.map Object.handles = s.objects[k]?.map Object.handles := by
  unfold tellWatcher
  split
  · exact ⟨s.objects, s.trace, rfl, fun _ => rfl⟩
  · split
    · cases b
      · exact ⟨_, _, rfl, Store.map_modify fun _ _ => rfl⟩
      · exact ⟨_, _, rfl, Store.map_modify fun _ _ => rfl⟩
    · exact ⟨s.objects, s.trace, rfl, fun _ => rfl⟩
  · split
    · exact ⟨s.objects, s.trace, rfl, fun _ => rfl⟩
    · exact ⟨s.objects, _, rfl, fun _ => rfl⟩

/-- Forgetting a clone drops it and tells the watcher of it, if anybody. -/
theorem forgetClone_eq (s : System) (v c : VmoId) :
    ∃ (objects : Store Object) (trace : List Event),
      s.forgetClone v c = { s.dropClone v c with objects, trace } ∧
        ∀ k : Nat, objects[k]?.map Object.handles =
          (s.dropClone v c).objects[k]?.map Object.handles := by
  obtain he | he := s.forgetClone_cases v c
  · rw [he]
    exact ⟨(s.dropClone v c).objects, (s.dropClone v c).trace, rfl, fun _ => rfl⟩
  · rw [he]
    exact tellWatcher_eq _ v false

/-- The last reference to a VM object goes, then the object, and its reference to its parent is
due. -/
theorem destroyVmo_declines {s : System} {v : VmoId} (h : s.refCount (.vmo v) = 1)
    (d : List Task) :
    Declines K P ⟨s, .release (.vmo v) :: d⟩
      ⟨(destroyVmo { s with refs := s.refs.release (.vmo v) } v).1,
        (destroyVmo { s with refs := s.refs.release (.vmo v) } v).2 ++ d⟩ := by
  unfold destroyVmo
  dsimp only
  cases ho : s.vmos[v]? with
  | none =>
    refine .single (.void h ?_)
    simp [Present, Store.contains_eq_isSome, ho]
  | some o =>
    dsimp only
    cases hp : o.parent with
    | none =>
      have := Decline.vmo (K := K) (P := P) (d := d) h ho
      unfold withoutVmo at this
      simp only [hp] at this
      exact .head this (Inert.declines (inert_log _ _) d)
    | some p =>
      have hstep := Decline.vmo (K := K) (P := P) (d := d) h ho
      unfold withoutVmo at hstep
      simp only [hp] at hstep
      -- The parent drops the clone, and whoever watches it may be told.  The first belongs to the
      -- step itself, the second shows in the signals and the trace only and is inert.
      obtain ⟨objects, trace, he, hs⟩ := forgetClone_eq { s with
        refs := s.refs.release (.vmo v)
        vmos := s.vmos.erase v
        vmoList := s.vmoList.erase v } p v
      dsimp only
      rw [he]
      refine .head hstep (Inert.declines (.trans ?_ (inert_log _ _)) _)
      exact { Inert.refl _ with object := hs }

/-- The same of an object; the cases are jobs, processes, views and witnesses. -/
theorem destroyObject_declines {s : System} {k : Koid} (h : s.refCount (.object k) = 1)
    (d : List Task) :
    Declines K P ⟨s, .release (.object k) :: d⟩
      ⟨(destroyObject { s with refs := s.refs.release (.object k) } k).1,
        (destroyObject { s with refs := s.refs.release (.object k) } k).2 ++ d⟩ := by
  unfold destroyObject
  dsimp only
  -- the stores are asked in the order in which the program asks them; whatever finds the object
  -- first takes it out, and the other stores do not have it
  cases hj : s.jobs[k]? with
  | some j =>
    dsimp only
    have hgone := Decline.job (K := K) (P := P) (d := d) h hj
    cases hp : j.parent with
    | none =>
      rw [hp] at hgone
      refine .head hgone (Inert.declines ?_ d)
      exact ((inert_unregister _ _).trans (inert_bump _ _)).trans (inert_log _ _)
    | some p =>
      rw [hp] at hgone
      refine .trans (.head hgone (detachJob_declines (k := p) (c := k) ?_ _))
        (Inert.declines (((inert_unregister _ _).trans (inert_bump _ _)).trans (inert_log _ _)) _)
      simp
  | none =>
    cases hp : s.processes[k]? with
    | some p =>
      refine .trans (.head (.process h hj hp)
          (detachProcess_declines (k := p.job) (p := k) ?_ _))
        (Inert.declines ((inert_bump _ _).trans (inert_log _ _)) _)
      simp
    | none =>
      cases hv : s.views[k]? with
      | some v =>
        exact .head (.view h hj hp hv)
          (Inert.declines ((inert_bump _ _).trans (inert_log _ _)) _)
      | none =>
        have hgone := Decline.witness (K := K) (P := P) (d := d) h hj hp hv
        cases hw : s.witnesses[k]? with
        | some w => exact .head hgone (Inert.declines (inert_log _ _) _)
        | none =>
          rw [Store.erase_of_none hw] at hgone
          exact .single hgone

/-- The same of all that can be referred to. -/
theorem destroy_declines {s : System} {r : Ref} (h : s.refCount r = 1) (d : List Task) :
    Declines K P ⟨s, .release r :: d⟩
      ⟨(destroy { s with refs := s.refs.release r } r).1,
        (destroy { s with refs := s.refs.release r } r).2 ++ d⟩ := by
  cases r with
  | object k => exact destroyObject_declines h d
  | handle a =>
    unfold destroy
    dsimp only
    cases ha : s.handles[a]? with
    | none =>
      refine .single (.void h ?_)
      simp [Present, Store.contains_eq_isSome, ha]
    | some r => exact .single (.handle h ha)
  | vmo v => exact destroyVmo_declines h d
  | mapping m => exact .single (.mapping h)
  | listener o => exact .single (.listener h)

/-- A close is one decline: two references to the handle are due after it, those of the slot and of
the owner. -/
theorem closeHandle_declines (s : System) (h : HandleId) (d : List Task) :
    Declines K P ⟨s, .close h :: d⟩ ⟨(s.closeHandle h).1, (s.closeHandle h).2 ++ d⟩ := by
  unfold closeHandle
  cases hh : s.handles[h]? with
  | none => exact .single (.closed hh)
  | some r =>
    dsimp only
    refine .head (.close hh) (Inert.declines ?_ _)
    split
    · exact (inert_log _ _).trans (inert_zeroHandles _ _)
    · exact inert_log _ _

/-! ## 4. Runs over tasks

What follows from a task is put in front of the dues and is done before them, so a list of tasks
is worked off from its head.  The induction is on the measure by which that list is known to
end. -/

/-- Doing one task takes it off the dues and puts there what follows from it. -/
theorem perform_declines (s : System) (t : Task) (d : List Task) :
    Declines K P ⟨s, t :: d⟩ ⟨(s.perform t).1, (s.perform t).2 ++ d⟩ := by
  cases t with
  | release r =>
    unfold perform
    dsimp only
    split
    · rename_i h
      exact .single (.idle h)
    · rename_i h
      exact destroy_declines h d
    · rename_i n h
      exact .single (.unshare (by omega))
  | close h => exact closeHandle_declines s h d
  | closeTable t =>
    unfold perform
    dsimp only
    cases ht : s.tables[t]? with
    | none => exact .single (.shut ht)
    | some table => exact .single (.closeTable ht)

/-- Doing tasks with all that follows from them takes them off the dues. -/
theorem settle_declines (s : System) (ts d : List Task) :
    Declines K P ⟨s, ts ++ d⟩ ⟨s.settle ts, d⟩ := by
  fun_induction settle s ts with
  | case1 s => exact .refl
  | case2 s t rest ih =>
    rw [List.append_assoc] at ih
    exact .trans (perform_declines s t (rest ++ d)) ih

/-- So to give back a reference declines. -/
theorem release_declines (s : System) (r : Ref) (d : List Task) :
    Declines K P ⟨s, .release r :: d⟩ ⟨s.release r, d⟩ :=
  settle_declines s [.release r] d

/-- The state after all handles left a table and its process, before the first is closed. -/
def emptied (s : System) (t : TableId) (table : Table) : System :=
  table.owned.values.foldl (setProcess · noProcess ·) (s.setOwned t ∅)

/-- Writing a process into several handles changes nothing but the handles. -/
theorem foldl_setProcess (process : Nat) (hs : List HandleId) (s : System) :
    ∃ handles : Store Handle, hs.foldl (setProcess · process ·) s = { s with handles } ∧
      ∀ x : Nat, handles[x]? = if x ∈ hs then s.handles[x]?.map fun r => { r with process }
        else s.handles[x]? := by
  induction hs generalizing s with
  | nil => exact ⟨s.handles, rfl, fun x => rfl⟩
  | cons h hs ih =>
    obtain ⟨handles, he, hx⟩ := ih (s.setProcess process h)
    refine ⟨handles, he, fun x => ?_⟩
    have hfirst : (s.setProcess process h).handles[x]? =
        if h = x then s.handles[x]?.map fun r => { r with process } else s.handles[x]? :=
      Store.getElem?_modify _ _ _ _
    rw [hx, hfirst]
    by_cases hh : h = x
    · rw [if_pos hh, if_pos (List.mem_cons.2 (.inl hh.symm)), Option.map_map]
      split <;> rfl
    · simp only [if_neg hh, List.mem_cons, Ne.symm hh, false_or]

/-- A table that is emptied takes its stamp off the handles that it owned. -/
theorem emptied_eq (s : System) (t : TableId) (table : Table) :
    ∃ handles : Store Handle, s.emptied t table = { s.setOwned t ∅ with handles } ∧
      ∀ x : Nat, handles[x]? = if x ∈ table.owned.values
        then s.handles[x]?.map fun r => { r with process := noProcess } else s.handles[x]? :=
  foldl_setProcess noProcess table.owned.values (s.setOwned t ∅)

theorem tableClear_of_none {s : System} {t : TableId} (ht : s.tables[t]? = none) :
    (s.tableClear t).2 = s := by
  unfold tableClear
  rw [ht]

/-- All handles leave first, and then they are closed one by one. -/
theorem tableClear_of_some {s : System} {t : TableId} {table : Table}
    (ht : s.tables[t]? = some table) :
    (s.tableClear t).2 = (s.emptied t table).settle (table.owned.values.map Task.close) := by
  unfold tableClear
  rw [ht]
  rfl

/-- The handles that leave are due to be closed, -/
theorem emptied_declines {s : System} {t : TableId} {table : Table}
    (ht : s.tables[t]? = some table) (d : List Task) :
    Declines K P ⟨s, d⟩ ⟨s.emptied t table, table.owned.values.map .close ++ d⟩ :=
  .head (.emptyTable ht)
    (Inert.declines (Inert.foldl (fun s h => s.inert_setProcess noProcess h) _ _) _)

/-- and the closes follow. -/
theorem tableClear_declines (s : System) (t : TableId) (d : List Task) :
    Declines K P ⟨s, d⟩ ⟨(s.tableClear t).2, d⟩ := by
  cases ht : s.tables[t]? with
  | none => rw [tableClear_of_none ht]
  | some table =>
    rw [tableClear_of_some ht]
    exact (emptied_declines ht d).trans (settle_declines _ _ d)

/-- A thing is there or not, however many references there are to it. -/
theorem present_retain {s : System} {r : Ref} (q : Ref) (h : s.Present r) :
    (s.retain q).Present r := by
  cases r <;> exact h

/-- What is there is there after references were taken. -/
theorem present_retainAll {rs : List Ref} {s : System} {r : Ref} (h : s.Present r) :
    (s.retainAll rs).Present r := by
  induction rs generalizing s with
  | nil => exact h
  | cons q rs ih => exact ih (present_retain q h)

end System

end KernelObjects
