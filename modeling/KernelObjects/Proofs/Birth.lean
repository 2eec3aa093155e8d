import KernelObjects.Proofs.Decline

/-
# How things come into being

The counterpart of the declines: records are entered, lists get longer, handles move in and out of
tables.  Together the two name everything that can happen to the part of the state that counts and
trees depend on (`Move`), so an invariant is a property that all moves keep.

Two liberties are set apart, since some properties hold only without them.  A client may list a
process in a job that is not the one it was created in (`A`), and it may write into the lists of
clones without cloning (`C`).

A record is entered complete, under the next number and with the references that it takes, as one
constructor.  What the program does in several assignments inside one function is no matter to an
invariant, because nobody else sees the state between them; what it does across two functions,
such as creating a child and offering it to its parent, is two births.
-/

namespace KernelObjects

namespace System

/-! ## 1. New records

The states that births lead to, each with everything that the new record needs: its number, its
place among all objects, its references. -/

/-- The state with a new job, which refers to its parent. -/
def withJob (s : System) (signals : Signals) (job : Job) : System :=
  let k := s.nextKoid
  let refs := s.refs.retain (.object k)
  { s with
    nextKoid := k + 1
    objects := s.objects.insert k { signals }
    jobs := s.jobs.insert k job
    refs := job.parent.elim refs fun p => refs.retain (.object p) }

/-- The state with a new process, which refers to its job. -/
def withProcess (s : System) (signals : Signals) (process : Process) : System :=
  let k := s.nextKoid
  { s with
    nextKoid := k + 1
    objects := s.objects.insert k { signals }
    processes := s.processes.insert k process
    refs := (s.refs.retain (.object k)).retain (.object process.job) }

/-- The state with a new view, which refers to its VM object. -/
def withView (s : System) (signals : Signals) (view : View) : System :=
  let k := s.nextKoid
  { s with
    nextKoid := k + 1
    objects := s.objects.insert k { signals }
    views := s.views.insert k view
    refs := (s.refs.retain (.object k)).retain (.vmo view.vmo) }

/-- The state with a new witness. -/
def withWitness (s : System) (signals : Signals) (witness : Witness) : System :=
  let k := s.nextKoid
  { s with
    nextKoid := k + 1
    objects := s.objects.insert k { signals }
    witnesses := s.witnesses.insert k witness
    refs := s.refs.retain (.object k) }

/-- The state with a new VM object, which starts a family. -/
def withVmo (s : System) (vmo : Vmo) (member : Member) : System :=
  let v := s.nextVmo
  { s with
    nextVmo := v + 1
    vmos := s.vmos.insert v vmo
    vmoList := s.vmoList.insert v ()
    families := s.families.insert v ((∅ : Family).insert v member)
    refs := s.refs.retain (.vmo v) }

/-- The state with a new clone, which its parent lists. -/
def withClone (s : System) (parent : VmoId) (vmo : Vmo) (member : Member) : System :=
  let c := s.nextVmo
  { s with
    nextVmo := c + 1
    vmos := s.vmos.insert c vmo
    vmoList := s.vmoList.insert c ()
    families := (s.families.modify vmo.family fun f => f.insert c member).modify vmo.family
      fun f => f.modify parent fun m => { m with clones := m.clones ++ [c] }
    refs := (s.refs.retain (.vmo parent)).retain (.vmo c) }

/-- The state with a new handle: it stands in a slot, refers to its object, and is referred to by
the slot and by its owner. -/
def withHandle (s : System) (a : ArenaId) (arena : Arena) (k : Koid) (rights : Rights) : System :=
  let h := s.nextId
  { s with
    nextId := h + 1
    arenas := s.arenas.insert a (arena.insert h).2
    handles := s.handles.insert h { base := (arena.insert h).1, object := k, rights, arena := a }
    objects := s.objects.modify k fun o => { o with handles := o.handles + 1 }
    refs := ((s.refs.retain (.object k)).retain (.handle h)).retain (.handle h) }

end System

/-! ## 2. Births and moves

Each birth with the dues that it brings.  Together with declines these are all moves, and a run of
operations is a run of moves. -/

/-- One change by which things come into being or change hands. -/
inductive Birth (A C : Prop) : World → World → Prop
  /-- A root job, or a job that its parent will not take. -/
  | job {s : System} {d : List Task} {signals : Signals} {job : Job} (hs : job.state = .ready)
      (hl : job.jobs = []) (hq : job.processes = [])
      (hp : ∀ p, job.parent = some p → ∃ q, s.jobs[p]? = some q ∧ q.state ≠ .ready ∧
        q.maxHeight = job.maxHeight + 1) :
      Birth A C ⟨s, d⟩ ⟨s.withJob signals job, .release (.object s.nextKoid) :: d⟩
  /-- A job that its parent lists. -/
  | child {s : System} {d : List Task} {signals : Signals} {job : Job} {p : Koid} {q : Job}
      {f : Job → Job} (hs : job.state = .ready) (hl : job.jobs = []) (hq : job.processes = [])
      (hp : job.parent = some p) (hj : s.jobs[p]? = some q) (hr : q.state = .ready)
      (hh : q.maxHeight = job.maxHeight + 1)
      (hf : (f q).kin = { q.kin with jobs := q.jobs ++ [s.nextKoid] }) :
      Birth A C ⟨s, d⟩
        ⟨(s.withJob signals job).modifyJob p f, .release (.object s.nextKoid) :: d⟩
  | process {s : System} {d : List Task} {signals : Signals} {process : Process}
      (hj : s.jobs.contains process.job) :
      Birth A C ⟨s, d⟩ ⟨s.withProcess signals process, .release (.object s.nextKoid) :: d⟩
  /-- A ready job lists a process. -/
  | list {s : System} {d : List Task} {k p : Koid} {j : Job} {f : Job → Job}
      (hj : s.jobs[k]? = some j) (hr : j.state = .ready)
      (hp : (∃ q, s.processes[p]? = some q ∧ q.job = k) ∨ A)
      (hf : (f j).kin = { j.kin with processes := j.processes ++ [p] }) :
      Birth A C ⟨s, d⟩ ⟨s.modifyJob k f, d⟩
  /-- A process is taken off a list. -/
  | unlist {s : System} {d : List Task} {k p : Koid} {j : Job} {f : Job → Job}
      (hj : s.jobs[k]? = some j)
      (hf : (f j).kin = { j.kin with processes := j.processes.erase p }) :
      Birth A C ⟨s, d⟩ ⟨s.modifyJob k f, d⟩
  | view {s : System} {d : List Task} {signals : Signals} {view : View}
      (hv : s.vmos.contains view.vmo) :
      Birth A C ⟨s, d⟩ ⟨s.withView signals view, .release (.object s.nextKoid) :: d⟩
  | witness {s : System} {d : List Task} {signals : Signals} {witness : Witness} :
      Birth A C ⟨s, d⟩ ⟨s.withWitness signals witness, .release (.object s.nextKoid) :: d⟩
  | vmo {s : System} {d : List Task} {vmo : Vmo} {member : Member} (hp : vmo.parent = none)
      (hf : vmo.family = s.nextVmo) (hc : member.clones = [])
      (hs : Page.size ∣ member.size ∧ member.size ≤ Word.max) :
      Birth A C ⟨s, d⟩ ⟨s.withVmo vmo member, .release (.vmo s.nextVmo) :: d⟩
  | clone {s : System} {d : List Task} {v : VmoId} {o : Vmo} {vmo : Vmo} {member : Member}
      (ho : s.vmos[v]? = some o) (hp : vmo.parent = some v) (hf : vmo.family = o.family)
      (hc : member.clones = []) (hs : Page.size ∣ member.size ∧ member.size ≤ Word.max) :
      Birth A C ⟨s, d⟩ ⟨s.withClone v vmo member, .release (.vmo s.nextVmo) :: d⟩
  | mapping {s : System} {d : List Task} {m : Mapping} :
      Birth A C ⟨s, d⟩
        ⟨{ s with
            nextId := s.nextId + 1
            mappings := s.mappings.insert s.nextId m
            refs := s.refs.retain (.mapping s.nextId) },
          .release (.mapping s.nextId) :: d⟩
  | listener {s : System} {d : List Task} {label : String} :
      Birth A C ⟨s, d⟩
        ⟨{ s with
            nextId := s.nextId + 1
            listeners := s.listeners.insert s.nextId label
            refs := s.refs.retain (.listener s.nextId) },
          .release (.listener s.nextId) :: d⟩
  | arena {s : System} {d : List Task} {a : ArenaId} (ha : s.arenas[a]? = none) (hlt : a < s.nextId)
      (capacity : Nat) :
      Birth A C ⟨s, d⟩ ⟨{ s with arenas := s.arenas.insert a (Arena.ofCapacity capacity) }, d⟩
  | table {s : System} {d d' : List Task} {process : Nat} {arena : ArenaId}
      (hd : d' = d ∨ d' = .closeTable s.nextId :: d) :
      Birth A C ⟨s, d⟩
        ⟨{ s with
            nextId := s.nextId + 1
            tables := s.tables.insert s.nextId { process, arena } }, d'⟩
  | handle {s : System} {d : List Task} {a : ArenaId} {arena : Arena} {k : Koid}
      {rights : Rights} (ha : s.arenas[a]? = some arena) (hfull : arena.isFull = false)
      (hk : s.Present (.object k)) :
      Birth A C ⟨s, d⟩ ⟨s.withHandle a arena k rights, .close s.nextId :: d⟩
  /-- A table takes over a handle, and gives up the one that it owned under the same value. -/
  | adopt {s : System} {d : List Task} {t : TableId} {table : Table} {h : HandleId} {r : Handle}
      (ht : s.tables[t]? = some table) (hh : s.handles[h]? = some r) :
      Birth A C ⟨s, .close h :: d⟩
        ⟨s.setOwned t (table.owned.insert r.base h),
          (table.owned[r.base]?.toList.map .close) ++ d⟩
  /-- A table gives up a handle. -/
  | expel {s : System} {d : List Task} {t : TableId} {table : Table} {base : Nat} {h : HandleId}
      (ht : s.tables[t]? = some table) (hh : table.owned[base]? = some h) :
      Birth A C ⟨s, d⟩ ⟨s.setOwned t (table.owned.erase base), .close h :: d⟩
  | resize {s : System} {d : List Task} {f : FamilyId} {v : VmoId} {g : Member → Member}
      {size : Nat} (hg : ∀ m, s.memberIn f v = some m → (g m).kin = { m.kin with size })
      (hs : Page.size ∣ size ∧ size ≤ Word.max) :
      Birth A C ⟨s, d⟩ ⟨s.modifyMember f v g, d⟩
  /-- The list of clones is written by hand. -/
  | rewire {s : System} {d : List Task} {f : FamilyId} {v : VmoId} {g : Member → Member} (hC : C) :
      Birth A C ⟨s, d⟩ ⟨s.modifyMember f v g, d⟩

/-- Anything that can happen. -/
def Move (A C : Prop) (w w' : World) : Prop :=
  Decline (fun _ => True) (fun _ => True) w w' ∨ Birth A C w w'

/-- A run of moves. -/
abbrev Moves (A C : Prop) : World → World → Prop := Relation.ReflTransGen (Move A C)

variable {A C : Prop}

/-- Declines are moves, whatever they condemn. -/
theorem Declines.moves {K P : Koid → Prop} {w w' : World} (h : Declines K P w w') :
    Moves A C w w' :=
  Relation.ReflTransGen.mono (fun _ _ h => .inl h) _ _
    (h.mono (fun _ _ => trivial) (fun _ _ => trivial))

theorem Birth.moves {w w' : World} (h : Birth A C w w') : Moves A C w w' := .single (.inr h)

/-- What may happen may happen with more liberties. -/
theorem Birth.mono {A' C' : Prop} {w w' : World} (h : Birth A C w w') (hA : A → A')
    (hC : C → C') : Birth A' C' w w' := by
  cases h with
  | list hj hr hp hf => exact .list hj hr (hp.imp_right hA) hf
  | unlist hj hf => exact .unlist hj hf
  | rewire h => exact .rewire (hC h)
  | _ =>
    constructor
    all_goals assumption

/-- More liberties allow for the same runs and more. -/
theorem Moves.mono {A' C' : Prop} {w w' : World} (h : Moves A C w w') (hA : A → A')
    (hC : C → C') : Moves A' C' w w' :=
  Relation.ReflTransGen.mono (fun _ _ hmove => hmove.imp_right fun hb => hb.mono hA hC) _ _ h

theorem Inert.moves {s t : System} (h : Inert s t) (d : List Task) : Moves A C ⟨s, d⟩ ⟨t, d⟩ :=
  .single (.inl (.inert h))

namespace System

/-- Paying off what is owed is a run of moves. -/
theorem settle_moves (s : System) (ts d : List Task) :
    Moves A C ⟨s, ts ++ d⟩ ⟨s.settle ts, d⟩ :=
  (settle_declines (K := fun _ => True) (P := fun _ => True) s ts d).moves

theorem release_moves (s : System) (r : Ref) (d : List Task) :
    Moves A C ⟨s, .release r :: d⟩ ⟨s.release r, d⟩ :=
  s.settle_moves [.release r] d

theorem reorder_moves {d e : List Task} (s : System) (h : d.Perm e) : Moves A C ⟨s, d⟩ ⟨s, e⟩ :=
  .single (.inl (.reorder h))

end System

end KernelObjects
