import KernelObjects.Proofs.Account.Births
import KernelObjects.Proofs.KillTree
import KernelObjects.Proofs.Hands

/-
# The stages of an operation

A move is the smallest change, and between two moves much is out of place: a job is there and not
yet listed, a process is dead and still listed, a handle lies in a table and does not carry its
process.  A *stage* is the next larger unit, a piece of an operation after which such things are
in place again.  What is kept by every stage holds between operations, also where it fails in the
midst of a stage.

Every operation is a run of stages, and every stage is a run of moves (`Stage.moves`).  A few
stages belong to operations by which a client does by hand what else the object layer does by
itself; what an operation may do in that way are its `Liberties`.

Which of the two to use depends on the property.  Counts are exact after every move, and so inside
of destructions and walks too; that what a table owns bears its process is true only between
stages, and is shown for them.
-/

namespace KernelObjects

/-- What an operation may do by hand. -/
structure Liberties where
  /-- It lists a process in any job. -/
  attaches : Prop := False
  /-- It takes a process off a list. -/
  detaches : Prop := False
  /-- It writes into a list of clones. -/
  rewires : Prop := False
  /-- It writes a process into a handle. -/
  stamps : Prop := False
  /-- It tells an object that nobody holds it. -/
  tells : Koid → Prop := fun _ => False
  /-- It moves a handle of its choice into a table. -/
  adopts : Table → Handle → Prop := fun _ _ => False

/-! ## 1. Stages

One constructor for each stage, with the state before and after it, and the dues.  A stage that
needs a liberty says so in its first hypothesis. -/

/-- One stage of an operation. -/
inductive Stage (L : Liberties) : World → World → Prop
  | still {s t : System} {d : List Task} (h : Still s t) : Stage L ⟨s, d⟩ ⟨t, d⟩
  /-- The dues stand in no order. -/
  | reorder {s : System} {d e : List Task} (h : d.Perm e) : Stage L ⟨s, d⟩ ⟨s, e⟩
  | share {s : System} {d : List Task} {r : Ref} (h : s.Present r) :
      Stage L ⟨s, d⟩ ⟨s.retain r, .release r :: d⟩
  /-- Something is given back, with all that follows. -/
  | drop {s : System} {d : List Task} {t : Task} : Stage L ⟨s, t :: d⟩ ⟨s.settle [t], d⟩
  /-- A birth that neither jobs and processes nor handles show. -/
  | beside {s t : System} {d : List Task} {rs : List Ref}
      (h : ∀ A C, Birth A C ⟨s, d⟩ ⟨t, rs.map .release ++ d⟩) (hj : t.jobs = s.jobs)
      (hp : t.processes = s.processes) (hh : t.hands = s.hands) :
      Stage L ⟨s, d⟩ ⟨t, rs.map .release ++ d⟩
  | rewire {s : System} {d : List Task} (hL : L.rewires) (f : FamilyId) (v : VmoId)
      (g : Member → Member) : Stage L ⟨s, d⟩ ⟨s.modifyMember f v g, d⟩
  | root {s : System} {d : List Task} {signals : Signals} {job : Job} (hs : job.state = .ready)
      (hl : job.jobs = []) (hq : job.processes = []) (hp : job.parent = none) :
      Stage L ⟨s, d⟩ ⟨s.withJob signals job, .release (.object s.nextKoid) :: d⟩
  | child {s : System} {d : List Task} {signals : Signals} {job : Job} {p : Koid} {q : Job}
      {f : Job → Job} (hs : job.state = .ready) (hl : job.jobs = []) (hq : job.processes = [])
      (hp : job.parent = some p) (hj : s.jobs[p]? = some q) (hr : q.state = .ready)
      (hh : q.maxHeight = job.maxHeight + 1)
      (hf : (f q).kin = { q.kin with jobs := q.jobs ++ [s.nextKoid] }) :
      Stage L ⟨s, d⟩
        ⟨(s.withJob signals job).modifyJob p f, .release (.object s.nextKoid) :: d⟩
  /-- A job that its parent does not take is given back at once. -/
  | refusedJob {s t : System} {d : List Task} {signals : Signals} {job : Job} {p : Koid} {q : Job}
      (hs : job.state = .ready) (hl : job.jobs = []) (hq : job.processes = [])
      (hp : job.parent = some p) (hj : s.jobs[p]? = some q) (hr : q.state ≠ .ready)
      (hh : q.maxHeight = job.maxHeight + 1) (ht : Still (s.withJob signals job) t) :
      Stage L ⟨s, d⟩ ⟨t.release (.object s.nextKoid), d⟩
  | process {s : System} {d : List Task} {signals : Signals} {process : Process} {q : Job}
      {f : Job → Job} (hs : process.state = .running) (hj : s.jobs[process.job]? = some q)
      (hr : q.state = .ready)
      (hf : (f q).kin = { q.kin with processes := q.processes ++ [s.nextKoid] }) :
      Stage L ⟨s, d⟩
        ⟨(s.withProcess signals process).modifyJob process.job f,
          .release (.object s.nextKoid) :: d⟩
  /-- A process that its job does not take is given back at once. -/
  | refusedProcess {s t : System} {d : List Task} {signals : Signals} {process : Process}
      (hj : s.jobs.contains process.job) (ht : Still (s.withProcess signals process) t) :
      Stage L ⟨s, d⟩ ⟨t.release (.object s.nextKoid), d⟩
  | arena {s : System} {d : List Task} {a : ArenaId} (ha : s.arenas[a]? = none) (hlt : a < s.nextId)
      (capacity : Nat) :
      Stage L ⟨s, d⟩ ⟨{ s with arenas := s.arenas.insert a (Arena.ofCapacity capacity) }, d⟩
  | table {s : System} {d e : List Task} {process : Nat} {arena : ArenaId}
      (he : e = d ∨ e = .closeTable s.nextId :: d) :
      Stage L ⟨s, d⟩
        ⟨{ s with
            nextId := s.nextId + 1
            tables := s.tables.insert s.nextId { process, arena } }, e⟩
  | handle {s : System} {d : List Task} {a : ArenaId} {arena : Arena} {k : Koid}
      {rights : Rights} (ha : s.arenas[a]? = some arena) (hfull : arena.isFull = false)
      (hk : s.Present (.object k)) :
      Stage L ⟨s, d⟩ ⟨s.withHandle a arena k rights, .close s.nextId :: d⟩
  /-- A table takes in a handle, and gives up the one that it owned under the same value. -/
  | adopt {s : System} {d : List Task} {t : TableId} {table : Table} {h : HandleId} {r : Handle}
      (hL : L.adopts table r) (ht : s.tables[t]? = some table) (hh : s.handles[h]? = some r) :
      Stage L ⟨s, .close h :: d⟩
        ⟨(s.setProcess table.process h).setOwned t (table.owned.insert r.base h),
          (table.owned[r.base]?.toList.map .close) ++ d⟩
  /-- A table takes in a new handle beside one that it shows. -/
  | duplicate {s : System} {d : List Task} {t : TableId} {table : Table} {value : Nat}
      {h : HandleId} {r : Handle} {arena : Arena} {rights : Rights}
      (ht : s.tables[t]? = some table) (hg : s.tableGet t value = .ok h)
      (hh : s.handles[h]? = some r) (ha : s.arenas[r.arena]? = some arena)
      (hfull : arena.isFull = false) (hk : s.Present (.object r.object)) :
      Stage L ⟨s, d⟩
        ⟨((s.withHandle r.arena arena r.object rights).setProcess table.process s.nextId).setOwned t
            (table.owned.insert (arena.insert s.nextId).1 s.nextId),
          (table.owned[(arena.insert s.nextId).1]?.toList.map .close) ++ d⟩
  /-- A table gives up a handle. -/
  | expel {s : System} {d : List Task} {t : TableId} {table : Table} {base : Nat} {h : HandleId}
      (ht : s.tables[t]? = some table) (hh : table.owned[base]? = some h) :
      Stage L ⟨s, d⟩
        ⟨(s.setOwned t (table.owned.erase base)).setProcess noProcess h, .close h :: d⟩
  | clear {s : System} {d : List Task} (t : TableId) : Stage L ⟨s, d⟩ ⟨(s.tableClear t).2, d⟩
  | stamp {s : System} {d : List Task} (hL : L.stamps) (process : Nat) (h : HandleId) :
      Stage L ⟨s, d⟩ ⟨s.setProcess process h, d⟩
  | tell {s : System} {d : List Task} {k : Koid} (hL : L.tells k) :
      Stage L ⟨s, d⟩ ⟨s.zeroHandles k, d⟩
  | condemn {s : System} {d : List Task} {k : Koid} {j : Job} (code : Int)
      (hj : s.jobs[k]? = some j) (hr : j.state = .ready) :
      Stage L ⟨s, d⟩ ⟨s.commitKill code k j, d⟩
  | kill {s : System} {d : List Task} (code : Int) (k : Koid) :
      Stage L ⟨s, d⟩ ⟨s.killProcess code k, d⟩
  | attach {s : System} {d : List Task} (hL : L.attaches) (k p : Koid) :
      Stage L ⟨s, d⟩ ⟨(s.attachProcess k p).2, d⟩
  | detach {s : System} {d : List Task} (hL : L.detaches) (k p : Koid) :
      Stage L ⟨s, d⟩ ⟨s.detachProcess k p, d⟩

/-- A run of stages. -/
abbrev Stages (L : Liberties) : World → World → Prop := Relation.ReflTransGen (Stage L)

variable {L : Liberties} {s t : System} {d : List Task}

theorem Stage.run {w w' : World} (h : Stage L w w') : Stages L w w' := .single h

theorem Still.stages (h : Still s t) (d : List Task) : Stages L ⟨s, d⟩ ⟨t, d⟩ := .single (.still h)

namespace System

theorem release_stages (s : System) (r : Ref) (d : List Task) :
    Stages L ⟨s, .release r :: d⟩ ⟨s.release r, d⟩ := .single .drop

/-- The order of what is owed is no matter. -/
theorem reorder_stages {d e : List Task} (s : System) (h : d.Perm e) : Stages L ⟨s, d⟩ ⟨s, e⟩ :=
  .single (.reorder h)

theorem lending_stages (w : World) : World.Lending (Stages L w) where
  reorder h hi := hi.tail (.reorder h)
  share h hi := hi.tail (.share h)
  release hi := hi.tail .drop

/-! ## 2. Stages are runs of moves

So that whatever moves keep, stages keep.  The converse is not wanted: a run of moves may stop in
the midst of a stage. -/

variable {A C : Prop}

@[simp] theorem hands_endProcess (s : System) (code : Int) (k : Koid) :
    (s.endProcess code k).hands = s.hands := by
  unfold endProcess
  rw [hands_log _ rfl, hands_signal, hands_modifyProcess]

/-- Condemning a job is upkeep of that job alone; without children it is dead at once. -/
theorem commitKill_upkeep (s : System) (code : Int) (k : Koid) (j : Job) :
    Upkeep k s (s.commitKill code k j) := by
  have hkilled : Upkeep k s ((s.modifyJob k fun j =>
      { j with returnCode := code, state := .killing }).log (.jobKilled k code)) :=
    .trans (.job _) (.killed code)
  unfold commitKill
  exact .ite (hkilled.trans (markDead_upkeep _ k)) hkilled

/-- A process is put on the list of its own job, unless hands do it. -/
theorem attachProcess_moves {k p : Koid} (s : System)
    (hp : (∃ q, s.processes[p]? = some q ∧ q.job = k) ∨ A) (d : List Task) :
    Moves A C ⟨s, d⟩ ⟨(s.attachProcess k p).2, d⟩ := by
  unfold attachProcess attach
  cases hj : s.jobs[k]? with
  | none => exact .refl
  | some j =>
    dsimp only
    split
    · rename_i hr
      have hlist : Birth A C ⟨s, d⟩
          ⟨s.modifyJob k fun j => { j with processes := j.processes ++ [p] }, d⟩ :=
        .list hj hr hp rfl
      exact .trans hlist.moves (Inert.moves (inert_signal _ _ _ _) d)
    · exact .refl

/-- A process is taken off a list, and the job it was on may be dead by that. -/
theorem detachProcess_moves (s : System) (k p : Koid) (d : List Task) :
    Moves A C ⟨s, d⟩ ⟨s.detachProcess k p, d⟩ := by
  unfold detachProcess
  cases hj : s.jobs[k]? with
  | none => exact .refl
  | some j =>
    dsimp only
    split
    · have hgone : Birth A C ⟨s, d⟩
          ⟨s.modifyJob k fun j => { j with processes := j.processes.erase p }, d⟩ :=
        .unlist hj rfl
      refine .trans hgone.moves ?_
      exact (childLeft_declines (K := fun _ => True) (P := fun _ => True) _ k d).moves
    · exact .refl

/-- A table takes over a handle and writes its process into it. -/
theorem adopt_moves {t : TableId} {table : Table} {h : HandleId} {r : Handle}
    (ht : s.tables[t]? = some table) (hh : s.handles[h]? = some r) :
    Moves A C ⟨s, .close h :: d⟩
      ⟨(s.setProcess table.process h).setOwned t (table.owned.insert r.base h),
        (table.owned[r.base]?.toList.map .close) ++ d⟩ := by
  have hadopt : Birth A C ⟨s, .close h :: d⟩ ⟨s.setOwned t (table.owned.insert r.base h),
      (table.owned[r.base]?.toList.map .close) ++ d⟩ := .adopt ht hh
  exact .trans hadopt.moves (Inert.moves (inert_setProcess _ table.process h) _)

end System

/-- **Every stage is a run of moves**, with liberties only where its operation has them. -/
theorem Stage.moves {A C : Prop} {w w' : World} (h : Stage L w w') (hA : L.attaches → A)
    (hC : L.rewires → C) : Moves A C w w' := by
  -- Stages that are one birth or a chain of declines first; the others put a birth and what
  -- follows it together.
  cases h with
  | still h => exact Inert.moves h.toInert _
  | reorder h => exact System.reorder_moves _ h
  | share h => exact .single (.inl (.share h))
  | @drop s d t => exact s.settle_moves [t] d
  | beside h => exact (h A C).moves
  | rewire hL f v g => exact Birth.moves (.rewire (hC hL))
  | root hs hl hq hp => exact Birth.moves (.job hs hl hq (by simp [hp]))
  | child hs hl hq hp hj hr hh hf => exact Birth.moves (.child hs hl hq hp hj hr hh hf)
  | @refusedJob s t d signals job p q hs hl hq hp hj hr hh ht =>
    have hborn : Birth A C ⟨s, d⟩ ⟨s.withJob signals job, .release (.object s.nextKoid) :: d⟩ :=
      .job hs hl hq fun p' hp' => by
        rw [hp] at hp'
        cases hp'
        exact ⟨q, hj, hr, hh⟩
    exact hborn.moves.trans ((Inert.moves ht.toInert _).trans (t.release_moves _ d))
  | @process s d signals process q f hs hj hr hf =>
    have hborn : Birth A C ⟨s, d⟩
        ⟨s.withProcess signals process, .release (.object s.nextKoid) :: d⟩ :=
      .process (Store.contains_iff.2 ⟨q, hj⟩)
    refine .trans hborn.moves (Birth.moves (.list hj hr (.inl ⟨process, ?_, rfl⟩) hf))
    exact Std.ExtTreeMap.getElem?_insert_self
  | @refusedProcess s t d signals process hj ht =>
    have hborn : Birth A C ⟨s, d⟩
        ⟨s.withProcess signals process, .release (.object s.nextKoid) :: d⟩ := .process hj
    exact hborn.moves.trans ((Inert.moves ht.toInert _).trans (t.release_moves _ d))
  | arena ha hlt capacity => exact Birth.moves (.arena ha hlt capacity)
  | table he => exact Birth.moves (.table he)
  | handle ha hfull hk => exact Birth.moves (.handle ha hfull hk)
  | adopt hL ht hh => exact System.adopt_moves ht hh
  | @duplicate s d t table value h r arena rights ht hg hh ha hfull hk =>
    have hborn : Birth A C ⟨s, d⟩
        ⟨s.withHandle r.arena arena r.object rights, .close s.nextId :: d⟩ := .handle ha hfull hk
    refine .trans hborn.moves (System.adopt_moves ht (r := { base := (arena.insert s.nextId).1
                                                             object := r.object, rights
                                                             arena := r.arena }) ?_)
    exact Std.ExtTreeMap.getElem?_insert_self
  | @expel s d t table base h ht hh =>
    have hexpel : Birth A C ⟨s, d⟩ ⟨s.setOwned t (table.owned.erase base), .close h :: d⟩ :=
      .expel ht hh
    exact .trans hexpel.moves (Inert.moves (System.inert_setProcess _ _ _) _)
  | @clear s d t =>
    exact (s.tableClear_declines (K := fun _ => True) (P := fun _ => True) t d).moves
  | stamp hL process h => exact Inert.moves (System.inert_setProcess _ _ _) _
  | tell hL => exact Inert.moves (System.inert_zeroHandles _ _) _
  | condemn code hj hr =>
    exact (System.commitKill_declines (K := fun _ => True) (P := fun _ => True) hj hr trivial
      _).moves
  | @kill s d code k =>
    exact (s.killProcess_declines (K := fun _ => True) (P := fun _ => True) code trivial d).moves
  | attach hL k p => exact System.attachProcess_moves _ (.inr (hA hL)) _
  | detach hL k p => exact System.detachProcess_moves _ _ _ _

/-- **A run of stages is a run of moves**, so what all moves keep is kept. -/
theorem Stages.moves {A C : Prop} {w w' : World} (h : Stages L w w') (hA : L.attaches → A)
    (hC : L.rewires → C) : Moves A C w w' := by
  induction h with
  | refl => exact .refl
  | tail _ hstage ih => exact ih.trans (hstage.moves hA hC)

end KernelObjects
