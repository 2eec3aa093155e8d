import KernelObjects.Proofs.Paces

/-
# The ledger

Jobs list their children, change their state and hold ports; a port counts how often it was given
up; a root job has the system halted; a VM object has a cache policy.  `System.ledger` shows just
that of a state.  Handles, signals, names, memory and reference counts are not in it.

The ledger changes in few ways: a listed child leaves a job, with all that comes of that
(`Ledger.leave`), or it is one of the other changes (`Ledger.Change`).  Most of them may come up
in any operation.  A port is bound, told by hand, opened or reset only by the operation that says
so, and a cache policy is only chosen by the one that chooses it.  Every pace and every operation
that is a pace itself is one such shift (`System.Pace.shift`, `World.act_shift`), so what is
claimed of the ledger is claimed of a single shift.

What is counted along a run (how often a port was given up, how often a root had the system
halted) needs the way and not only its ends, and the way in steps that neither do two things at
once nor leave one half done.  A loss of a child is such a step: the child leaves, the job dies if
it was condemned and this was its last child, and a root without a child calls its handler, all in
one shift.
-/

namespace KernelObjects

/-! ## 1. What shows

The entry of a job has its lists, its state, its slots and its latch.  Ports and VM objects have
one number or one policy. -/

/-- What the ledger shows of a job. -/
structure Job.Post where
  parent : Option Koid
  hasHaltHandler : Bool
  halted : Bool
  state : JobState
  jobs : List Koid
  processes : List Koid
  slot : Bool → Option PortId

/-- The entry of a job. -/
def Job.post (j : Job) : Job.Post where
  parent := j.parent
  hasHaltHandler := j.hasHaltHandler
  halted := j.halted
  state := j.state
  jobs := j.jobs
  processes := j.processes
  slot := j.slot

/-- The root job whose handler an event says was called. -/
def Event.halted? : Event → Option Koid
  | halted root _ => some root
  | _ => none

/-- What is kept of jobs, ports, halts and cache policies. -/
structure Ledger where
  nextKoid : Koid
  nextId : Nat
  jobs : Store Job.Post
  ports : Store Port
  /-- The root jobs whose handlers were called, latest first. -/
  halts : List Koid
  /-- The parent and the cache policy of each VM object that is there. -/
  tint : VmoId → Option (Option VmoId × CachePolicy)

namespace Job.Post

variable (j : Job.Post)

/-- Whether a job lists no child. -/
def vacant : Bool := j.processes.isEmpty && j.jobs.isEmpty

/-- A job that is dead has given up its ports. -/
def buried : Job.Post := { j with state := .dead, slot := fun _ => none }

/-- Writes one of the two slots. -/
def setSlot (debugger : Bool) (p : Option PortId) : Job.Post :=
  { j with slot := fun b => if debugger = b then p else j.slot b }

/-- Whether a job dies that has lost a child. -/
def dies : Bool := j.vacant && decide (j.state = .killing)

/-- Whether a job that has lost a child is a root without any child. -/
def closes : Bool := j.vacant && j.parent.isNone

/-- What becomes of a job that has lost a child. -/
def bereft : Job.Post :=
  { if j.dies then j.buried else j with halted := j.halted || j.closes }

@[simp] theorem parent_bereft : j.bereft.parent = j.parent := by
  unfold bereft
  split <;> rfl

@[simp] theorem hasHaltHandler_bereft : j.bereft.hasHaltHandler = j.hasHaltHandler := by
  unfold bereft
  split <;> rfl

@[simp] theorem vacant_bereft : j.bereft.vacant = j.vacant := by
  unfold bereft
  split <;> rfl

@[simp] theorem state_bereft : j.bereft.state = if j.dies then .dead else j.state := by
  unfold bereft
  split <;> rfl

@[simp] theorem slot_bereft : j.bereft.slot = if j.dies then fun _ => none else j.slot := by
  unfold bereft
  split <;> rfl

/-- A job that was just created. -/
structure Newborn : Prop where
  state : j.state = .ready
  jobs : j.jobs = []
  processes : j.processes = []
  halted : j.halted = false
  slot : ∀ b, j.slot b = none

end Job.Post

/-- Tells the port in a slot, if there is one. -/
def Store.tellPort (ports : Store Port) : Option PortId → Store Port
  | none => ports
  | some p => ports.modify p Port.told

/-- Tells the ports in both slots of a job. -/
def Store.tellPorts (ports : Store Port) (j : Job.Post) : Store Port :=
  (ports.tellPort (j.slot false)).tellPort (j.slot true)

namespace Ledger

variable (l : Ledger)

/-- Writes the entry of a job. -/
def setJob (k : Koid) (j : Job.Post) : Ledger := { l with jobs := l.jobs.insert k j }

/-- A job is dead. -/
def bury (k : Koid) (j : Job.Post) : Ledger :=
  { l.setJob k j.buried with ports := l.ports.tellPorts j }

/-- A job has lost a child and looks like `j` before anything follows from that. -/
def leave (k : Koid) (j : Job.Post) : Ledger :=
  { l with
    jobs := l.jobs.insert k j.bereft
    ports := if j.dies then l.ports.tellPorts j else l.ports
    halts := if j.closes && !j.halted && j.hasHaltHandler then k :: l.halts else l.halts }

/-- Writes the parent and the policy of a VM object, or that it is gone. -/
def setTint (v : VmoId) (x : Option (Option VmoId × CachePolicy)) : Ledger :=
  { l with tint := fun u => if v = u then x else l.tint u }

/-- One of the ways in which an operation changes the ledger, if no child leaves a job. -/
inductive Change (op : Op) : Ledger → Ledger → Prop
  /-- All else. -/
  | aside {l : Ledger} {n : Koid} {i : Nat} (hn : l.nextKoid ≤ n) (hi : l.nextId ≤ i) :
      Change op l { l with nextKoid := n, nextId := i }
  | born {l : Ledger} {j : Job.Post} (hn : l.jobs[l.nextKoid]? = none) (hj : j.Newborn) :
      Change op l { l.setJob l.nextKoid j with nextKoid := l.nextKoid + 1 }
  | gone {l : Ledger} {k : Koid} {j : Job.Post} (hj : l.jobs[k]? = some j) :
      Change op l { l with jobs := l.jobs.erase k }
  | listed {l : Ledger} {k : Koid} {j : Job.Post} {js ps : List Koid} (hj : l.jobs[k]? = some j)
      (hr : j.state = .ready) (hne : ¬ (js = [] ∧ ps = [])) :
      Change op l (l.setJob k { j with jobs := js, processes := ps })
  /-- A job with children is to die once they are gone. -/
  | condemned {l : Ledger} {k : Koid} {j : Job.Post} (hj : l.jobs[k]? = some j)
      (hr : j.state = .ready) (hv : j.vacant = false) :
      Change op l (l.setJob k { j with state := .killing })
  /-- A job without any child dies when it is killed. -/
  | buried {l : Ledger} {k : Koid} {j : Job.Post} (hj : l.jobs[k]? = some j)
      (hr : j.state = .ready) (hv : j.vacant = true) : Change op l (l.bury k j)
  | unbound {l : Ledger} {refuses : Allocator} {k : Koid} {j : Job.Post} {p : PortId} {b : Bool}
      (hop : op = .resetPort refuses k b) (hj : l.jobs[k]? = some j) (hp : j.slot b = some p) :
      Change op l { l.setJob k (j.setSlot b none) with ports := l.ports.modify p Port.told }
  | bound {l : Ledger} {k : Koid} {j : Job.Post} {p : PortId} {b : Bool} (hop : op = .bindPort k p)
      (hj : l.jobs[k]? = some j) (hs : j.slot b = none) :
      Change op l (l.setJob k (j.setSlot b (some p)))
  | told {l : Ledger} {p : PortId} (hop : op = .unbindPort p) :
      Change op l { l with ports := l.ports.modify p Port.told }
  | opened {l : Ledger} {kind : PortKind} {key : Nat} (hop : op = .openPort kind key) :
      Change op l { l with
        ports := l.ports.insert l.nextId { kind, key }
        nextId := l.nextId + 1 }
  /-- A VM object is there, cached as all are at first. -/
  | vmoBorn {l : Ledger} {v : VmoId} {parent : Option VmoId} (hop : op.AtOnce)
      (hv : l.tint v = none) :
      Change op l (l.setTint v (some (parent, .cached)))
  | vmoGone {l : Ledger} {v : VmoId} : Change op l (l.setTint v none)
  | tinted {l : Ledger} {v : VmoId} {raw : Nat} {policy : CachePolicy} {old : CachePolicy}
      (hop : op = .setCachePolicy v raw) (hv : l.tint v = some (none, old)) :
      Change op l (l.setTint v (some (none, policy)))

theorem Change.same {op : Op} {l l' : Ledger} (h : l' = l) : Change op l l' :=
  h ▸ .aside (Nat.le_refl _) (Nat.le_refl _)

theorem Change.nextKoid_le {op : Op} {l l' : Ledger} (h : Change op l l') :
    l.nextKoid ≤ l'.nextKoid := by
  cases h with
  | aside hn hi => exact hn
  | born hn hj => exact Nat.le_succ _
  | _ => exact Nat.le_refl _

end Ledger

namespace System

/-- The ledger of a state. -/
def ledger (s : System) : Ledger where
  nextKoid := s.nextKoid
  nextId := s.nextId
  jobs := s.jobs.map fun _ j => j.post
  ports := s.ports
  halts := s.trace.filterMap Event.halted?
  tint v := s.vmos[v]?.map fun o =>
    (o.parent, ((s.memberIn o.family v).map Member.cachePolicy).getD .cached)

theorem jobs_ledger (s : System) (k : Nat) : s.ledger.jobs[k]? = s.jobs[k]?.map Job.post := by
  show (s.jobs.map _)[k]? = _
  rw [Std.ExtTreeMap.getElem?_map]

theorem job_ledger {s : System} {k : Koid} {j : Job} (h : s.jobs[k]? = some j) :
    s.ledger.jobs[k]? = some j.post := by
  rw [jobs_ledger, h, Option.map_some]

/-- Before anything happened the ledger is empty. -/
theorem ledger_initial : initial.ledger = ⟨1024, 1, ∅, ∅, [], fun _ => none⟩ := rfl

/-! ## 2. What the ledger does not show

Most functions do not show in the ledger.  The lemmas follow the functions in the order in which
they call each other. -/

section Frame

variable (s : System)

theorem ledger_log {e : Event} (he : e.halted? = none) : (s.log e).ledger = s.ledger := by
  unfold ledger log
  rw [List.filterMap_cons_none he]
  rfl

/-- Jobs that look the same. -/
theorem ledger_jobs {jobs : Store Job}
    (h : ∀ k : Nat, jobs[k]?.map Job.post = s.jobs[k]?.map Job.post) :
    ({ s with jobs } : System).ledger = s.ledger := by
  have hsame : (jobs.map fun _ j => j.post) = s.jobs.map fun _ j => j.post := by
    ext1 k
    rw [Std.ExtTreeMap.getElem?_map, Std.ExtTreeMap.getElem?_map, h]
  unfold ledger
  rw [hsame]
  rfl

theorem ledger_modifyJob {k : Koid} {f : Job → Job}
    (h : ∀ j, s.jobs[k]? = some j → (f j).post = j.post) : (s.modifyJob k f).ledger = s.ledger :=
  s.ledger_jobs (Store.map_modify h)

/-- A job that looks different. -/
theorem ledger_setJob {k : Koid} {j : Job} {f : Job → Job} {p : Job.Post} (hj : s.jobs[k]? = some j)
    (hf : (f j).post = p) : (s.modifyJob k f).ledger = s.ledger.setJob k p := by
  show Ledger.mk _ _ _ _ _ _ = Ledger.mk _ _ _ _ _ _
  congr 1
  ext1 a
  rw [Store.getElem?_insert]
  show ((s.jobs.modify k f).map _)[a]? = if k = a then some p else s.ledger.jobs[a]?
  rw [Std.ExtTreeMap.getElem?_map, Store.getElem?_modify, jobs_ledger]
  split
  · rename_i hk
    rw [← hk, hj, ← hf]
    rfl
  · rfl

theorem ledger_insertJob (k : Koid) (j : Job) :
    ({ s with jobs := s.jobs.insert k j } : System).ledger = s.ledger.setJob k j.post := by
  show Ledger.mk _ _ _ _ _ _ = Ledger.mk _ _ _ _ _ _
  congr 1
  ext1 a
  rw [Store.getElem?_insert]
  show ((s.jobs.insert k j).map _)[a]? = if k = a then some j.post else s.ledger.jobs[a]?
  rw [Std.ExtTreeMap.getElem?_map, Store.getElem?_insert, jobs_ledger]
  split <;> rfl

theorem ledger_eraseJob (k : Koid) :
    ({ s with jobs := s.jobs.erase k } : System).ledger =
      { s.ledger with jobs := s.ledger.jobs.erase k } := by
  show Ledger.mk _ _ _ _ _ _ = Ledger.mk _ _ _ _ _ _
  congr 1
  ext1 a
  rw [Store.getElem?_erase]
  show ((s.jobs.erase k).map _)[a]? = if k = a then none else s.ledger.jobs[a]?
  rw [Std.ExtTreeMap.getElem?_map, Store.getElem?_erase, jobs_ledger]
  split <;> rfl

@[simp] theorem ledger_signal (k : Koid) (clear set : Signals) :
    (s.signal k clear set).ledger = s.ledger := rfl

theorem ledger_unbindPort (p : PortId) :
    (s.unbindPort p).ledger = { s.ledger with ports := s.ports.modify p Port.told } := rfl

theorem ledger_unbindSlot (slot : Option PortId) :
    (s.unbindSlot slot).ledger = { s.ledger with ports := s.ports.tellPort slot } := by
  cases slot <;> rfl

theorem ports_unbindSlot (slot : Option PortId) :
    (s.unbindSlot slot).ports = s.ports.tellPort slot := by
  cases slot <;> rfl

/-! ### VM objects -/

/-- A VM object that keeps its parent and its family. -/
theorem ledger_modifyVmo {v : VmoId} {f : Vmo → Vmo}
    (h : ∀ o, s.vmos[v]? = some o → (f o).kin = o.kin) : (s.modifyVmo v f).ledger = s.ledger := by
  show Ledger.mk _ _ _ _ _ _ = Ledger.mk _ _ _ _ _ _
  congr 1
  funext u
  show ((s.vmos.modify v f)[u]?).map _ = _
  rw [Store.getElem?_modify]
  split
  · rename_i hu
    subst hu
    cases ho : s.vmos[v]? with
    | none => rfl
    | some o =>
      show some ((f o).parent,
        ((s.memberIn (f o).family v).map Member.cachePolicy).getD .cached) = _
      rw [show (f o).parent = o.parent from congrArg Vmo.Kin.parent (h o ho),
        show (f o).family = o.family from congrArg Vmo.Kin.family (h o ho)]
      rfl
  · rfl

/-- Families that keep the same cache policy of every VM object that is there. -/
theorem ledger_families (families : Store Family)
    (h : ∀ (u : Nat) (o : Vmo), s.vmos[u]? = some o →
      (memberIn { s with families } o.family u).map Member.cachePolicy =
        (s.memberIn o.family u).map Member.cachePolicy) :
    ({ s with families } : System).ledger = s.ledger := by
  show Ledger.mk _ _ _ _ _ _ = Ledger.mk _ _ _ _ _ _
  congr 1
  funext u
  refine Option.map_congr fun o ho => ?_
  rw [h u o ho]

theorem ledger_modifyMember {f : FamilyId} {v : VmoId} {g : Member → Member}
    (h : ∀ m, s.memberIn f v = some m → (g m).cachePolicy = m.cachePolicy) :
    (s.modifyMember f v g).ledger = s.ledger :=
  s.ledger_families _ fun u o _ => s.map_memberIn_modifyMember h o.family u

@[simp] theorem ledger_setWatcher (v : VmoId) (x : Option Watcher) :
    (s.setWatcher v x).ledger = s.ledger := s.ledger_modifyVmo fun _ _ => rfl

@[simp] theorem ledger_zeroHandles (k : Koid) : (s.zeroHandles k).ledger = s.ledger := by
  unfold zeroHandles
  dsimp only
  split
  · exact s.ledger_log rfl
  · exact (ledger_setWatcher _ _ _).trans (s.ledger_log rfl)

@[simp] theorem ledger_tellWatcher (v : VmoId) (b : Bool) :
    (s.tellWatcher v b).ledger = s.ledger := by
  unfold tellWatcher
  split
  · rfl
  · split
    · cases b <;> exact s.ledger_log rfl
    · rfl
  · split
    · rfl
    · cases b <;> exact s.ledger_log rfl

/-! ### Handles, tables and the configuration -/

@[simp] theorem ledger_openSharedArena : s.openSharedArena.ledger = s.ledger := by
  rw [openSharedArena_eq]
  split <;> rfl

theorem ledger_emptied (t : TableId) (table : Table) : (s.emptied t table).ledger = s.ledger := by
  obtain ⟨handles, he, -⟩ := s.emptied_eq t table
  rw [he]
  rfl

theorem ledger_closeHandle (h : HandleId) : (s.closeHandle h).1.ledger = s.ledger := by
  unfold closeHandle
  split
  · rfl
  · dsimp only
    split
    · exact (ledger_zeroHandles _ _).trans (ledger_log _ rfl)
    · exact ledger_log _ rfl

theorem ledger_endProcess (code : Int) (k : Koid) : (s.endProcess code k).ledger = s.ledger :=
  ledger_log _ rfl

end Frame

end System

/-! ### Edits -/

theorem Job.Edit.post {a : Topic} {j j' : Job} (h : j.Edit a j')
    (ha : a ∉ [Topic.slots, .caches]) : j'.post = j.post := by
  cases h with
  | name | mark | policy => rfl
  | slot => exact absurd (by decide) ha

theorem Member.Edit.cachePolicy_eq {a : Topic} {m m' : Member} (h : m.Edit a m')
    (ha : a ∉ [Topic.slots, .caches]) : m'.cachePolicy = m.cachePolicy := by
  cases h with
  | stamp | clones | windows | pages => rfl
  | size =>
    unfold Member.resize
    split <;> rfl
  | cache => exact absurd (by decide) ha

/-- Only edits of slots and of cache policies show. -/
theorem Edit.ledger {a : Topic} {s t : System} (h : Edit a s t)
    (ha : a ∉ [Topic.slots, .caches]) : t.ledger = s.ledger := by
  induction h with
  | refl | config | space | process | owned | owner | unmapped => rfl
  | trans _ _ ih ih' => exact (ih' ha).trans (ih ha)
  | job h => exact System.ledger_modifyJob _ fun j hj => (h j hj).post ha
  | vmo h => exact System.ledger_modifyVmo _ fun o ho => (h o ho).kin
  | member h => exact System.ledger_modifyMember _ fun m hm => (h m hm).cachePolicy_eq ha

namespace System

theorem ledger_forgetClone (s : System) (v c : VmoId) : (s.forgetClone v c).ledger = s.ledger := by
  have hdropped := (s.dropClone_edit v c).ledger (by decide)
  obtain he | he := s.forgetClone_cases v c
  · rw [he, hdropped]
  · rw [he, ledger_tellWatcher, hdropped]

/-! ## 3. Jobs that lose a child, or die

The one change that touches several entries at once: the job, its ports and the call of a
handler. -/

section Jobs

variable {s : System} {k : Koid} {j : Job}

/-- A post that is entered once more. -/
theorem setJob_self {l : Ledger} {p : Job.Post} (h : l.jobs[k]? = some p) : l.setJob k p = l := by
  show Ledger.mk _ _ _ _ _ _ = Ledger.mk _ _ _ _ _ _
  congr 1
  ext1 a
  rw [Store.getElem?_insert]
  split
  · rename_i ha
    rw [← ha, h]
  · rfl

/-- What is entered later counts. -/
theorem setJob_setJob (l : Ledger) (p q : Job.Post) : (l.setJob k p).setJob k q = l.setJob k q := by
  show Ledger.mk _ _ _ _ _ _ = Ledger.mk _ _ _ _ _ _
  congr 1
  ext1 a
  show ((l.jobs.insert k p).insert k q)[a]? = (l.jobs.insert k q)[a]?
  simp only [Store.getElem?_insert]
  split <;> rfl

/-- The record of a job that is dead. -/
def dead (j : Job) : Job := { j with state := .dead, port := none, debuggerPort := none }

theorem post_dead (j : Job) : (dead j).post = j.post.buried := by
  unfold Job.post Job.Post.buried
  congr 1
  funext b
  cases b <;> rfl

theorem post_fillSlot (j : Job) (b : Bool) (p : PortId) :
    (Job.fillSlot b p j).post = j.post.setSlot b (some p) := by
  unfold Job.post Job.Post.setSlot Job.fillSlot
  cases b
  all_goals
    dsimp only
    congr 1
    funext c
    cases c <;> rfl

theorem post_clearSlot (j : Job) (b : Bool) : (j.clearSlot b).post = j.post.setSlot b none := by
  unfold Job.post Job.Post.setSlot Job.clearSlot
  cases b
  all_goals
    dsimp only
    congr 1
    funext c
    cases c <;> rfl

theorem jobs_unbindSlot (s : System) (slot : Option PortId) :
    (s.unbindSlot slot).jobs = s.jobs := by
  cases slot <;> rfl

theorem jobs_markDead (hj : s.jobs[k]? = some j) : (s.markDead k).jobs = s.jobs.modify k dead := by
  unfold markDead
  rw [hj]
  exact (jobs_unbindSlot _ _).trans (jobs_unbindSlot _ _)

theorem ledger_markDead (hj : s.jobs[k]? = some j) :
    (s.markDead k).ledger = s.ledger.bury k j.post := by
  have hdead : (s.modifyJob k dead).ledger = _ := s.ledger_setJob hj (post_dead j)
  unfold markDead
  rw [hj]
  show ((((((s.modifyJob k dead).unbindSlot j.port).unbindSlot j.debuggerPort).signal k .empty
    .taskTerminated).log (.jobDied k))).ledger = _
  rw [ledger_log _ rfl, ledger_signal, ledger_unbindSlot, ledger_unbindSlot, ports_unbindSlot,
    hdead]
  rfl

/-- The flag of a root and the call of its handler, whatever its signals. -/
theorem ledger_halt (hj : s.jobs[k]? = some j) (clear set : Signals) :
    (((s.modifyJob k fun j => { j with halted := true }).signal k clear set).halt k).ledger =
      { s.ledger.setJob k { j.post with halted := true } with
        halts := if j.hasHaltHandler then k :: s.ledger.halts else s.ledger.halts } := by
  have hflag := s.ledger_setJob (f := fun j => { j with halted := true })
    (p := { j.post with halted := true }) hj rfl
  set t := (s.modifyJob k fun j => { j with halted := true }).signal k clear set
  have ht : t.ledger = s.ledger.setJob k { j.post with halted := true } := hflag
  have hget : t.jobs[k]? = some { j with halted := true } := by
    show (s.jobs.modify k fun j => { j with halted := true })[k]? = _
    rw [Store.getElem?_modify, if_pos rfl, hj, Option.map_some]
  have hcalled : (t.log (.halted k t.liveJobs)).ledger = { t.ledger with
      halts := k :: t.ledger.halts } := rfl
  unfold halt
  rw [hget]
  dsimp only
  split
  · rw [hcalled, ht]
    rfl
  · rw [ht]
    rfl

/-- **What comes of a job that has lost a child.** -/
theorem ledger_childLeft (hj : s.jobs[k]? = some j) :
    (s.childLeft k).ledger = s.ledger.leave k j.post := by
  -- the job dies first, if it does
  have hdies : ∃ t i, (if (j.processes.isEmpty && j.jobs.isEmpty) && decide (j.state = .killing)
      then s.markDead k else s) = t ∧ t.jobs[k]? = some i ∧
      i.post = (if j.post.dies then j.post.buried else j.post) ∧
      t.ledger = { s.ledger.setJob k (if j.post.dies then j.post.buried else j.post) with
        ports := if j.post.dies then s.ledger.ports.tellPorts j.post else s.ledger.ports } := by
    cases hd : j.post.dies with
    | true =>
      refine ⟨s.markDead k, dead j, if_pos hd, ?_, post_dead j, ledger_markDead hj⟩
      rw [jobs_markDead hj, Store.getElem?_modify, if_pos rfl, hj, Option.map_some]
    | false =>
      refine ⟨s, j, if_neg (ne_true_of_eq_false hd), hj, rfl, ?_⟩
      exact (setJob_self (job_ledger hj)).symm
  obtain ⟨t, i, he, hi, hpost, hledger⟩ := hdies
  have hhandler : i.hasHaltHandler = j.hasHaltHandler := by
    have := congrArg Job.Post.hasHaltHandler hpost
    split at this <;> exact this
  unfold childLeft
  rw [hj]
  dsimp only
  rw [he]
  have hcloses : ((j.processes.isEmpty && j.jobs.isEmpty) && j.parent.isNone && !j.halted) =
      (j.post.closes && !j.post.halted) := rfl
  have hhalted : (if j.post.dies then j.post.buried else j.post).halted = j.post.halted := by
    split <;> rfl
  rw [hcloses]
  unfold Ledger.leave Job.Post.bereft
  cases hc : j.post.closes && !j.post.halted with
  | true =>
    have hflag : (j.post.halted || j.post.closes) = true := by
      rw [(Bool.and_eq_true_iff.1 hc).1, Bool.or_true]
    rw [if_pos rfl, if_pos rfl, ledger_halt hi, hhandler, hledger, hpost, hflag, Bool.true_and]
    exact congrArg (fun jobs => Ledger.mk _ _ jobs _ _ _)
      (congrArg Ledger.jobs (setJob_setJob s.ledger _ _))
  | false =>
    have hflag : (j.post.halted || j.post.closes) = j.post.halted := by
      generalize j.post.halted = a at hc
      generalize j.post.closes = b at hc
      cases a <;> cases b <;> first | rfl | cases hc
    rw [if_neg Bool.false_ne_true, if_neg Bool.false_ne_true, ledger_signal, hledger, hflag,
      Bool.false_and, if_neg Bool.false_ne_true, ← hhalted]
    rfl

/-- What a job looked like before it lost a child is of no account. -/
theorem leave_setJob (l : Ledger) (p q : Job.Post) : (l.setJob k p).leave k q = l.leave k q :=
  congrArg (fun jobs => Ledger.mk _ _ jobs _ _ _)
    (congrArg Ledger.jobs (setJob_setJob (k := k) l p q.bereft))

theorem ledger_childLeft_of (hj : s.jobs[k]? = some j) (f : Job → Job) :
    ((s.modifyJob k f).childLeft k).ledger = s.ledger.leave k (f j).post := by
  have hget : (s.modifyJob k f).jobs[k]? = some (f j) := by
    show (s.jobs.modify k f)[k]? = _
    rw [Store.getElem?_modify, if_pos rfl, hj, Option.map_some]
  rw [ledger_childLeft hget, s.ledger_setJob hj rfl, leave_setJob]

/-- A listed child is taken off the list first. -/
theorem detachJob_of_mem {c : Koid} (hj : s.jobs[k]? = some j) (hc : c ∈ j.jobs) :
    s.detachJob k c = (s.modifyJob k fun j => { j with jobs := j.jobs.erase c }).childLeft k := by
  unfold detachJob
  rw [hj]
  exact if_pos hc

theorem detachProcess_of_mem {p : Koid} (hj : s.jobs[k]? = some j) (hp : p ∈ j.processes) :
    s.detachProcess k p =
      (s.modifyJob k fun j => { j with processes := j.processes.erase p }).childLeft k := by
  unfold detachProcess
  rw [hj]
  exact if_pos hp

theorem ledger_commitKill (code : Int) (hj : s.jobs[k]? = some j) : (s.commitKill code k j).ledger =
    if j.post.vacant then s.ledger.bury k j.post
    else s.ledger.setJob k { j.post with state := .killing } := by
  set i : Job := { j with returnCode := code, state := .killing }
  set t := (s.modifyJob k fun j => { j with returnCode := code, state := .killing }).log
    (.jobKilled k code)
  have hcondemned : t.ledger = s.ledger.setJob k i.post :=
    (ledger_log _ rfl).trans (s.ledger_setJob hj rfl)
  have hget : t.jobs[k]? = some i := by
    show (s.jobs.modify k _)[k]? = _
    rw [Store.getElem?_modify, if_pos rfl, hj, Option.map_some]
  have hvacant : j.post.vacant = true ↔ j.processes = [] ∧ j.jobs = [] := by
    show (j.processes.isEmpty && j.jobs.isEmpty) = true ↔ _
    rw [Bool.and_eq_true, List.isEmpty_iff, List.isEmpty_iff]
  show (if j.processes = [] ∧ j.jobs = [] then t.markDead k else t).ledger = _
  by_cases hv : j.processes = [] ∧ j.jobs = []
  · rw [if_pos hv, if_pos (hvacant.2 hv), ledger_markDead hget, hcondemned]
    exact congrArg (fun jobs => Ledger.mk _ _ jobs _ _ _)
      (congrArg Ledger.jobs (setJob_setJob s.ledger i.post i.post.buried))
  · rw [if_neg hv, if_neg (hvacant.not.2 hv), hcondemned]
    rfl

end Jobs

/-! ## 4. Shifts

A pace is one entry of the ledger, or none.  That is shown here for each pace, and afterwards
nobody looks into the object layer. -/

/-- One of the ways in which something that happens changes what the ledger shows. -/
inductive Shift (op : Op) (s t : System) : Prop
  /-- A listed child leaves a job. -/
  | left {k c : Koid} {j : Job} {js ps : List Koid} (hj : s.jobs[k]? = some j)
      (hv : j.post.vacant = false)
      (ht : c ∈ j.jobs ∧ t = s.detachJob k c ∨ c ∈ j.processes ∧ t = s.detachProcess k c)
      (he : t.ledger = s.ledger.leave k { j.post with jobs := js, processes := ps })
  | change (h : Ledger.Change op s.ledger t.ledger)

namespace Shift

variable {op : Op} {s t : System}

theorem same (h : t.ledger = s.ledger) : Shift op s t := .change (.same h)

/-- Koids and identities that are used up. -/
theorem aside {n : Koid} {i : Nat} (hn : s.nextKoid ≤ n) (hi : s.nextId ≤ i)
    (h : t.ledger = { s.ledger with nextKoid := n, nextId := i }) : Shift op s t :=
  .change (h ▸ .aside hn hi)

/-- A new identity. -/
theorem numbered (h : t.ledger = { s.ledger with nextId := s.nextId + 1 }) : Shift op s t :=
  .aside (n := s.nextKoid) (i := s.nextId + 1) (Nat.le_refl _) (Nat.le_succ _) h

end Shift

section Shifts

variable {op : Op} (s : System)

theorem detachJob_shift (k c : Koid) : Shift op s (s.detachJob k c) := by
  cases hj : s.jobs[k]? with
  | none =>
    refine .same ?_
    unfold detachJob
    rw [hj]
  | some j =>
    by_cases hc : c ∈ j.jobs
    · refine .left hj ?_ (.inl ⟨hc, rfl⟩) (detachJob_of_mem hj hc ▸ ledger_childLeft_of hj _)
      exact Bool.and_eq_false_iff.2 (.inr (List.isEmpty_eq_false_iff.2 (List.ne_nil_of_mem hc)))
    · refine .same ?_
      unfold detachJob
      rw [hj]
      exact congrArg ledger (if_neg hc)

theorem detachProcess_shift (k p : Koid) : Shift op s (s.detachProcess k p) := by
  cases hj : s.jobs[k]? with
  | none =>
    refine .same ?_
    unfold detachProcess
    rw [hj]
  | some j =>
    by_cases hp : p ∈ j.processes
    · refine .left hj ?_ (.inr ⟨hp, rfl⟩) (detachProcess_of_mem hj hp ▸ ledger_childLeft_of hj _)
      exact Bool.and_eq_false_iff.2 (.inl (List.isEmpty_eq_false_iff.2 (List.ne_nil_of_mem hp)))
    · refine .same ?_
      unfold detachProcess
      rw [hj]
      exact congrArg ledger (if_neg hp)

/-- A child that is offered to a job is listed if the job is ready. -/
theorem attach_shift {add : Job → Job} (js ps : Job → List Koid) (k : Koid)
    (hadd : ∀ j, (add j).post = { j.post with jobs := js j, processes := ps j })
    (hne : ∀ j, ¬ (js j = [] ∧ ps j = [])) : Shift op s (s.attach k add).2 := by
  unfold attach
  cases hj : s.jobs[k]? with
  | none => exact .same rfl
  | some j =>
    dsimp only
    split
    · rename_i hr
      refine .change ?_
      dsimp only
      rw [ledger_signal, s.ledger_setJob hj (hadd j)]
      exact .listed (job_ledger hj) hr (hne j)
    · exact .same rfl

theorem attachJob_shift (k c : Koid) : Shift op s (s.attachJob k c).2 :=
  s.attach_shift (fun j => j.jobs ++ [c]) Job.processes k (fun _ => rfl) fun j h => by simp at h

theorem attachProcess_shift (k p : Koid) : Shift op s (s.attachProcess k p).2 :=
  s.attach_shift Job.jobs (fun j => j.processes ++ [p]) k (fun _ => rfl) fun j h => by simp at h

theorem commitKill_shift (code : Int) {k : Koid} {j : Job} (hj : s.jobs[k]? = some j)
    (hr : j.state = .ready) : Shift op s (s.commitKill code k j) := by
  refine .change ?_
  rw [ledger_commitKill code hj]
  cases hv : j.post.vacant with
  | true => exact .buried (job_ledger hj) hr hv
  | false => exact .condemned (job_ledger hj) hr hv

theorem addJob_change (hn : s.jobs[s.nextKoid]? = none) {job : Job} (hjob : job.post.Newborn) :
    Ledger.Change op s.ledger (s.addJob job).2.ledger := by
  obtain ⟨counters, registry, he⟩ := s.addJob_eq job
  have hborn : (s.addJob job).2.ledger =
      { s.ledger.setJob s.nextKoid job.post with nextKoid := s.nextKoid + 1 } := by
    rw [he]
    exact congrArg (fun l : Ledger => { l with nextKoid := s.nextKoid + 1 })
      (s.ledger_insertJob s.nextKoid job)
  rw [hborn]
  exact .born ((s.jobs_ledger _).trans (congrArg (Option.map Job.post) hn)) hjob

theorem makeHandle_shift (arena : ArenaId) (k : Koid) (rights : Rights) (mayGrow : Bool) :
    Shift op s (s.makeHandle arena k rights mayGrow).2 := by
  obtain he | he | ⟨a, -, -, he⟩ := s.makeHandle_cases arena k rights mayGrow
  · rw [he]
    exact .same rfl
  · rw [he]
    exact .same rfl
  · rw [he]
    exact .numbered rfl

theorem duplicateHandle_shift (h : HandleId) (rights : Rights) :
    Shift op s (s.duplicateHandle h rights).2 := by
  obtain he | ⟨r, -, he⟩ := s.duplicateHandle_cases h rights
  · rw [he]
    exact .same rfl
  · rw [he]
    exact s.makeHandle_shift _ _ _ _

/-! ### VM objects -/

theorem ledger_eraseMember {f : FamilyId} {v : VmoId} (hv : s.vmos[v]? = none) :
    ({ s with families := s.families.modify f fun g => g.erase v } : System).ledger = s.ledger := by
  refine s.ledger_families _ fun u o ho => congrArg _ (s.memberIn_eraseMember f ?_ o.family)
  rintro rfl
  rw [hv] at ho
  cases ho

theorem ledger_eraseVmo (v : VmoId) :
    ({ s with vmos := s.vmos.erase v, vmoList := s.vmoList.erase v } : System).ledger =
      s.ledger.setTint v none := by
  show Ledger.mk _ _ _ _ _ _ = Ledger.mk _ _ _ _ _ _
  congr 1
  funext u
  rw [Store.getElem?_erase]
  split <;> rfl

theorem destroyVmo_change (v : VmoId) : Ledger.Change op s.ledger (s.destroyVmo v).1.ledger := by
  unfold destroyVmo
  cases ho : s.vmos[v]? with
  | none => exact .same rfl
  | some o =>
    have hgone : ∀ t : System, t.vmos[v]? = none → (System.log { t with
        families := t.families.modify o.family fun f => f.erase v } (.vmoDestroyed v)).ledger =
          t.ledger :=
      fun t ht => (ledger_log _ rfl).trans (t.ledger_eraseMember ht)
    have herased : (s.vmos.erase v)[v]? = none := by rw [Store.getElem?_erase, if_pos rfl]
    dsimp only
    rw [hgone]
    · split
      · rw [ledger_eraseVmo]
        exact .vmoGone
      · rw [ledger_forgetClone, ledger_eraseVmo]
        exact .vmoGone
    · split
      · exact herased
      · rw [vmos_forgetClone]
        exact herased

/-- A VM object that is entered anew. -/
theorem ledger_addVmo (v : VmoId) {vmo : Vmo} {member : Member}
    (hm : member.cachePolicy = .cached) :
    (s.addVmo v vmo member).ledger = s.ledger.setTint v (some (vmo.parent, .cached)) := by
  show Ledger.mk _ _ _ _ _ _ = Ledger.mk _ _ _ _ _ _
  congr 1
  funext u
  show ((s.vmos.insert v vmo)[u]?.map fun o =>
    (o.parent, (((s.addVmo v vmo member).memberIn o.family u).map Member.cachePolicy).getD .cached))
      = _
  rw [Store.getElem?_insert]
  split
  · rename_i hu
    rw [Option.map_some, memberIn_addVmo, if_pos ⟨rfl, hu⟩]
    cases s.families[vmo.family]? with
    | none => rfl
    | some g => rw [Option.map_some, Option.map_some, hm]; rfl
  · rename_i hu
    refine Option.map_congr fun o _ => ?_
    rw [memberIn_addVmo, if_neg fun h => hu h.2]

/-- A VM object that is there was handed out. -/
theorem tint_fresh {d : List Task} (hacc : Accounted s d) : s.ledger.tint s.nextVmo = none := by
  have hfresh : s.vmos[s.nextVmo]? = none := by
    rw [← Store.contains_eq_false_iff, Bool.eq_false_iff]
    exact fun hc => Nat.lt_irrefl _ (hacc.bounded.vmo hc)
  show s.vmos[s.nextVmo]?.map _ = none
  rw [hfresh, Option.map_none]

theorem createVmo_shift {d : List Task} (hacc : Accounted s d) (hh : s.Housed) (size : Nat)
    (options : BitVec 32) : Shift (.createVmo size options) s (s.createVmo size options).2 := by
  have hcreation := s.createVmo_creation size options
  generalize s.createVmo size options = r at hcreation
  cases hcreation with
  | unfit => exact .same rfl
  | born =>
    have hsame : s.enterFamily.ledger = s.ledger :=
      s.ledger_families _ fun u o ho => congrArg _ (Housed.memberIn_enterFamily hacc hh ho)
    refine .change ?_
    dsimp only
    rw [← addVmo_enterFamily s rfl, ledger_addVmo s.enterFamily s.nextVmo rfl, hsame]
    exact .vmoBorn trivial (s.tint_fresh hacc)

theorem cloneVmo_shift {d : List Task} (hacc : Accounted s d) (v : VmoId) (ask : CloneRequest) :
    Shift (.cloneVmo v ask) s (s.cloneVmo v ask).2 := by
  have hborn : ∀ (o : Vmo) (c : Nat),
      (s.withClone v (o.cloneRecord v ask) { size := c, parentOffset := ask.offset }).ledger =
        s.ledger.setTint s.nextVmo (some (some v, .cached)) := by
    intro o c
    rw [← recordClone_enterClone, (recordClone_edit _ _ _ _).ledger (by decide)]
    exact ledger_addVmo _ s.nextVmo rfl
  have hcreation := s.cloneVmo_creation v ask
  generalize s.cloneVmo v ask = r at hcreation
  cases hcreation with
  | refused => exact .same rfl
  | @first o c =>
    refine .change ?_
    dsimp only
    rw [ledger_tellWatcher, hborn]
    exact .vmoBorn trivial (s.tint_fresh hacc)
  | @further o c =>
    refine .change ?_
    dsimp only
    rw [hborn]
    exact .vmoBorn trivial (s.tint_fresh hacc)

theorem tint_ledger {v : VmoId} {o : Vmo} {m : Member} (ho : s.vmos[v]? = some o)
    (hm : s.memberIn o.family v = some m) : s.ledger.tint v = some (o.parent, m.cachePolicy) := by
  show s.vmos[v]?.map _ = _
  rw [ho, Option.map_some, hm]
  rfl

theorem setCachePolicy_shift (v : VmoId) (raw : Nat) :
    Shift (.setCachePolicy v raw) s (s.setCachePolicy v raw).2 := by
  obtain ⟨e, he⟩ | ⟨policy, o, m, -, ho, hparent, hm, -, -, -, he⟩ := s.setCachePolicy_cases v raw
  · rw [he]
    exact .same rfl
  · rw [he]
    dsimp only
    set t := s.modifyMember o.family v fun m => { m with cachePolicy := policy }
    have hold := s.tint_ledger ho hm
    have hnew : t.ledger.tint v = some (o.parent, policy) := by
      refine t.tint_ledger (m := { m with cachePolicy := policy }) ho ?_
      rw [memberIn_modifyMember, if_pos ⟨rfl, rfl⟩, hm]
      rfl
    -- The ledger shows the tint of every object, so it has to be said that the others keep
    -- theirs.
    have hother : ∀ u, v ≠ u → t.ledger.tint u = s.ledger.tint u := by
      intro u hu
      refine Option.map_congr fun a _ => ?_
      rw [memberIn_modifyMember, if_neg fun h => hu h.2]
    rw [hparent] at hold hnew
    have htinted : Ledger.Change (.setCachePolicy v raw) s.ledger
        (s.ledger.setTint v (some (none, policy))) := .tinted rfl hold
    refine .change (cast (congrArg _ ?_) htinted)
    show Ledger.mk _ _ _ _ _ _ = Ledger.mk _ _ _ _ _ _
    congr 1
    funext u
    split
    · rename_i hu
      exact hu ▸ hnew.symm
    · rename_i hu
      exact (hother u hu).symm

/-! ### Ports -/

theorem bindPort_shift (k : Koid) (p : PortId) : Shift (.bindPort k p) s (s.bindPort k p).2 := by
  obtain ⟨e, he⟩ | ⟨j, q, b, hj, -, -, hslot, he⟩ := s.bindPort_cases k p
  · rw [he]
    exact .same rfl
  · rw [he]
    refine .change ?_
    dsimp only
    rw [s.ledger_setJob hj (post_fillSlot j b p)]
    exact .bound rfl (job_ledger hj) hslot

theorem unbound_shift {refuses : Allocator} {k : Koid} {j : Job} {p : PortId} {b : Bool}
    (hj : s.jobs[k]? = some j) (hp : j.slot b = some p) :
    Shift (.resetPort refuses k b) s ((s.modifyJob k (·.clearSlot b)).unbindPort p) := by
  refine .change ?_
  rw [ledger_unbindPort, s.ledger_setJob hj (post_clearSlot j b)]
  exact .unbound rfl (job_ledger hj) hp

end Shifts

variable {op : Op} {s t : System}

/-! ## 5. Whatever happens

Operations are paces, or show in one shift by themselves. -/

/-- A task that destroys no job and no process. -/
theorem perform_shift {x : Task} (h : ¬ s.Fells x) : Shift op s (s.perform x).1 := by
  cases x with
  | close a => exact .same (s.ledger_closeHandle a)
  | closeTable i =>
    unfold perform
    dsimp only
    split <;> exact .same rfl
  | release r =>
    unfold perform
    dsimp only
    split
    · exact .same rfl
    · rename_i hr
      set u : System := { s with refs := s.refs.release r }
      cases r with
      | object k =>
        -- Jobs and processes are left out by `h`: their end is not one shift but several, and it
        -- is taken apart as paces of its own.
        have hkept : u.jobs[k]? = none ∧ u.processes[k]? = none := by
          constructor
          · by_contra hj
            exact h ⟨k, rfl, hr, .inl (Store.contains_iff.2 (Option.ne_none_iff_exists'.1 hj))⟩
          · by_contra hp
            exact h ⟨k, rfl, hr, .inr (Store.contains_iff.2 (Option.ne_none_iff_exists'.1 hp))⟩
        refine .same ?_
        show (u.destroyObject k).1.ledger = u.ledger
        unfold destroyObject
        dsimp only
        rw [hkept.1, hkept.2]
        cases u.views[k]? with
        | some v => exact ledger_log _ rfl
        | none =>
          cases u.witnesses[k]? with
          | some x => exact ledger_log _ rfl
          | none => rfl
      | handle a =>
        refine .same ?_
        show (u.destroy (.handle a)).1.ledger = u.ledger
        dsimp only [destroy]
        split <;> rfl
      | vmo v => exact .change (u.destroyVmo_change v)
      | mapping m => exact .same rfl
      | listener o => exact .same rfl
    · exact .same rfl

/-- What operations do on their way as well. -/
theorem help_shift {d : List Task} {aux : Op} (h : aux.Helps) :
    Shift op s (World.act ⟨s, d⟩ aux).system := by
  cases aux with
  | openSharedArena => exact .same s.ledger_openSharedArena
  | makeHandle arena k rights mayGrow =>
    rw [World.act]
    split
    · rw [World.system_after]
      exact s.makeHandle_shift arena k rights mayGrow
    · exact .same rfl
  | attachProcess k p => exact s.attachProcess_shift k p
  | zeroHandles k => exact .same (s.ledger_zeroHandles k)
  | dropReports p k => exact .same rfl
  | setUserId v id => exact .same ((s.setUserId_edit v id).ledger (by decide))
  | setWatcher v x => exact .same (s.ledger_setWatcher v x)
  | _ => exact h.elim

/-- **Every pace is a shift.** -/
theorem Pace.shift (h : Pace op s t) : Shift op s t := by
  -- A pace is at most one entry of the ledger.  Many are none, as what they do is not shown
  -- there.
  cases h with
  | help h => exact help_shift h
  | share h => exact .same rfl
  | perform h => exact perform_shift h
  | @jobGone k j hr hj =>
    have herased : Ledger.Change op s.ledger
        ({ s with jobs := s.jobs.erase k } : System).ledger := by
      rw [s.ledger_eraseJob k]
      exact .gone (job_ledger hj)
    exact .change herased
  | processGone hr hj hp => exact .same rfl
  | @jobLeft k c hc => exact s.detachJob_shift k c
  | @processLeft k p => exact s.detachProcess_shift k p
  | booked k counters registry => exact .same (ledger_log _ rfl)
  | @emptied i table ht => exact .same (s.ledger_emptied i table)
  | ended code hp hr => exact .same (s.ledger_endProcess code _)
  | condemned code hj hr => exact s.commitKill_shift code hj hr
  | jobBorn hn hq hh =>
    exact .change (s.addJob_change hn ⟨rfl, rfl, rfl, rfl, fun b => by cases b <;> rfl⟩)
  | @jobListed k c => exact s.attachJob_shift k c
  | processBorn name hj =>
    exact .aside (n := s.nextKoid + 1) (i := s.nextId + 1) (Nat.le_succ _) (Nat.le_succ _) rfl
  | viewBorn hv =>
    exact .aside (n := s.nextKoid + 1) (i := s.nextId) (Nat.le_succ _) (Nat.le_refl _) rfl
  | adopted ht hh => exact .same rfl
  | unbound hop hj hp => exact hop ▸ s.unbound_shift hj hp

end System

/-- **Every operation that does one thing is a shift.** -/
theorem World.act_shift {w : World} (hacc : Accounted w.system w.dues) (hh : w.system.Housed)
    {op : Op} (hop : op.AtOnce) : System.Shift op w.system (w.act op).system := by
  obtain ⟨s, d⟩ := w
  have hacc : Accounted s d := hacc
  cases op with
  | createRootJob hasHaltHandler =>
    -- the limits are settled first, which does not show; then the job is entered
    have hfresh : s.settledConfig.2.jobs[s.settledConfig.2.nextKoid]? = none := by
      rw [System.settledConfig_eq]
      exact hacc.fresh_object.2.1
    have hborn : ∀ job : Job, job.post.Newborn → Ledger.Change (.createRootJob hasHaltHandler)
        s.settledConfig.2.ledger (s.settledConfig.2.addJob job).2.ledger :=
      fun job => s.settledConfig.2.addJob_change hfresh
    rw [s.settledConfig_edit.ledger (by decide)] at hborn
    refine .change (hborn
      { parent := none
        maxHeight := s.settledConfig.1.rootHeight
        name := System.rootName
        hasHaltHandler
        policy := Policy.initial } ?_)
    exact ⟨rfl, rfl, rfl, rfl, fun b => by cases b <;> rfl⟩
  | createWitness label signals =>
    exact .aside (n := s.nextKoid + 1) (i := s.nextId) (Nat.le_succ _) (Nat.le_refl _) rfl
  | createVmo size options =>
    rw [act, system_after]
    exact s.createVmo_shift hacc hh size options
  | cloneVmo v ask =>
    rw [act, system_after]
    exact s.cloneVmo_shift hacc v ask
  | createListener label => exact .numbered rfl
  | createMapping space object offset size => exact .numbered rfl
  | newArena capacity => exact .numbered rfl
  | openTable process arena => exact .numbered rfl
  | openPort kind key => exact .change (.opened rfl)
  | openSharedArena | attachProcess | zeroHandles | dropReports | setUserId | setWatcher =>
    exact System.help_shift (d := d) trivial
  | makeHandle => exact System.help_shift (d := d) trivial
  | share r =>
    refine .same ?_
    rw [act]
    split <;> rfl
  | duplicateHandle a rights =>
    rw [act, system_after]
    exact s.duplicateHandle_shift a rights
  | tableRemove i value =>
    rw [act, system_after]
    exact .same ((s.tableRemove_edit i value).ledger (by decide))
  | detachProcess k p => exact s.detachProcess_shift k p
  | bindPort k p => exact s.bindPort_shift k p
  | unbindPort p => exact .change (.told rfl)
  | setCachePolicy v raw => exact s.setCachePolicy_shift v raw
  | forgetClone v c => exact .same (s.ledger_forgetClone v c)
  | signal => exact .same rfl
  | openSpace | settledConfig | installConfig | setKillOnOom | nameJob | nameProcess | nameVmo
  | amendPolicy | report | setProcess | recordClone | addMapping | removeMapping | unmapSpan
  | rangeChanged | commit | decommit | resize =>
    exact .same ((act_edit rfl ⟨s, d⟩).ledger (by decide))
  | _ => exact hop.elim

/-! ## 6. Every job is an object

Needed for the signals of a job that calls its handler: a job that is there has signals to
show. -/

/-- Every job has what an object has. -/
def System.Shelved (s : System) : Prop := ∀ k : Nat, s.jobs.contains k → s.objects.contains k

theorem Accounted.shelved {s : System} {d : List Task} (h : Accounted s d) : s.Shelved := by
  intro k hk
  have hkind := h.kind k
  rw [Store.has_eq_one_iff.2 hk] at hkind
  have := s.objects.has_le_one k
  exact Store.has_eq_one_iff.1 (by omega)

namespace System.Shelved

variable {s t : System}

theorem congr (h : s.Shelved) (hj : ∀ k : Nat, t.jobs.contains k = s.jobs.contains k)
    (ho : ∀ k : Nat, t.objects.contains k = s.objects.contains k) : t.Shelved := by
  intro k hk
  rw [ho]
  exact h k (hj k ▸ hk)

theorem inert (h : s.Shelved) (hi : Inert s t) : t.Shelved :=
  h.congr (fun k => Store.contains_of_map (hi.job k)) fun k => Store.contains_of_map (hi.object k)

theorem modifyJob (h : s.Shelved) (k : Koid) (f : Job → Job) : (s.modifyJob k f).Shelved :=
  h.congr (Store.contains_modify _ _ _) fun _ => rfl

theorem signal (h : s.Shelved) (k : Koid) (clear set : Signals) : (s.signal k clear set).Shelved :=
  h.congr (fun _ => rfl) (Store.contains_modify _ _ _)

/-- An object that is no job. -/
theorem addObject (h : s.Shelved) {k : Koid} {o : Object} (hj : t.jobs = s.jobs)
    (ho : t.objects = s.objects.insert k o) : t.Shelved := by
  intro c hc
  rw [ho, Store.contains_insert]
  exact .inr (h c (hj ▸ hc))

/-- An object that goes and is no job. -/
theorem eraseObject (h : s.Shelved) {k : Koid} (hk : s.jobs[k]? = none) (hj : t.jobs = s.jobs)
    (ho : t.objects = s.objects.erase k) : t.Shelved := by
  intro c hc
  rw [hj] at hc
  rw [ho, Store.contains_erase]
  refine ⟨?_, h c hc⟩
  rintro rfl
  rw [Store.contains_eq_isSome, hk] at hc
  cases hc

theorem eraseJob (h : s.Shelved) {k : Koid} (hj : t.jobs = s.jobs.erase k)
    (ho : t.objects = s.objects.erase k) : t.Shelved := by
  intro c hc
  rw [hj, Store.contains_erase] at hc
  rw [ho, Store.contains_erase]
  exact ⟨hc.1, h c hc.2⟩

theorem decline {K P : Koid → Prop} {w w' : World} (h : w.system.Shelved) (hd : Decline K P w w') :
    w'.system.Shelved := by
  cases hd with
  | inert hi => exact h.inert hi
  | job hr hj => exact h.eraseJob rfl rfl
  | process hr hj hp => exact h.eraseObject hj rfl rfl
  | view hr hj hp hv => exact h.eraseObject hj rfl rfl
  | witness hr hj hp hv => exact h.eraseObject hj rfl rfl
  | @vmo s d v o hr ho =>
    obtain ⟨families, he, -⟩ := s.withoutVmo_eq v o
    rw [he]
    exact h
  | close hh => exact h.congr (fun _ => rfl) (Store.contains_modify _ _ _)
  | fades hj hf => exact h.modifyJob _ _
  | _ => exact h

theorem declines {K P : Koid → Prop} {d e : List Task} (h : s.Shelved)
    (hd : Declines K P ⟨s, d⟩ ⟨t, e⟩) : t.Shelved := by
  have hrun : ∀ w : World, Declines K P ⟨s, d⟩ w → w.system.Shelved := by
    intro w hw
    induction hw with
    | refl => exact h
    | tail _ hstep ih => exact ih.decline hstep
  exact hrun _ hd

theorem attach (h : s.Shelved) (k : Koid) (add : Job → Job) : (s.attach k add).2.Shelved := by
  unfold System.attach
  split
  · exact h
  · split
    · exact (h.modifyJob k add).signal _ _ _
    · exact h

theorem help {d : List Task} {aux : Op} (h : s.Shelved) (ha : aux.Helps) :
    (World.act ⟨s, d⟩ aux).system.Shelved := by
  cases aux with
  | openSharedArena =>
    rw [World.act, System.openSharedArena_eq]
    split <;> exact h
  | makeHandle arena k rights mayGrow =>
    rw [World.act]
    split
    · rw [World.system_after]
      cases hm : s.makeHandle arena k rights mayGrow with
      | mk r t =>
        cases r with
        | error e => exact h.inert (System.still_of_makeHandle_error hm).toInert
        | ok a =>
          obtain ⟨arena, -, -, -, rfl⟩ := System.makeHandle_ok hm
          exact h.congr (fun _ => rfl) (Store.contains_modify _ _ _)
    · exact h
  | attachProcess k p => exact h.attach _ _
  | zeroHandles k => exact h.inert (System.inert_zeroHandles s k)
  | dropReports p k => exact h
  | setUserId v id => exact h.inert ((s.setUserId_edit v id).inert (by decide))
  | setWatcher v x => exact h
  | _ => exact ha.elim

theorem pace {op : Op} (h : s.Shelved) (hp : System.Pace op s t) : t.Shelved := by
  -- Shelving is a matter of which records there are, so it needs no account: what declines keeps
  -- it, and a new object is entered among all objects as well.
  cases hp with
  | help ha => exact h.help ha
  | share hr => exact h
  | perform hx =>
    exact h.declines
      (System.perform_declines (K := fun _ => True) (P := fun _ => True) s _ [])
  | jobGone hr hj => exact h.eraseJob rfl rfl
  | processGone hr hj hp => exact h.eraseObject hj rfl rfl
  | jobLeft hc =>
    exact h.declines (System.detachJob_declines (K := fun _ => True) (P := fun _ => True) hc [])
  | @processLeft k p =>
    unfold System.detachProcess
    split
    · exact h
    · split
      · exact (h.modifyJob k _).declines
          (System.childLeft_declines (K := fun _ => True) (P := fun _ => True) _ k [])
      · exact h
  | booked k counters registry => exact h
  | @emptied i table ht =>
    obtain ⟨handles, he, -⟩ := s.emptied_eq i table
    rw [he]
    exact h
  | ended code hp hr =>
    exact h.declines
      (System.endProcess_declines (K := fun _ => True) (P := fun _ => True) code hp trivial [])
  | condemned code hj hr =>
    exact h.declines
      (System.commitKill_declines (K := fun _ => True) (P := fun _ => True) hj hr trivial [])
  | jobBorn hn hq hh =>
    obtain ⟨counters, registry, he⟩ := s.addJob_eq
      { parent := some _, maxHeight := _, name := Name.blank, policy := _ }
    rw [he]
    intro c hc
    refine (Store.contains_insert _ _ _ _).2 (((Store.contains_insert _ _ _ _).1 hc).imp_right ?_)
    exact h c
  | jobListed => exact h.attach _ _
  | processBorn name hj => exact h.addObject rfl rfl
  | viewBorn hv => exact h.addObject rfl rfl
  | adopted ht hh => exact h
  | unbound hop hj hp => exact h.modifyJob _ _

end System.Shelved

/-! ## 7. Journeys are shifts

A journey is a run with its operations on record.  Here each operation of it is taken apart into
shifts, and the states before and after each shift are put down in a list, so that what happened
at a shift can be counted. -/

namespace System

/-- Shifts one after the other, each with the states before and after it. -/
inductive Shifts (op : Op) : System → List (System × System) → System → Prop
  | nil {s : System} : Shifts op s [] s
  | cons {s t u : System} {es : List (System × System)} (hs : s.Shelved) (h : Shift op s t)
      (rest : Shifts op t es u) : Shifts op s ((s, t) :: es) u

variable {op : Op} {s t : System} {es : List (System × System)}

theorem Paces.shifts (h : Paces op s es t) (hs : s.Shelved) : Shifts op s es t := by
  induction h with
  | nil => exact .nil
  | cons hpace _ ih => exact .cons hs hpace.shift (ih (hs.pace hpace))

/-- **What each shift keeps, all of them keep.** -/
theorem Shifts.keeps {I : List (System × System) → System → Prop} (h : Shifts op s es t)
    (hstep : ∀ {fs : List (System × System)} {a b : System}, I fs a → a.Shelved → Shift op a b →
      I (fs ++ [(a, b)]) b) (fs : List (System × System)) (hs : I fs s) : I (fs ++ es) t := by
  induction h generalizing fs with
  | nil => rwa [List.append_nil]
  | cons hshelf hshift _ ih =>
    rw [List.append_cons]
    exact ih _ (hstep hs hshelf hshift)

end System

namespace World

theorem Route.shifts {w : World} {op : Op} {es : List (System × System)} (h : w.Route op es)
    (hacc : Accounted w.system w.dues) (hh : w.system.Housed) :
    System.Shifts op w.system es (w.act op).system := by
  cases h with
  | once hop => exact .cons hacc.shelved (act_shift hacc hh hop) .nil
  | paces _ hes => exact hes.shifts hacc.shelved

variable {P : System → Op → Prop} {w : World} {ls : List Leg}

/-- **What each leg keeps, a journey keeps.** -/
theorem Journey.keeps_legs {I : List Leg → System → Prop} (h : Journey P {} ls w)
    (h0 : I [] .initial)
    (hstep : ∀ {ls : List Leg} {v : World} {op : Op} {es : List (System × System)}, I ls v.system →
      v.Route op es → System.Shifts op v.system es (v.act op).system →
      I (ls ++ [⟨v, op, es⟩]) (v.act op).system) : I ls w.system := by
  induction h with
  | refl => exact h0
  | @act v ls op es h hop hes ih =>
    have hpassed := (h.onward.ran_any (Ran.start (P := P))).passed
    exact hstep ih hes (hes.shifts hpassed.accounted hpassed.housed)
  | reorder _ _ ih => exact ih

/-- **What each shift keeps, a journey keeps.** -/
theorem Journey.keeps {I : List (System × System) → System → Prop} (h : Journey P {} ls w)
    (h0 : I [] .initial)
    (hstep : ∀ {op : Op} {es : List (System × System)} {a b : System}, I es a → a.Shelved →
      System.Shift op a b → I (es ++ [(a, b)]) b) : I (along ls) w.system := by
  refine h.keeps_legs (I := fun ls s => I (along ls) s) h0 fun hi _ hes => ?_
  rw [along_concat]
  exact hes.keeps hstep _ hi

end World

end KernelObjects
