import KernelObjects.Proofs.Records

/-
# Lives of jobs and processes

A job is born ready and without children; it takes children while it is ready; a kill condemns it,
and when it has no child left it is buried.  A process runs until it is ended.  `System.lives`
shows just that of a state: for every job its state, its return code, its two lists and its
signals, for every process its state and its return code, and which kills there were.

Lives take few *turns* (`Lives.Turn`).  A job is condemned and a process is ended only under a
*warrant*, and signals are written by hand only under one.  Whatever is given back, killed, walked
over or asked of the object layer is a run of turns, under the warrant that the operation carries
(`World.act_turns`).  That a destructor, deep inside a chain of others, condemns nobody is thereby
said once and for all.

A view of the state that shows little makes most operations disappear.  Of the functions of the
object layer a dozen change a life; for each of the others one lemma says that lives do not show
it, and those lemmas are the bulk of this module.  A property of lives is then a property of
turns, and it is of no importance to it how many operations there are.

The signals of a job belong to its life, those of other objects do not.  So functions that signal
views have to be told apart from those that signal jobs, which takes that no koid is both
(`ViewsApart`).
-/

namespace KernelObjects

/-! ## 1. The life of a job

What happens to one life: children come and go, the job is condemned, it is buried.  These are the
functions of the object layer, without the rest of the state. -/

/-- What shows of the life of a job. -/
structure Job.Life where
  state : JobState
  returnCode : Int
  jobs : List Koid
  processes : List Koid
  /-- Nothing, if the job has already lost what every object has. -/
  signals : Option Signals

/-- The life of a job, given the signals that it shows. -/
def Job.life (j : Job) (signals : Option Signals) : Job.Life :=
  ⟨j.state, j.returnCode, j.jobs, j.processes, signals⟩

namespace Job.Life

/-- A job starts ready, without children, and shows that. -/
def newborn : Life := ⟨.ready, 0, [], [], some (Signals.noJobs ∪ Signals.noProcesses)⟩

/-- No child is listed. -/
def Vacant (a : Life) : Prop := a.processes = [] ∧ a.jobs = []

instance (a : Life) : Decidable a.Vacant := inferInstanceAs (Decidable (_ ∧ _))

/-- Clears and sets signals. -/
def signal (clear set : Signals) (a : Life) : Life :=
  { a with signals := a.signals.map fun x => x.update clear set }

/-- A job that dies shows that it has terminated. -/
def bury (a : Life) : Life := { a with state := .dead }.signal .empty .taskTerminated

/-- The signals to clear after a child has come. -/
def arrival (a : Life) : Signals :=
  (if a.processes.length = 1 then Signals.noProcesses else .empty) ∪
    (if a.jobs.length = 1 then Signals.noJobs else .empty)

/-- The signals to set after a child has left. -/
def departure (a : Life) : Signals :=
  (if a.processes = [] then Signals.noProcesses else .empty) ∪
    (if a.jobs = [] then Signals.noJobs else .empty)

/-- What the arrival of a child clears. -/
def welcome (a : Life) : Life := a.signal a.arrival .empty

/-- What becomes of a job after a child has left it. -/
def bereave (a : Life) : Life :=
  (if a.Vacant ∧ a.state = .killing then a.bury else a).signal .empty a.departure

/-- Only a ready job takes a child. -/
def take (add : Life → Life) (a : Life) : Life := if a.state = .ready then (add a).welcome else a

/-- A child job arrives. -/
def takeJob (c : Koid) : Life → Life := take fun a => { a with jobs := a.jobs ++ [c] }

/-- A process arrives. -/
def takeProcess (p : Koid) : Life → Life := take fun a => { a with processes := a.processes ++ [p] }

/-- Nothing happens to a job that does not list the child. -/
def loseJob (c : Koid) (a : Life) : Life :=
  if c ∈ a.jobs then { a with jobs := a.jobs.erase c }.bereave else a

/-- A process leaves, if it is listed. -/
def loseProcess (p : Koid) (a : Life) : Life :=
  if p ∈ a.processes then { a with processes := a.processes.erase p }.bereave else a

/-- A condemned job takes the code, and dies at once if it lists no child. -/
def condemn (code : Int) (a : Life) : Life :=
  let b := { a with returnCode := code, state := .killing }
  if b.Vacant then b.bury else b

end Job.Life

/-- What shows of the life of a process. -/
structure Process.Life where
  state : ProcessState
  returnCode : Int

/-- The life of a process. -/
def Process.life (p : Process) : Process.Life := ⟨p.state, p.returnCode⟩

/-- Whether an event says that a task was killed. -/
def Event.isKill : Event → Bool
  | jobKilled _ _ | processKilled _ _ => true
  | _ => false

/-! ## 2. All lives

Lives are read by number, so that changes of different jobs do not get in the way of each
other. -/

/-- The lives of all jobs and processes that are there, and the kills that there were. -/
structure Lives where
  nextKoid : Koid
  job : Koid → Option Job.Life
  process : Koid → Option Process.Life
  /-- The kills there were, latest first. -/
  kills : List Event

namespace Lives

variable (l : Lives)

/-- Writes the life of a job, or that it is gone. -/
def setJob (k : Koid) (x : Option Job.Life) : Lives :=
  { l with job := fun a => if k = a then x else l.job a }

/-- Writes the life of a process, or that it is gone. -/
def setProcess (k : Koid) (x : Option Process.Life) : Lives :=
  { l with process := fun a => if k = a then x else l.process a }

/-- Changes the life of a job that is there. -/
def modifyJob (k : Koid) (f : Job.Life → Job.Life) : Lives :=
  { l with job := fun a => if k = a then (l.job a).map f else l.job a }

/-- A koid is used up. -/
def passKoid : Lives := { l with nextKoid := l.nextKoid + 1 }

/-- A job is condemned with a code, and the kill is noted. -/
def condemn (k : Koid) (code : Int) : Lives :=
  { l.modifyJob k (·.condemn code) with kills := .jobKilled k code :: l.kills }

/-- A process ends with a code, and the kill is noted. -/
def endProcess (k : Koid) (code : Int) : Lives :=
  { l.setProcess k (some ⟨.dead, code⟩) with kills := .processKilled k code :: l.kills }

variable {l} {k : Koid} {f g : Job.Life → Job.Life}

theorem modifyJob_modifyJob : (l.modifyJob k f).modifyJob k g = l.modifyJob k fun a => g (f a) := by
  unfold modifyJob
  congr 1
  funext a
  dsimp only
  split
  · cases l.job a <;> rfl
  · rfl

theorem modifyJob_congr (h : ∀ a, l.job k = some a → f a = g a) :
    l.modifyJob k f = l.modifyJob k g := by
  unfold modifyJob
  congr 1
  funext a
  split
  · rename_i hk
    subst hk
    cases ha : l.job k with
    | none => rfl
    | some x => exact congrArg some (h x ha)
  · rfl

/-- A life that stays as it is. -/
theorem modifyJob_self (h : ∀ a, l.job k = some a → f a = a) : l.modifyJob k f = l := by
  have hid : l.modifyJob k id = l := by
    unfold modifyJob
    congr 1
    funext a
    split
    · exact Option.map_id_apply
    · rfl
  exact (modifyJob_congr h).trans hid

end Lives

namespace System

/-- The lives of a state.  The signals of a job stand with its object, the rest in its record. -/
def lives (s : System) : Lives where
  nextKoid := s.nextKoid
  job k := s.jobs[k]?.map fun j => j.life (s.objects[k]?.map Object.signals)
  process k := s.processes[k]?.map Process.life
  kills := s.trace.filter Event.isKill

variable {s : System}

theorem job_lives {k : Koid} {j : Job} (h : s.jobs[k]? = some j) :
    s.lives.job k = some (j.life (s.objects[k]?.map Object.signals)) := by
  show s.jobs[k]?.map _ = _
  rw [h]
  rfl

theorem job_lives_none {k : Koid} (h : s.jobs[k]? = none) : s.lives.job k = none := by
  show s.jobs[k]?.map _ = _
  rw [h]
  rfl

theorem process_lives {k : Koid} {p : Process} (h : s.processes[k]? = some p) :
    s.lives.process k = some p.life := by
  show s.processes[k]?.map _ = _
  rw [h]
  rfl

/-- Nobody's life changes where there is no job. -/
theorem modifyJob_of_none {k : Koid} (h : s.jobs[k]? = none) (f : Job.Life → Job.Life) :
    s.lives.modifyJob k f = s.lives := by
  refine Lives.modifyJob_self fun a ha => ?_
  rw [job_lives_none h] at ha
  cases ha

/-- Only the life of the job at hand counts. -/
theorem modifyJob_of_some {k : Koid} {j : Job} {f g : Job.Life → Job.Life}
    (h : s.jobs[k]? = some j) (hfg : ∀ x, f (j.life x) = g (j.life x)) :
    s.lives.modifyJob k f = s.lives.modifyJob k g := by
  refine Lives.modifyJob_congr fun a ha => ?_
  rw [job_lives h] at ha
  cases ha
  exact hfg _

theorem modifyJob_of_same {k : Koid} {j : Job} {f : Job.Life → Job.Life}
    (h : s.jobs[k]? = some j) (hf : ∀ x, f (j.life x) = j.life x) :
    s.lives.modifyJob k f = s.lives :=
  (modifyJob_of_some (g := id) h hf).trans (Lives.modifyJob_self fun _ _ => rfl)

/-! ## 3. What lives do not show

One lemma for each function beside all lives. -/

section Frame

variable (s : System)

theorem lives_log {e : Event} (h : e.isKill = false) : (s.log e).lives = s.lives := by
  unfold lives log
  rw [List.filter_cons_of_neg (by simp [h])]

/-- Objects of which the jobs among them show the same signals. -/
theorem lives_objects {objects : Store Object}
    (h : ∀ k : Nat, s.jobs.contains k →
      objects[k]?.map Object.signals = s.objects[k]?.map Object.signals) :
    ({ s with objects } : System).lives = s.lives := by
  have hjob : (fun a : Nat => s.jobs[a]?.map fun j => j.life (objects[a]?.map Object.signals)) =
      fun a : Nat => s.jobs[a]?.map fun j => j.life (s.objects[a]?.map Object.signals) := by
    funext a
    cases hj : s.jobs[a]? with
    | none => rfl
    | some j => rw [h a (Store.contains_iff.2 ⟨j, hj⟩)]
  unfold lives
  simp only [hjob]

theorem lives_modifyObject {k : Koid} {f : Object → Object} (h : ∀ o, (f o).signals = o.signals) :
    ({ s with objects := s.objects.modify k f } : System).lives = s.lives :=
  s.lives_objects fun a _ => Store.map_modify (fun o _ => h o) a

/-- What is no job comes and goes as an object. -/
theorem lives_eraseObject {k : Koid} (hk : s.jobs[k]? = none) :
    ({ s with objects := s.objects.erase k } : System).lives = s.lives := by
  refine s.lives_objects fun a ha => ?_
  rw [Store.getElem?_erase, if_neg]
  rintro rfl
  rw [Store.contains_eq_isSome, hk] at ha
  cases ha

theorem lives_insertObject {k : Koid} (hk : s.jobs[k]? = none) (o : Object) :
    ({ s with objects := s.objects.insert k o } : System).lives = s.lives := by
  refine s.lives_objects fun a ha => ?_
  rw [Store.getElem?_insert, if_neg]
  rintro rfl
  rw [Store.contains_eq_isSome, hk] at ha
  cases ha

theorem lives_modifyProcess {k : Koid} {f : Process → Process}
    (h : ∀ p, s.processes[k]? = some p → (f p).life = p.life) :
    (s.modifyProcess k f).lives = s.lives := by
  have hprocess : ∀ a : Nat, (s.processes.modify k f)[a]?.map Process.life =
      s.processes[a]?.map Process.life := Store.map_modify h
  unfold lives modifyProcess
  simp only [hprocess]

@[simp] theorem lives_unbindSlot (slot : Option PortId) : (s.unbindSlot slot).lives = s.lives := by
  cases slot <;> rfl

theorem lives_openSharedArena : s.openSharedArena.lives = s.lives := by
  rw [openSharedArena_eq]
  split <;> rfl

theorem lives_zeroHandles (k : Koid) : (s.zeroHandles k).lives = s.lives := by
  unfold zeroHandles
  dsimp only
  split
  · exact s.lives_log rfl
  · exact s.lives_log rfl

theorem lives_closeHandle (h : HandleId) : (s.closeHandle h).1.lives = s.lives := by
  unfold closeHandle
  split
  · rfl
  · rename_i r _
    have hcounted : ∀ t : System, t.lives = s.lives → (t.log (.handleClosed r.base)).lives =
        s.lives := fun t ht => (t.lives_log rfl).trans ht
    have herased : ({ s with
        arenas := s.arenas.modify r.arena fun a => a.erase r.base
        objects := s.objects.modify r.object fun o => { o with handles := o.handles - 1 } }
        : System).lives = s.lives :=
      lives_modifyObject { s with arenas := s.arenas.modify r.arena fun a => a.erase r.base }
        fun _ => rfl
    dsimp only
    split
    · exact (lives_zeroHandles _ _).trans (hcounted _ herased)
    · exact hcounted _ herased

theorem lives_makeHandle (arena : ArenaId) (k : Koid) (rights : Rights) (mayGrow : Bool) :
    (s.makeHandle arena k rights mayGrow).2.lives = s.lives := by
  obtain he | he | ⟨a, -, -, he⟩ := s.makeHandle_cases arena k rights mayGrow
  · rw [he]
  · rw [he]
    rfl
  · rw [he]
    exact s.lives_modifyObject fun _ => rfl

theorem lives_duplicateHandle (h : HandleId) (rights : Rights) :
    (s.duplicateHandle h rights).2.lives = s.lives := by
  obtain he | ⟨r, -, he⟩ := s.duplicateHandle_cases h rights
  · rw [he]
  · rw [he]
    exact s.lives_makeHandle _ _ _ _

/-! ### Signals of views -/

theorem lives_signal (k : Koid) (clear set : Signals) :
    (s.signal k clear set).lives = s.lives.modifyJob k (·.signal clear set) := by
  have hsignals : ∀ a : Nat,
      (s.objects.modify k fun o => { o with signals := o.signals.update clear set })[a]?.map
        Object.signals = if k = a
          then (s.objects[a]?.map Object.signals).map fun x => x.update clear set
          else s.objects[a]?.map Object.signals := by
    intro a
    rw [Store.getElem?_modify]
    split
    · rw [Option.map_map, Option.map_map]
      rfl
    · rfl
  unfold lives signal Lives.modifyJob
  simp only [hsignals]
  congr 1
  funext a
  cases s.jobs[a]? with
  | none => split <;> rfl
  | some j => split <;> rfl

/-- What is no job has signals of its own. -/
theorem lives_signal_of_none {k : Koid} (h : s.jobs[k]? = none) (clear set : Signals) :
    (s.signal k clear set).lives = s.lives := by
  rw [lives_signal, modifyJob_of_none h]

end Frame

/-- No view is a job. -/
def ViewsApart (s : System) : Prop := ∀ k : Koid, s.views.contains k → s.jobs[k]? = none

theorem lives_tellWatcher (h : s.ViewsApart) (v : VmoId) (b : Bool) :
    (s.tellWatcher v b).lives = s.lives := by
  unfold tellWatcher
  split
  · rfl
  · split
    · rename_i k _ hk
      have hnone : ∀ e : Event, (s.log e).jobs[k]? = none := fun _ => h k hk
      cases b
      · exact (lives_signal_of_none _ (hnone _) _ _).trans (s.lives_log rfl)
      · exact (lives_signal_of_none _ (hnone _) _ _).trans (s.lives_log rfl)
    · rfl
  · split
    · rfl
    · cases b
      · exact s.lives_log rfl
      · exact s.lives_log rfl

theorem lives_forgetClone (h : s.ViewsApart) (v c : VmoId) :
    (s.forgetClone v c).lives = s.lives := by
  obtain ⟨families, hdropped, -⟩ := s.dropClone_eq v c
  obtain he | he := s.forgetClone_cases v c
  · rw [he, hdropped]
    rfl
  · rw [he, hdropped]
    exact lives_tellWatcher (s := { s with families }) h v false

theorem lives_destroyVmo (h : s.ViewsApart) (v : VmoId) : (s.destroyVmo v).1.lives = s.lives := by
  unfold destroyVmo
  split
  · rfl
  · dsimp only
    split
    · exact lives_log _ rfl
    · have hforget := lives_forgetClone
        (s := { s with vmos := s.vmos.erase v, vmoList := s.vmoList.erase v }) h
      exact (lives_log _ rfl).trans (hforget _ _)

/-! ## 4. Children come and go

Here the functions of the object layer are opened and shown to be those on lives. -/

section Children

variable (s : System)

/-- What a change of a record shows of a life. -/
theorem lives_modifyJob {k : Koid} {f : Job → Job} {g : Job.Life → Job.Life}
    (h : ∀ j x, s.jobs[k]? = some j → (f j).life x = g (j.life x)) :
    (s.modifyJob k f).lives = s.lives.modifyJob k g := by
  have hjob : (fun a : Nat => (s.jobs.modify k f)[a]?.map fun j =>
      j.life (s.objects[a]?.map Object.signals)) = fun a : Nat =>
        if k = a then (s.jobs[a]?.map fun j => j.life (s.objects[a]?.map Object.signals)).map g
        else s.jobs[a]?.map fun j => j.life (s.objects[a]?.map Object.signals) := by
    funext a
    rw [Store.getElem?_modify]
    split
    · rename_i hk
      subst hk
      cases hj : s.jobs[k]? with
      | none => rfl
      | some j => exact congrArg some (h j _ hj)
    · rfl
  unfold lives Lives.modifyJob modifyJob
  simp only [hjob]

theorem lives_modifyJob_self {k : Koid} {f : Job → Job}
    (h : ∀ j x, s.jobs[k]? = some j → (f j).life x = j.life x) :
    (s.modifyJob k f).lives = s.lives :=
  (s.lives_modifyJob (g := id) h).trans (Lives.modifyJob_self fun _ _ => rfl)

theorem lives_markDead (k : Koid) : (s.markDead k).lives = s.lives.modifyJob k (·.bury) := by
  unfold markDead
  cases hj : s.jobs[k]? with
  | none => exact (modifyJob_of_none hj _).symm
  | some j =>
    dsimp only
    rw [lives_log _ rfl, lives_signal, lives_unbindSlot, lives_unbindSlot,
      s.lives_modifyJob (g := fun a => { a with state := .dead }) fun _ _ _ => rfl,
      Lives.modifyJob_modifyJob]
    rfl

theorem lives_halt (k : Koid) : (s.halt k).lives = s.lives := by
  unfold halt
  split
  · rfl
  · split
    · exact s.lives_log rfl
    · rfl

theorem lives_childLeft (k : Koid) : (s.childLeft k).lives = s.lives.modifyJob k (·.bereave) := by
  unfold childLeft
  cases hj : s.jobs[k]? with
  | none => exact (modifyJob_of_none hj _).symm
  | some j =>
    dsimp only
    -- the halt of the system shows in no life
    have hhalted : ∀ t : System, (t.modifyJob k fun j => { j with halted := true }).lives =
        t.lives := fun t => t.lives_modifyJob_self fun _ _ _ => rfl
    have hhalt : ∀ (t : System) (halts : Bool), (if halts then (signal
        (if halts then t.modifyJob k fun j => { j with halted := true } else t) k .empty
          (departureSignals j)).halt k
        else signal (if halts then t.modifyJob k fun j => { j with halted := true } else t) k
          .empty (departureSignals j)).lives =
        t.lives.modifyJob k (·.signal .empty (departureSignals j)) := by
      intro t halts
      cases halts with
      | false =>
        rw [if_neg Bool.false_ne_true, if_neg Bool.false_ne_true, lives_signal]
      | true =>
        rw [if_pos rfl, if_pos rfl, lives_halt, lives_signal, hhalted]
    rw [hhalt]
    have hdeparture : ∀ x, departureSignals j = (j.life x).departure := by
      intro x
      unfold departureSignals
      simp only [List.isEmpty_iff]
      rfl
    have hdies : (if (j.processes.isEmpty && j.jobs.isEmpty) && j.state = .killing
        then s.markDead k else s).lives = s.lives.modifyJob k fun a =>
          if a.Vacant ∧ a.state = .killing then a.bury else a := by
      simp only [Bool.and_eq_true, List.isEmpty_iff, decide_eq_true_eq]
      split
      · rename_i h
        rw [lives_markDead]
        exact modifyJob_of_some hj fun _ => (if_pos h).symm
      · rename_i h
        refine (modifyJob_of_same hj fun _ => ?_).symm
        exact if_neg h
    rw [hdies, Lives.modifyJob_modifyJob]
    refine modifyJob_of_some hj fun x => ?_
    rw [hdeparture x]
    rfl

theorem lives_attach {k : Koid} {add : Job → Job} {g : Job.Life → Job.Life}
    (h : ∀ j x, (add j).life x = g (j.life x)) :
    (s.attach k add).2.lives = s.lives.modifyJob k (Job.Life.take g) := by
  unfold attach
  cases hj : s.jobs[k]? with
  | none => exact (modifyJob_of_none hj _).symm
  | some j =>
    dsimp only
    split
    · rename_i hr
      rw [lives_signal, s.lives_modifyJob (g := g) fun j x _ => h j x, Lives.modifyJob_modifyJob]
      refine modifyJob_of_some hj fun x => ?_
      rw [Job.Life.take, if_pos (show (j.life x).state = .ready from hr), ← h]
      rfl
    · rename_i hr
      refine (modifyJob_of_same hj fun _ => ?_).symm
      exact if_neg hr

theorem lives_attachJob (k c : Koid) :
    (s.attachJob k c).2.lives = s.lives.modifyJob k (·.takeJob c) :=
  s.lives_attach fun _ _ => rfl

theorem lives_attachProcess (k p : Koid) :
    (s.attachProcess k p).2.lives = s.lives.modifyJob k (·.takeProcess p) :=
  s.lives_attach fun _ _ => rfl

theorem lives_detachJob (k c : Koid) :
    (s.detachJob k c).lives = s.lives.modifyJob k (·.loseJob c) := by
  unfold detachJob
  cases hj : s.jobs[k]? with
  | none => exact (modifyJob_of_none hj _).symm
  | some j =>
    dsimp only
    split
    · rename_i hc
      rw [lives_childLeft, s.lives_modifyJob (g := fun a => { a with jobs := a.jobs.erase c })
        fun _ _ _ => rfl, Lives.modifyJob_modifyJob]
      exact modifyJob_of_some hj fun _ => (if_pos hc).symm
    · rename_i hc
      refine (modifyJob_of_same hj fun _ => ?_).symm
      exact if_neg hc

theorem lives_detachProcess (k p : Koid) :
    (s.detachProcess k p).lives = s.lives.modifyJob k (·.loseProcess p) := by
  unfold detachProcess
  cases hj : s.jobs[k]? with
  | none => exact (modifyJob_of_none hj _).symm
  | some j =>
    dsimp only
    split
    · rename_i hc
      rw [lives_childLeft, s.lives_modifyJob
        (g := fun a => { a with processes := a.processes.erase p }) fun _ _ _ => rfl,
        Lives.modifyJob_modifyJob]
      exact modifyJob_of_some hj fun _ => (if_pos hc).symm
    · rename_i hc
      refine (modifyJob_of_same hj fun _ => ?_).symm
      exact if_neg hc

theorem lives_commitKill {s : System} {k : Koid} {j : Job} (code : Int)
    (hj : s.jobs[k]? = some j) : (s.commitKill code k j).lives = s.lives.condemn k code := by
  set t := s.modifyJob k fun j => { j with returnCode := code, state := .killing }
  have ht : t.lives = s.lives.modifyJob k fun a =>
      { a with returnCode := code, state := .killing } := s.lives_modifyJob fun _ _ _ => rfl
  have hlog : (t.log (.jobKilled k code)).lives =
      { t.lives with kills := .jobKilled k code :: t.lives.kills } := by
    unfold lives log
    rw [List.filter_cons_of_pos rfl]
  -- the entry of the kill and the change of the life do not meet
  have hcondemned : ∀ f : Job.Life → Job.Life, (∀ x, f (j.life x) = (j.life x).condemn code) →
      { s.lives.modifyJob k f with kills := .jobKilled k code :: s.lives.kills } =
        s.lives.condemn k code := by
    intro f hf
    rw [modifyJob_of_some hj hf]
    rfl
  unfold commitKill
  dsimp only
  split
  · rename_i hempty
    rw [lives_markDead, hlog, ht]
    refine Eq.trans ?_ (hcondemned (fun a =>
      { a with returnCode := code, state := .killing : Job.Life }.bury) fun _ =>
        (if_pos hempty).symm)
    exact congrArg (fun l : Lives => { l with kills := .jobKilled k code :: s.lives.kills })
      Lives.modifyJob_modifyJob
  · rename_i hempty
    rw [hlog, ht]
    exact hcondemned _ fun _ => (if_neg hempty).symm

theorem lives_endProcess {s : System} {k : Koid} {p : Process} (code : Int)
    (hj : s.jobs[k]? = none) (hp : s.processes[k]? = some p) :
    (s.endProcess code k).lives = s.lives.endProcess k code := by
  have hprocess : (fun a : Nat => (s.processes.modify k fun p =>
      { p with state := .dead, returnCode := code })[a]?.map Process.life) =
        fun a : Nat => if k = a then some ⟨.dead, code⟩ else s.processes[a]?.map Process.life := by
    funext a
    rw [Store.getElem?_modify]
    split
    · rename_i hk
      rw [← hk, hp]
      rfl
    · rfl
  set t := s.modifyProcess k fun p => { p with state := .dead, returnCode := code }
  have ht : t.lives = s.lives.setProcess k (some ⟨.dead, code⟩) := by
    show System.lives { s with processes := _ } = _
    unfold lives Lives.setProcess
    simp only [hprocess]
  -- A process has signals of its own, and lives show those of jobs only.
  have hsignal : (t.signal k .empty .taskTerminated).lives = t.lives :=
    t.lives_signal_of_none hj _ _
  have hlog : ((t.signal k .empty .taskTerminated).log (.processKilled k code)).lives =
      { t.lives with kills := .processKilled k code :: t.lives.kills } := by
    rw [← hsignal]
    unfold lives log
    rw [List.filter_cons_of_pos rfl]
  refine hlog.trans ?_
  rw [ht]
  rfl

end Children

/-! ## 5. Destruction

What is destroyed is gone from the lives, and its parent loses a child. -/

theorem lives_destroyObject_job {k : Koid} {j : Job} (hj : s.jobs[k]? = some j) :
    (s.destroyObject k).1.lives = match j.parent with
      | none => s.lives.setJob k none
      | some p => (s.lives.setJob k none).modifyJob p (·.loseJob k) := by
  have hgone : ({ s with objects := s.objects.erase k, jobs := s.jobs.erase k } : System).lives =
      s.lives.setJob k none := by
    have hjob : (fun a : Nat => (s.jobs.erase k)[a]?.map fun j =>
        j.life ((s.objects.erase k)[a]?.map Object.signals)) = fun a : Nat =>
          if k = a then none
          else s.jobs[a]?.map fun j => j.life (s.objects[a]?.map Object.signals) := by
      funext a
      rw [Store.getElem?_erase, Store.getElem?_erase]
      split <;> rfl
    unfold lives Lives.setJob
    simp only [hjob]
  -- Registry, counters and trace are not shown, so two steps are left: the job goes, and its
  -- parent loses it.
  have hbooks : ∀ t : System,
      (((t.unregister k).bump .jobDestroy).log (.destroyed k none)).lives = t.lives :=
    fun t => lives_log _ rfl
  unfold destroyObject
  dsimp only
  rw [hj]
  dsimp only
  rw [hbooks]
  cases j.parent with
  | none => exact hgone
  | some p =>
    dsimp only
    rw [lives_detachJob, hgone]

theorem lives_destroyObject_process {k : Koid} {p : Process} (hj : s.jobs[k]? = none)
    (hp : s.processes[k]? = some p) :
    (s.destroyObject k).1.lives =
      (s.lives.setProcess k none).modifyJob p.job (·.loseProcess k) := by
  have hgone : ({ s with objects := s.objects.erase k, processes := s.processes.erase k }
      : System).lives = s.lives.setProcess k none := by
    have hprocess : (fun a : Nat => (s.processes.erase k)[a]?.map Process.life) =
        fun a : Nat => if k = a then none else s.processes[a]?.map Process.life := by
      funext a
      rw [Store.getElem?_erase]
      split <;> rfl
    rw [← s.lives_eraseObject hj]
    unfold lives Lives.setProcess
    simp only [hprocess]
  have hbooks : ∀ t : System, ((t.bump .processDestroy).log (.destroyed k none)).lives =
      t.lives := fun t => lives_log _ rfl
  unfold destroyObject
  dsimp only
  rw [hj, hp]
  dsimp only
  rw [hbooks, lives_detachProcess, hgone]

/-- What is neither job nor process is destroyed beside all lives. -/
theorem lives_destroyObject {k : Koid} (hj : s.jobs[k]? = none) (hp : s.processes[k]? = none) :
    (s.destroyObject k).1.lives = s.lives := by
  have hgone := s.lives_eraseObject hj
  unfold destroyObject
  dsimp only
  rw [hj, hp]
  cases s.views[k]? with
  | some v => exact (lives_log _ rfl).trans hgone
  | none =>
    cases s.witnesses[k]? with
    | some w => exact (lives_log _ rfl).trans hgone
    | none => exact hgone

theorem lives_destroyHandle (h : HandleId) : (s.destroy (.handle h)).1.lives = s.lives := by
  simp only [destroy]
  split <;> rfl

end System

theorem Accounted.viewsApart {s : System} {d : List Task} (h : Accounted s d) : s.ViewsApart := by
  intro k hk
  obtain ⟨v, hv⟩ := Store.contains_iff.1 hk
  exact (h.only_view hv).1

theorem Job.Edit.life {a : Topic} {j j' : Job} (h : j.Edit a j') (x : Option Signals) :
    j'.life x = j.life x := by
  cases h with
  | name | mark | policy => rfl
  | slot b p => cases b <;> rfl

theorem Process.Edit.life {a : Topic} {p p' : Process} (h : p.Edit a p') : p'.life = p.life := by
  cases h <;> rfl

/-- Edits do not show. -/
theorem Edit.lives {a : Topic} {s t : System} (h : Edit a s t) : t.lives = s.lives := by
  induction h with
  | refl | config | space | vmo | member | owned | owner | unmapped => rfl
  | trans _ _ ih ih' => exact ih'.trans ih
  | job h => exact System.lives_modifyJob_self _ fun j x hj => (h j hj).life x
  | process h => exact System.lives_modifyProcess _ fun p hp => (h p hp).life

/-! ## 6. Turns

The ways in which lives change.  A turn that does something on purpose has a warrant as a
premise. -/

/-- One of the ways in which lives change. -/
inductive Lives.Turn (W : Warrant) : Lives → Lives → Prop
  | koid {l : Lives} : Turn W l l.passKoid
  | jobBorn {l : Lives} : Turn W l (l.setJob l.nextKoid (some .newborn)).passKoid
  | processBorn {l : Lives} : Turn W l (l.setProcess l.nextKoid (some ⟨.running, 0⟩)).passKoid
  | jobGone {l : Lives} (k : Koid) : Turn W l (l.setJob k none)
  | processGone {l : Lives} (k : Koid) : Turn W l (l.setProcess k none)
  | takesJob {l : Lives} (k c : Koid) : Turn W l (l.modifyJob k (·.takeJob c))
  | takesProcess {l : Lives} (k p : Koid) : Turn W l (l.modifyJob k (·.takeProcess p))
  | losesJob {l : Lives} (k c : Koid) : Turn W l (l.modifyJob k (·.loseJob c))
  | losesProcess {l : Lives} (k p : Koid) : Turn W l (l.modifyJob k (·.loseProcess p))
  | signalled {l : Lives} {k : Koid} (h : W.signals k) (clear set : Signals) :
      Turn W l (l.modifyJob k (·.signal clear set))
  | condemned {l : Lives} {k : Koid} {code : Int} {a : Job.Life} (h : W.kills k code)
      (ha : l.job k = some a) (hr : a.state = .ready) : Turn W l (l.condemn k code)
  | ended {l : Lives} {k : Koid} {code : Int} {a : Process.Life} (h : W.ends k code)
      (ha : l.process k = some a) (hr : a.state = .running) : Turn W l (l.endProcess k code)

/-- Any number of turns. -/
abbrev Lives.Turns (W : Warrant) : Lives → Lives → Prop := Relation.ReflTransGen (Lives.Turn W)

theorem Lives.Turn.run {W : Warrant} {l m : Lives} (h : Turn W l m) : Turns W l m := .single h

/-- What shows in no life. -/
theorem Lives.Turns.of_eq {W : Warrant} {l m : Lives} (h : m = l) : Turns W l m := h ▸ .refl

/-- What needs no warrant happens under any. -/
theorem Lives.Turn.of_free {W : Warrant} {l m : Lives} (h : Turn {} l m) : Turn W l m := by
  cases h with
  | koid => exact .koid
  | jobBorn => exact .jobBorn
  | processBorn => exact .processBorn
  | jobGone k => exact .jobGone k
  | processGone k => exact .processGone k
  | takesJob k c => exact .takesJob k c
  | takesProcess k p => exact .takesProcess k p
  | losesJob k c => exact .losesJob k c
  | losesProcess k p => exact .losesProcess k p
  | signalled h => exact h.elim
  | condemned h => exact h.elim
  | ended h => exact h.elim

theorem Lives.Turns.of_free {W : Warrant} {l m : Lives} (h : Turns {} l m) : Turns W l m :=
  Relation.ReflTransGen.mono (fun _ _ hturn => hturn.of_free) _ _ h

namespace System

open Lives (Turn Turns)

variable {W : Warrant} {s : System} {d : List Task}

theorem destroyObject_turns (s : System) (refs : RefCounts) (k : Koid) :
    Turns W s.lives (destroyObject { s with refs } k).1.lives := by
  cases hj : s.jobs[k]? with
  | some j =>
    rw [lives_destroyObject_job (s := { s with refs }) hj]
    cases j.parent with
    | none => exact Turn.run (.jobGone k)
    | some p => exact .tail (Turn.run (.jobGone k)) (.losesJob p k)
  | none =>
    cases hp : s.processes[k]? with
    | some p =>
      rw [lives_destroyObject_process (s := { s with refs }) hj hp]
      exact .tail (Turn.run (.processGone k)) (.losesProcess p.job k)
    | none => exact .of_eq (lives_destroyObject (s := { s with refs }) hj hp)

/-- **What one task does to lives.** -/
theorem perform_turns {x : Task} (hacc : Accounted s (x :: d)) :
    Turns W s.lives (s.perform x).1.lives := by
  cases x with
  | release r =>
    unfold perform
    dsimp only
    split
    · exact .refl
    · -- Of the things whose last reference may go only jobs and processes have lives.  A VM
      -- object that goes may be the last clone of its original, whose watcher is told then; that
      -- shows in the signals of a view, not of a job.
      cases r with
      | object k => exact destroyObject_turns s _ k
      | vmo v =>
        exact .of_eq (lives_destroyVmo (s := { s with refs := s.refs.release (.vmo v) })
          hacc.viewsApart v)
      | handle h =>
        exact .of_eq (lives_destroyHandle (s := { s with refs := s.refs.release (.handle h) }) h)
      | mapping m => exact .refl
      | listener o => exact .refl
    · exact .refl
  | close h => exact .of_eq (s.lives_closeHandle h)
  | closeTable t =>
    unfold perform
    dsimp only
    split
    · exact .refl
    · exact .refl

theorem lives_emptied (s : System) (t : TableId) (table : Table) :
    (s.emptied t table).lives = s.lives := by
  obtain ⟨handles, he, -⟩ := s.emptied_eq t table
  rw [he]
  rfl

theorem commitKill_turns {k : Koid} {j : Job} {code : Int} (hj : s.jobs[k]? = some j)
    (hr : j.state = .ready) (hW : W.kills k code) :
    Turns W s.lives (s.commitKill code k j).lives := by
  rw [lives_commitKill code hj]
  exact Turn.run (.condemned hW (job_lives hj) hr)

end System

/-- **What one chore does to lives**, under the warrant of its operation. -/
theorem Chore.turns {op : Op} {v w : World} (h : Chore op v w) (hacc : Accounted v.system v.dues) :
    Lives.Turns op.warrant v.system.lives w.system.lives := by
  cases h with
  | reorder => exact .refl
  | share => exact .refl
  | perform x => exact System.perform_turns hacc
  | @emptied s d t table => exact .of_eq (s.lives_emptied t table)
  | @ended s d k p code hW hp hr =>
    have hended : (s.endProcess code k).lives = _ :=
      System.lives_endProcess code (hacc.only_process hp).1 hp
    exact hended ▸ Lives.Turn.run (.ended hW (System.process_lives hp) hr)
  | @left s d k p => exact s.lives_detachProcess k p ▸ Lives.Turn.run (.losesProcess k p)
  | condemned hW hj hr => exact System.commitKill_turns hj hr hW
  | @told s d k => exact .of_eq (s.lives_zeroHandles k)
  | @made s d k arena rights mayGrow =>
    have hlives := s.lives_makeHandle arena k rights mayGrow
    generalize s.makeHandle arena k rights mayGrow = r at hlives
    obtain ⟨_ | _, t⟩ := r <;> exact .of_eq hlives
  | adopted => exact .refl
  | @unslotted s d refuses k j p debugger =>
    refine .of_eq (s.lives_modifyJob_self fun j x _ => ?_)
    cases debugger <;> rfl
  | @dropped s d p k => exact .of_eq (s.lives_modifyProcess fun _ _ => rfl)

/-- **Chores are a run of turns.** -/
theorem Chores.turns {op : Op} {v w : World} (h : Chores op v w)
    (hacc : Accounted v.system v.dues) :
    Lives.Turns op.warrant v.system.lives w.system.lives :=
  h.keep (I := fun u => Lives.Turns op.warrant v.system.lives u.system.lives) hacc .refl
    fun hacc hchore hi => hi.trans (hchore.turns hacc)

namespace System

open Lives (Turn Turns)

variable {W : Warrant} {s : System} {d : List Task}

/-- What is given back needs no warrant. -/
theorem release_turns {r : Ref} (hacc : Accounted s (.release r :: d)) :
    Turns W s.lives (s.release r).lives :=
  ((s.release_chores r d : Chores .settledConfig _ _).turns hacc).of_free

theorem tableClear_turns (hacc : Accounted s d) (t : TableId) :
    Turns W s.lives (s.tableClear t).2.lives :=
  ((s.tableClear_chores t d : Chores .settledConfig _ _).turns hacc).of_free

/-! ## 7. Operations

An operation is a birth, or chores, or it happens beside all lives, or it is one of the few turns
that are asked for by name. -/

/-! ### Births -/

theorem lives_addJob {job : Job} (hjob : ∀ x, job.life x = ⟨.ready, 0, [], [], x⟩) :
    (s.addJob job).2.lives = (s.lives.setJob s.nextKoid (some .newborn)).passKoid := by
  obtain ⟨counters, registry, he⟩ := s.addJob_eq job
  rw [he]
  have hborn : (fun a : Nat => (s.jobs.insert s.nextKoid job)[a]?.map fun j =>
      j.life ((s.objects.insert s.nextKoid
        { signals := Signals.noJobs ∪ Signals.noProcesses })[a]?.map Object.signals)) =
        fun a : Nat => if s.nextKoid = a then some .newborn
          else s.jobs[a]?.map fun j => j.life (s.objects[a]?.map Object.signals) := by
    funext a
    rw [Store.getElem?_insert, Store.getElem?_insert]
    split
    · exact congrArg some (hjob _)
    · rfl
  show (s.withJob (Signals.noJobs ∪ Signals.noProcesses) job).lives = _
  unfold lives withJob Lives.setJob Lives.passKoid
  simp only [hborn]

theorem createRootJob_turns (s : System) (hasHaltHandler : Bool) :
    Turns W s.lives (s.createRootJob hasHaltHandler).2.lives := by
  unfold createRootJob
  dsimp only
  rw [lives_addJob fun _ => rfl, s.settledConfig_edit.lives, settledConfig_eq]
  exact Turn.run .jobBorn

theorem createJob_turns (hacc : Accounted s d) (parent : Koid) :
    Turns W s.lives (s.createJob parent).2.lives := by
  have hentered : ∀ (q : Job) (height : Nat),
      Turns W s.lives (s.addChild parent q height).lives := by
    intro q height
    have hborn : (s.addChild parent q height).lives = _ := lives_addJob fun _ => rfl
    exact hborn ▸ Turn.run .jobBorn
  have hcreation := createJob_creation hacc parent
  generalize s.createJob parent = r at hcreation
  cases hcreation with
  | absent | low => exact .refl
  | @taken q height =>
    have hlisted := (s.addChild parent q height).lives_attachJob parent s.nextKoid
    exact hlisted ▸ (hentered q height).tail (.takesJob parent s.nextKoid)
  | @untaken q height hq hh hr =>
    exact (hentered q height).trans (release_turns (addChild_accounted hacc hq hh hr))

theorem lives_enterProcess (hfresh : s.jobs[s.nextKoid]? = none) (job : Koid) (name : Name)
    (policy : Policy) : (s.enterProcess job name policy).lives =
      (s.lives.setProcess s.nextKoid (some ⟨.running, 0⟩)).passKoid := by
  have hprocess : (fun a : Nat => (s.processes.insert s.nextKoid
      { job, name, policy, table := s.nextId })[a]?.map Process.life) =
        fun a : Nat => if s.nextKoid = a then some ⟨.running, 0⟩
          else s.processes[a]?.map Process.life := by
    funext a
    rw [Store.getElem?_insert]
    split <;> rfl
  rw [← s.lives_insertObject hfresh { signals := .empty }]
  unfold enterProcess withProcess bump lives Lives.setProcess Lives.passKoid
  simp only [hprocess]

theorem createProcess_turns (hacc : Accounted s d) (job : Koid) (name : Name) :
    Turns W s.lives (s.createProcess job name).2.lives := by
  have hcreation := s.createProcess_creation job name
  generalize s.createProcess job name = r at hcreation
  cases hcreation with
  | absent => exact .refl
  | offered hoffer =>
    have hacc' := openSharedArena_accounted hacc
    rw [← s.lives_openSharedArena]
    generalize s.openSharedArena = t at hoffer hacc'
    have hentered : ∀ j : Job, Turns W t.lives (t.enterProcess job name j.policy).lives := fun j =>
      lives_enterProcess hacc'.fresh_object.2.1 job name j.policy ▸ Turn.run .processBorn
    cases hoffer with
    | @taken j =>
      have hlisted := (t.enterProcess job name j.policy).lives_attachProcess job t.nextKoid
      exact hlisted ▸ (hentered j).tail (.takesProcess job t.nextKoid)
    | @untaken j hj =>
      exact (hentered j).trans (release_turns
        (enterProcess_accounted hacc' (Store.contains_iff.2 ⟨j, hj⟩) name j.policy))

theorem createView_turns (hacc : Accounted s d) (v : VmoId) :
    Turns W s.lives (s.createView v).2.lives := by
  have hborn : (s.enterView v).lives = s.lives.passKoid := by
    rw [← s.lives_insertObject hacc.fresh_object.2.1 { signals := .noClones }]
    rfl
  have hentered : Turns W s.lives (s.enterView v).lives := hborn ▸ Turn.run .koid
  have hcreation := s.createView_creation v
  generalize s.createView v = r at hcreation
  cases hcreation with
  | absent => exact .refl
  | stamped ho =>
    exact hentered.trans (release_turns (enterView_accounted hacc (Store.contains_iff.2 ⟨_, ho⟩)))
  | taken => exact hentered.trans (Turns.of_eq ((s.enterView v).setUserId_edit v s.nextKoid).lives)

theorem createWitness_turns (hacc : Accounted s d) (label : String) (signals : Signals) :
    Turns W s.lives (s.createWitness label signals).2.lives := by
  have hborn : (s.createWitness label signals).2.lives = s.lives.passKoid := by
    rw [← s.lives_insertObject hacc.fresh_object.2.1 { signals }]
    rfl
  exact hborn ▸ Turn.run .koid

/-! ### Beside all lives -/

section Beside

variable (s)

theorem lives_createVmo (size : Nat) (options : BitVec 32) :
    (s.createVmo size options).2.lives = s.lives := by
  have hcreation := s.createVmo_creation size options
  generalize s.createVmo size options = r at hcreation
  cases hcreation <;> rfl

theorem lives_cloneVmo (h : s.ViewsApart) (v : VmoId) (ask : CloneRequest) :
    (s.cloneVmo v ask).2.lives = s.lives := by
  have hcreation := s.cloneVmo_creation v ask
  generalize s.cloneVmo v ask = r at hcreation
  cases hcreation with
  | refused | further => rfl
  | @first o c =>
    exact lives_tellWatcher (s := s.withClone v (o.cloneRecord v ask)
      { size := c, parentOffset := ask.offset }) h v true

end Beside

end System

/-- **Every operation is a run of turns, under the warrant that it carries.** -/
theorem World.act_turns {w : World} (hacc : Accounted w.system w.dues) (op : Op) :
    Lives.Turns op.warrant w.system.lives (w.act op).system.lives := by
  obtain ⟨s, d⟩ := w
  have hacc : Accounted s d := hacc
  -- what no life shows is a run of no turns; what an operation gives out does not show either
  have beside : ∀ {W : Warrant} {t : System}, t.lives = s.lives →
      Lives.Turns W s.lives t.lives := fun h => .of_eq h
  have after : ∀ {W : Warrant} {α : Type} {e : List Task} {r : Outcome α × System}
      {due : α → Task}, Lives.Turns W s.lives r.2.lives →
        Lives.Turns W s.lives (World.after ⟨s, e⟩ r due).system.lives := by
    rintro W α e ⟨_ | _, t⟩ due h
    · exact h
    · exact h
  have chored : ∀ {op : Op}, op.DoesChores →
      Lives.Turns op.warrant s.lives (World.act ⟨s, d⟩ op).system.lives :=
    fun hop => (act_chores (w := ⟨s, d⟩) hacc hop).turns hacc
  cases op with
  | createRootJob hasHaltHandler => exact s.createRootJob_turns hasHaltHandler
  | createJob parent => exact after (System.createJob_turns hacc parent)
  | createProcess job name => exact after (System.createProcess_turns hacc job name)
  | createView v => exact after (System.createView_turns hacc v)
  | createWitness label signals => exact System.createWitness_turns hacc label signals
  | createVmo size options =>
    rw [act]
    exact after (beside (s.lives_createVmo size options))
  | cloneVmo v ask => exact after (beside (s.lives_cloneVmo hacc.viewsApart v ask))
  | openTable process arena => exact beside rfl
  | createListener label => exact beside rfl
  | createMapping space object offset size => exact beside rfl
  | newArena capacity => exact beside rfl
  | openSharedArena => exact beside s.lives_openSharedArena
  | openPort kind key => exact beside rfl
  | share r =>
    rw [act]
    split
    · exact beside rfl
    · exact .refl
  | makeHandle arena k rights mayGrow =>
    rw [act]
    split
    · exact after (beside (s.lives_makeHandle arena k rights mayGrow))
    · exact .refl
  | duplicateHandle a rights => exact after (beside (s.lives_duplicateHandle a rights))
  | tableRemove t value => exact after (beside (s.tableRemove_edit t value).lives)
  | drop | makeFromKernel | tableAdd | tableDuplicate | tableClear | killJob | killProcess
  | enforcePolicy | resetPort => exact chored trivial
  | attachProcess k p =>
    exact s.lives_attachProcess k p ▸ Lives.Turn.run (.takesProcess k p)
  | detachProcess k p => exact s.lives_detachProcess k p ▸ Lives.Turn.run (.losesProcess k p)
  | unbindPort p => exact beside rfl
  | signal k clear set =>
    exact s.lives_signal k clear set ▸ Lives.Turn.run (.signalled rfl clear set)
  | zeroHandles k => exact beside (s.lives_zeroHandles k)
  | forgetClone v c => exact beside (System.lives_forgetClone hacc.viewsApart v c)
  | openSpace | settledConfig | installConfig | setKillOnOom | nameJob | nameProcess | nameVmo
  | amendPolicy | bindPort | report | dropReports | setProcess | setUserId | setWatcher
  | recordClone
  | addMapping | removeMapping | unmapSpan | rangeChanged | commit | decommit | resize
  | setCachePolicy =>
    exact beside (act_edit rfl _).lives

end KernelObjects
