import KernelObjects.Proofs.Stage

/-
# What a creation comes to

A child job, a process or a view is entered first and then offered to the thing that it belongs
to.  What is turned down is given back at once.  A VM object, a clone or a handle is entered only
if nothing is in the way.  Here each creation is read off its program once, case by case
(`System.JobCreation`, `System.ProcessCreation`, `System.VmoCreation`, `System.CloneCreation`,
`System.ViewCreation`, `System.makeHandle_cases`), so that whoever follows a creation goes through
the cases by their names and not through the program.

What is entered is due to be given back and otherwise in order (`addChild_moves` and so on), so
giving it back is like giving back anything else.

Each case names the checks that were passed or failed and the state that it ends in, in terms of
the states that births are made of.  So a change to the order of two checks is a change to the
cases here, and to nobody who follows them, unless it makes a difference to what is left.
-/

namespace KernelObjects

/-- The record of a clone of a VM object. -/
def Vmo.cloneRecord (o : Vmo) (v : VmoId) (ask : CloneRequest) : Vmo where
  family := o.family
  parent := some v
  options := if ask.resizable then Vmo.resizableBit else 0
  name := if ask.copyName then Name.ofString o.name.text else Name.blank

namespace System

variable {s t : System} {d : List Task} {A C : Prop}

/-! ## 1. Giving back at once

What a refused creation gives back is the only reference to something new.  So one thing is
destroyed, and of what it held only a reference is given back, which is not the last one. -/

/-- Giving back one of several references changes nothing but their number. -/
theorem release_of_many {r : Ref} (h : 1 < s.refCount r) :
    s.release r = { s with refs := s.refs.release r } := by
  have hperform : s.perform (.release r) = ({ s with refs := s.refs.release r }, []) := by
    unfold perform
    dsimp only
    split
    · omega
    · omega
    · rfl
  unfold release
  rw [settle, hperform]
  exact settle.eq_1 _

/-- The only reference to an object is given back.  What the object referred to stays, if something
else refers to it. -/
theorem release_of_one {k : Koid} {r : Ref} {ts : List Task} (h : s.refCount (.object k) = 1)
    (ht : ({ s with refs := s.refs.release (.object k) } : System).destroyObject k =
      (t, .release r :: ts)) (hr : 1 < (s.refs.release (.object k)).count r) :
    s.release (.object k) =
      ({ t with refs := (s.refs.release (.object k)).release r } : System).settle ts := by
  have hrefs : t.refs = s.refs.release (.object k) := by
    have hkept := refs_destroyObject { s with refs := s.refs.release (.object k) } k
    rwa [ht] at hkept
  have hfirst : s.release (.object k) = t.settle ([.release r] ++ ts) := by
    unfold release
    rw [settle]
    simp only [perform, h, destroy, ht, List.append_nil, List.cons_append, List.nil_append]
  have hmany : 1 < t.refCount r := by
    unfold refCount
    rwa [hrefs]
  rw [hfirst, settle_append, ← hrefs]
  exact congrArg (settle · ts) (release_of_many hmany)

/-- A new object refers to one thing that was there. -/
theorem count_entered {r : Ref} (hacc : Accounted s d) (hr : s.Present r) :
    ((s.refs.retain (.object s.nextKoid)).retain r).count (.object s.nextKoid) = 1 ∧
      1 < (((s.refs.retain (.object s.nextKoid)).retain r).release (.object s.nextKoid)).count
        r := by
  have hzero : s.refs.count (.object s.nextKoid) = 0 :=
    hacc.refCount_of_not_present hacc.not_present_object
  have hpos : 0 < s.refs.count r := (hacc.present r).1 hr
  have hne : .object s.nextKoid ≠ r := fun he => hacc.not_present_object (he ▸ hr)
  rw [RefCounts.count_release, if_neg hne, RefCounts.count_retain, if_neg hne.symm,
    RefCounts.count_retain, if_pos rfl, RefCounts.count_retain, if_pos rfl, RefCounts.count_retain,
    if_neg hne]
  omega

/-! ## 2. Offers

A parent takes a child if it is ready, and otherwise stays as it is.  It is asked after the child
was entered, in a state that has the same parent. -/

/-- A ready job takes a child. -/
theorem attach_of_ready {k : Koid} {add : Job → Job} {j : Job} (hj : s.jobs[k]? = some j)
    (hr : j.state = .ready) :
    s.attach k add = (true, (s.modifyJob k add).signal k (arrivalSignals (add j)) .empty) := by
  unfold attach
  rw [hj]
  exact if_pos hr

/-- A job that is not ready turns a child down and stays as it is. -/
theorem attach_of_not_ready {k : Koid} {add : Job → Job} {j : Job} (hj : s.jobs[k]? = some j)
    (hr : j.state ≠ .ready) : s.attach k add = (false, s) := by
  unfold attach
  rw [hj]
  exact if_neg hr

/-- What is there lies below what is handed out next. -/
theorem ne_nextKoid (h : Accounted s d) {k : Koid} {j : Job} (hj : s.jobs[k]? = some j) :
    s.nextKoid ≠ k := by
  rintro rfl
  rw [h.fresh_object.2.1] at hj
  cases hj

/-! ## 3. Jobs

A child job: not there, too low, taken, not taken. -/

/-- Entering a job also counts it and registers it. -/
theorem addJob_eq (s : System) (job : Job) :
    ∃ counters registry, s.addJob job =
      (s.nextKoid, { s.withJob (Signals.noJobs ∪ Signals.noProcesses) job with
        counters, registry }) := by
  unfold addJob withJob
  cases job.parent with
  | none => exact ⟨_, _, rfl⟩
  | some p => exact ⟨_, _, rfl⟩

/-- A new job stands under the next koid; the others stay. -/
theorem jobs_addJob (s : System) (job : Job) (a : Nat) :
    (s.addJob job).2.jobs[a]? = if s.nextKoid = a then some job else s.jobs[a]? := by
  obtain ⟨counters, registry, he⟩ := s.addJob_eq job
  rw [he]
  exact Store.getElem?_insert _ _ _ _

/-- A new child of a job, with the policy of its parent and one generation less below it. -/
def newChild (p : Koid) (q : Job) (height : Nat) : Job :=
  { parent := some p, maxHeight := height, name := Name.blank, policy := q.policy }

/-- The state with a new child, before its parent takes it or not. -/
def addChild (s : System) (p : Koid) (q : Job) (height : Nat) : System :=
  (s.addJob (newChild p q height)).2

/-- Besides its record a child brings counters and an entry in the registry. -/
theorem addChild_eq (s : System) (p : Koid) (q : Job) (height : Nat) :
    ∃ counters registry, s.addChild p q height =
      { s.withJob (Signals.noJobs ∪ Signals.noProcesses) (newChild p q height) with
        counters, registry } := by
  obtain ⟨counters, registry, he⟩ := s.addJob_eq (newChild p q height)
  exact ⟨counters, registry, congrArg Prod.snd he⟩

/-- The first reference to the child is its creator's, and the child takes one to its parent. -/
theorem refs_addChild (s : System) (p : Koid) (q : Job) (height : Nat) :
    (s.addChild p q height).refs = (s.refs.retain (.object s.nextKoid)).retain (.object p) := by
  obtain ⟨counters, registry, he⟩ := s.addChild_eq p q height
  rw [he]
  rfl

theorem child_addChild (s : System) (p : Koid) (q : Job) (height : Nat) :
    (s.addChild p q height).jobs[s.nextKoid]? = some (newChild p q height) :=
  (s.jobs_addJob _ _).trans (if_pos rfl)

/-- The parent is what it was. -/
theorem parent_addChild (h : Accounted s d) {p : Koid} {q : Job} (hq : s.jobs[p]? = some q)
    (height : Nat) : (s.addChild p q height).jobs[p]? = some q := by
  unfold addChild
  rw [jobs_addJob, if_neg (ne_nextKoid h hq), hq]

/-- A child of a parent that will not take it is due to be given back. -/
theorem addChild_moves {p : Koid} {q : Job} {height : Nat} (hq : s.jobs[p]? = some q)
    (hh : q.maxHeight = height + 1) (hr : q.state ≠ .ready) :
    Moves A C ⟨s, d⟩ ⟨s.addChild p q height, .release (.object s.nextKoid) :: d⟩ := by
  obtain ⟨counters, registry, he⟩ := s.addChild_eq p q height
  rw [he]
  have hborn : Birth A C ⟨s, d⟩ ⟨s.withJob (Signals.noJobs ∪ Signals.noProcesses)
      (newChild p q height), .release (.object s.nextKoid) :: d⟩ :=
    .job rfl rfl rfl fun p' hp' => by
      cases hp'
      exact ⟨q, hq, hr, hh⟩
  exact hborn.moves.trans (Inert.moves (inert_books _ counters registry) _)

theorem addChild_accounted (hacc : Accounted s d) {p : Koid} {q : Job} {height : Nat}
    (hq : s.jobs[p]? = some q) (hh : q.maxHeight = height + 1) (hr : q.state ≠ .ready) :
    Accounted (s.addChild p q height) (.release (.object s.nextKoid) :: d) :=
  (addChild_moves (A := False) (C := False) hq hh hr).accounted hacc

/-- What comes of the creation of a child job. -/
inductive JobCreation (s : System) (p : Koid) : Outcome Koid × System → Prop
  | absent (h : s.jobs[p]? = none) : JobCreation s p (.error .badState, s)
  /-- No job may be created below the parent. -/
  | low {q : Job} (hq : s.jobs[p]? = some q) (hh : q.maxHeight = 0) :
      JobCreation s p (.error .outOfRange, s)
  | taken {q : Job} {height : Nat} (hq : s.jobs[p]? = some q) (hh : q.maxHeight = height + 1)
      (hr : q.state = .ready) :
      JobCreation s p (.ok s.nextKoid, ((s.addChild p q height).attachJob p s.nextKoid).2)
  | untaken {q : Job} {height : Nat} (hq : s.jobs[p]? = some q) (hh : q.maxHeight = height + 1)
      (hr : q.state ≠ .ready) :
      JobCreation s p (.error .badState, (s.addChild p q height).release (.object s.nextKoid))

/-- What comes of the creation of a job: the cases are the guards in the order in which they
stand. -/
theorem createJob_creation (h : Accounted s d) (p : Koid) : s.JobCreation p (s.createJob p) := by
  unfold createJob
  cases hq : s.jobs[p]? with
  | none => exact .absent hq
  | some q =>
    dsimp only
    cases hh : q.maxHeight with
    | zero => exact .low hq hh
    | succ height =>
      have hparent := parent_addChild h hq height
      dsimp only
      -- The program asks the parent after the child was entered, and gets an answer.  By then the
      -- parent is what it was before, so the answer says whether it is ready.
      split
      · rename_i u hu
        have htakes : (s.addChild p q height).attachJob p s.nextKoid = (true, u) := hu
        by_cases hr : q.state = .ready
        · have htaken := JobCreation.taken hq hh hr
          rw [htakes] at htaken
          exact htaken
        · rw [attachJob, attach_of_not_ready hparent hr] at htakes
          cases htakes
      · rename_i u hu
        have hdeclines : (s.addChild p q height).attachJob p s.nextKoid = (false, u) := hu
        by_cases hr : q.state = .ready
        · rw [attachJob, attach_of_ready hparent hr] at hdeclines
          cases hdeclines
        · rw [attachJob, attach_of_not_ready hparent hr] at hdeclines
          cases hdeclines
          exact .untaken hq hh hr

/-! ## 4. Processes

A process needs a table, and the table an arena, so there are two steps before the offer. -/

/-- The shared arena is set up as an empty one, and that settles the limits; nothing else changes,
and nothing at all if it was set up before. -/
theorem openSharedArena_eq (s : System) : s.openSharedArena =
    if s.arenas.contains sharedArena then s
    else { s with
      config := some (s.config.getD {})
      arenas :=
        s.arenas.insert sharedArena (Arena.ofCapacity (s.config.getD {}).arenaCapacity) } := by
  unfold openSharedArena settledConfig
  split
  · rfl
  · cases hc : s.config with
    | none => rfl
    | some c =>
      dsimp only [Option.getD]
      rw [hc]

/-- Which koid comes next says nothing about arenas. -/
theorem openSharedArena_nextKoid (s : System) (k : Koid) :
    ({ s with nextKoid := k } : System).openSharedArena =
      { s.openSharedArena with nextKoid := k } := by
  rw [openSharedArena_eq, openSharedArena_eq]
  dsimp only
  split <;> rfl

/-- Opening the shared arena gives out no koid and shows in no job. -/
theorem openSharedArena_keeps (s : System) :
    s.openSharedArena.nextKoid = s.nextKoid ∧ s.openSharedArena.jobs = s.jobs := by
  rw [openSharedArena_eq]
  split <;> exact ⟨rfl, rfl⟩

/-- The shared arena opens at most once, with limits that are settled then. -/
theorem openSharedArena_moves (h : Accounted s d) : Moves A C ⟨s, d⟩ ⟨s.openSharedArena, d⟩ := by
  rw [openSharedArena_eq]
  split
  · exact .refl
  · rename_i hc
    have harena : Birth A C ⟨s, d⟩ ⟨{ s with
        arenas := s.arenas.insert sharedArena
          (Arena.ofCapacity (s.config.getD {}).arenaCapacity) }, d⟩ :=
      .arena (Store.contains_eq_false_iff.1 (Bool.eq_false_iff.2 hc)) h.bounded.nextId_pos _
    have hsettled : ∀ u : System, Inert u { u with config := some (s.config.getD {}) } :=
      fun u => { Inert.refl u with }
    exact harena.moves.trans (Inert.moves (hsettled _) d)

theorem openSharedArena_accounted (h : Accounted s d) : Accounted s.openSharedArena d :=
  (openSharedArena_moves (A := False) (C := False) h).accounted h

/-- The state with a new process and its table, before the job takes the process or not. -/
def enterProcess (s : System) (job : Koid) (name : Name) (policy : Policy) : System :=
  bump (withProcess { s with
      nextId := s.nextId + 1
      tables := s.tables.insert s.nextId { process := s.nextKoid, arena := sharedArena } } .empty
    { job, name, policy, table := s.nextId }) .processCreate

/-- The table of a process is opened with it and belongs to nobody else. -/
theorem enterProcess_moves {job : Koid} (hj : s.jobs.contains job) (name : Name)
    (policy : Policy) :
    Moves A C ⟨s, d⟩ ⟨s.enterProcess job name policy, .release (.object s.nextKoid) :: d⟩ := by
  have htable : Birth A C ⟨s, d⟩ ⟨{ s with
      nextId := s.nextId + 1
      tables := s.tables.insert s.nextId { process := s.nextKoid, arena := sharedArena } }, d⟩ :=
    .table (.inl rfl)
  exact htable.moves.trans (.trans (Birth.moves (.process hj)) (Inert.moves (inert_bump _ _) _))

theorem enterProcess_accounted (hacc : Accounted s d) {job : Koid} (hj : s.jobs.contains job)
    (name : Name) (policy : Policy) :
    Accounted (s.enterProcess job name policy) (.release (.object s.nextKoid) :: d) :=
  (enterProcess_moves (A := False) (C := False) hj name policy).accounted hacc

/-- What comes of the creation of a process in a state in which the shared arena is open. -/
inductive ProcessOffer (s : System) (job : Koid) (name : Name) : Outcome Koid × System → Prop
  | taken {j : Job} (hj : s.jobs[job]? = some j) (hr : j.state = .ready) :
      ProcessOffer s job name
        (.ok s.nextKoid, ((s.enterProcess job name j.policy).attachProcess job s.nextKoid).2)
  | untaken {j : Job} (hj : s.jobs[job]? = some j) (hr : j.state ≠ .ready) :
      ProcessOffer s job name
        (.error .badState, (s.enterProcess job name j.policy).release (.object s.nextKoid))

/-- What comes of the creation of a process. -/
inductive ProcessCreation (s : System) (job : Koid) (name : Name) : Outcome Koid × System → Prop
  | absent (h : s.jobs[job]? = none) : ProcessCreation s job name (.error .badState, s)
  | offered {r : Outcome Koid × System} (h : s.openSharedArena.ProcessOffer job name r) :
      ProcessCreation s job name r

/-- What comes of the creation of a process: a job that is not there is found out before anything is
made, one that is not ready only after the process was entered. -/
theorem createProcess_creation (s : System) (job : Koid) (name : Name) :
    s.ProcessCreation job name (s.createProcess job name) := by
  unfold createProcess
  cases hj : s.jobs[job]? with
  | none => exact .absent hj
  | some j =>
    dsimp only [freshKoid]
    rw [openSharedArena_nextKoid]
    -- A process needs a table, and the table the shared arena, which may have to be opened
    -- first.  Jobs and koids are the same after that.
    obtain ⟨hkoid, hjobs⟩ := s.openSharedArena_keeps
    rw [← hjobs] at hj
    rw [← hkoid]
    refine .offered ?_
    generalize s.openSharedArena = t at hj
    have hentered : (t.enterProcess job name j.policy).jobs[job]? = some j := hj
    split
    · rename_i u hu
      have htakes : (t.enterProcess job name j.policy).attachProcess job t.nextKoid = (true, u) :=
        hu
      by_cases hr : j.state = .ready
      · have htaken : t.ProcessOffer job name _ := .taken hj hr
        rw [htakes] at htaken
        exact htaken
      · rw [attachProcess, attach_of_not_ready hentered hr] at htakes
        cases htakes
    · rename_i u hu
      have hdeclines : (t.enterProcess job name j.policy).attachProcess job t.nextKoid =
        (false, u) :=
        hu
      by_cases hr : j.state = .ready
      · rw [attachProcess, attach_of_ready hentered hr] at hdeclines
        cases hdeclines
      · rw [attachProcess, attach_of_not_ready hentered hr] at hdeclines
        cases hdeclines
        exact .untaken hj hr

/-! ## 5. VM objects

An object by itself or a clone.  Both are refused before anything is entered, if the size or the
window is too large. -/

/-- What comes of the creation of a VM object. -/
inductive VmoCreation (s : System) (size : Nat) (options : BitVec 32) :
    Outcome VmoId × System → Prop
  | unfit (h : Page.ceil? size = none) : VmoCreation s size options (.error .outOfRange, s)
  | born {c : Nat} (h : Page.ceil? size = some c) : VmoCreation s size options (.ok s.nextVmo,
      s.withVmo { family := s.nextVmo, parent := none, options, name := Name.blank }
        { size := c, parentOffset := 0 })

/-- The state with a new family that is empty still. -/
def enterFamily (s : System) : System :=
  { s with nextVmo := s.nextVmo + 1, families := s.families.insert s.nextVmo ∅ }

/-- An object that founds a family is its only member. -/
theorem addVmo_enterFamily (s : System) {vmo : Vmo} (hf : vmo.family = s.nextVmo)
    (member : Member) : s.enterFamily.addVmo s.nextVmo vmo member = s.withVmo vmo member := by
  unfold addVmo enterFamily
  rw [hf, Store.modify_insert_self]
  rfl

/-- What comes of the creation of a VM object: only the size can be in the way. -/
theorem createVmo_creation (s : System) (size : Nat) (options : BitVec 32) :
    s.VmoCreation size options (s.createVmo size options) := by
  unfold createVmo
  cases hc : Page.ceil? size with
  | none => exact .unfit hc
  | some c =>
    have hborn : s.VmoCreation size options _ := .born hc
    rw [← addVmo_enterFamily s rfl] at hborn
    exact hborn

/-- Recording a clone changes the member that it is recorded with, if there is one. -/
theorem recordClone_eq (s : System) (f : FamilyId) (v c : VmoId) :
    (s.recordClone f v c).2 = s.modifyMember f v fun m => { m with clones := m.clones ++ [c] } := by
  unfold recordClone
  cases hm : s.memberIn f v with
  | some m => rfl
  | none =>
    unfold memberIn at hm
    dsimp only
    unfold modifyMember
    rw [Store.modify_id fun g hg => ?_]
    rw [hg, Option.bind_some] at hm
    exact Store.modify_of_none hm _

/-- The state with a new clone, before it is recorded with its parent. -/
def enterClone (s : System) (v : VmoId) (o : Vmo) (ask : CloneRequest) (size : Nat) : System :=
  ({ s with nextVmo := s.nextVmo + 1 }.retain (.vmo v)).addVmo s.nextVmo (o.cloneRecord v ask)
    { size, parentOffset := ask.offset }

/-- A clone that is entered in the list of its original, where it is a member of the family
already. -/
theorem recordClone_enterClone (s : System) (v : VmoId) (o : Vmo) (ask : CloneRequest)
    (size : Nat) : ((s.enterClone v o ask size).recordClone o.family v s.nextVmo).2 =
      s.withClone v (o.cloneRecord v ask) { size, parentOffset := ask.offset } := by
  rw [recordClone_eq]
  rfl

/-- What comes of the creation of a clone: it may be the first one, and then the watcher of the
object is told. -/
inductive CloneCreation (s : System) (v : VmoId) (ask : CloneRequest) :
    Outcome VmoId × System → Prop
  | refused (e : Refusal) : CloneCreation s v ask (.error e, s)
  | first {o : Vmo} {c : Nat} (ho : s.vmos[v]? = some o) (hc : Page.ceil? ask.size = some c)
      (hmax : ask.offset + c ≤ Word.max)
      (hcount : ((s.enterClone v o ask c).recordClone o.family v s.nextVmo).1 = 1) :
      CloneCreation s v ask (.ok s.nextVmo,
        (s.withClone v (o.cloneRecord v ask) { size := c, parentOffset := ask.offset }).tellWatcher
          v true)
  | further {o : Vmo} {c : Nat} (ho : s.vmos[v]? = some o) (hc : Page.ceil? ask.size = some c)
      (hmax : ask.offset + c ≤ Word.max)
      (hcount : ((s.enterClone v o ask c).recordClone o.family v s.nextVmo).1 ≠ 1) :
      CloneCreation s v ask (.ok s.nextVmo,
        s.withClone v (o.cloneRecord v ask) { size := c, parentOffset := ask.offset })

/-- What comes of a clone: its window has to fit a word, and nothing is entered before that is
known. -/
theorem cloneVmo_creation (s : System) (v : VmoId) (ask : CloneRequest) :
    s.CloneCreation v ask (s.cloneVmo v ask) := by
  unfold cloneVmo
  cases ho : s.vmos[v]? with
  | none => exact .refused _
  | some o =>
    cases hc : Page.ceil? ask.size with
    | none => exact .refused _
    | some c =>
      dsimp only
      split
      · exact .refused _
      · rename_i hmax
        -- The first clone of an object is told to whoever watches it, so the two cases lead to
        -- different states.
        by_cases hcount : ((s.enterClone v o ask c).recordClone o.family v s.nextVmo).1 = 1
        · have hborn := CloneCreation.first ho hc (Nat.le_of_not_lt hmax) hcount
          rw [← recordClone_enterClone] at hborn
          rw [enterClone] at hborn hcount
          dsimp only [Vmo.cloneRecord] at hborn hcount
          rw [if_pos hcount]
          exact hborn
        · have hborn := CloneCreation.further ho hc (Nat.le_of_not_lt hmax) hcount
          rw [← recordClone_enterClone] at hborn
          rw [enterClone] at hborn hcount
          dsimp only [Vmo.cloneRecord] at hborn hcount
          rw [if_neg hcount]
          exact hborn

/-! ## 6. Views

A view stamps and watches its object, and either is refused if somebody was there before. -/

/-- An object without a stamp is stamped. -/
theorem setUserId_of_unstamped {v : VmoId} {o : Vmo} {m : Member} (ho : s.vmos[v]? = some o)
    (hm : s.memberIn o.family v = some m) (hz : m.userId = 0) (id : Koid) :
    (s.setUserId v id).2 = s.modifyMember o.family v fun m => { m with userId := id } := by
  obtain ⟨-, hstamped⟩ | ⟨o', m', ho', -, -, he⟩ := s.setUserId_cases v id
  · exact absurd hz (hstamped m (Option.bind_eq_some_iff.2 ⟨o, ho, hm⟩))
  · cases ho.symm.trans ho'
    rw [he]

/-- The state with a new view, before it stamps its object. -/
def enterView (s : System) (v : VmoId) : System :=
  bump (s.withView .noClones { vmo := v }) .viewCreate

theorem enterView_moves {v : VmoId} (hv : s.vmos.contains v) :
    Moves A C ⟨s, d⟩ ⟨s.enterView v, .release (.object s.nextKoid) :: d⟩ :=
  .trans (Birth.moves (.view hv)) (Inert.moves (inert_bump _ .viewCreate) _)

theorem enterView_accounted (hacc : Accounted s d) {v : VmoId} (hv : s.vmos.contains v) :
    Accounted (s.enterView v) (.release (.object s.nextKoid) :: d) :=
  (enterView_moves (A := False) (C := False) hv).accounted hacc

/-- What comes of the creation of a view. -/
inductive ViewCreation (s : System) (v : VmoId) : Outcome Koid × System → Prop
  | absent (h : s.vmos[v]? = none) : ViewCreation s v (.error .badState, s)
  /-- The object has the stamp of another view. -/
  | stamped {o : Vmo} (ho : s.vmos[v]? = some o) (hm : ∀ m, s.member v = some m → m.userId ≠ 0) :
      ViewCreation s v (.error .badState, (s.enterView v).release (.object s.nextKoid))
  | taken {o : Vmo} {m : Member} (ho : s.vmos[v]? = some o)
      (hm : s.memberIn o.family v = some m) (hz : m.userId = 0) :
      ViewCreation s v (.ok s.nextKoid,
        ((s.enterView v).setUserId v s.nextKoid).2.setWatcher v (some (.view s.nextKoid)))

/-- What comes of the creation of a view: the stamp is tried when the view has been entered, so a
view that is refused has to go again. -/
theorem createView_creation (s : System) (v : VmoId) : s.ViewCreation v (s.createView v) := by
  unfold createView
  split
  · rename_i hv
    obtain ⟨o, ho⟩ := Store.contains_iff.1 hv
    dsimp only [freshKoid]
    obtain ⟨he, hm⟩ | ⟨o', m, ho', hm, hz, he⟩ := (s.enterView v).setUserId_cases v s.nextKoid
    · split
      · rename_i u hu
        cases hu.symm.trans he
      · rename_i e u hu
        cases hu.symm.trans he
        exact .stamped ho hm
    · have htaken := ViewCreation.taken (s := s) ho' hm hz
      rw [he] at htaken
      split
      · rename_i u hu
        cases hu.symm.trans he
        exact htaken
      · rename_i e u hu
        cases hu.symm.trans he
  · rename_i hv
    exact .absent (Store.contains_eq_false_iff.1 (Bool.eq_false_iff.2 hv))

/-! ## 7. Handles

A handle is made if the arena has a slot for it.  Whether there is memory for a new slot is the
second question. -/

/-- A handle is made, unless its arena is not there or has no room; a full arena is counted. -/
theorem makeHandle_cases (s : System) (arena : ArenaId) (k : Koid) (rights : Rights)
    (mayGrow : Bool) :
    s.makeHandle arena k rights mayGrow = (.error .noMemory, s) ∨
    s.makeHandle arena k rights mayGrow = (.error .noMemory, s.bump .arenaExhausted) ∨
    ∃ a, s.arenas[arena]? = some a ∧ a.isFull = false ∧
      s.makeHandle arena k rights mayGrow = (.ok s.nextId, s.withHandle arena a k rights) := by
  unfold makeHandle
  cases ha : s.arenas[arena]? with
  | none => exact .inl rfl
  | some a =>
    dsimp only
    split
    · exact .inr (.inl rfl)
    · rename_i hfull
      split
      · exact .inl rfl
      · exact .inr (.inr ⟨a, rfl, Bool.eq_false_iff.2 hfull, rfl⟩)

/-- Where a handle is made there was a slot for it. -/
theorem makeHandle_ok {arena : ArenaId} {k : Koid} {rights : Rights} {mayGrow : Bool}
    {h : HandleId} (hm : s.makeHandle arena k rights mayGrow = (.ok h, t)) :
    ∃ a, s.arenas[arena]? = some a ∧ a.isFull = false ∧ h = s.nextId ∧
      t = s.withHandle arena a k rights := by
  obtain he | he | ⟨a, ha, hfull, he⟩ := s.makeHandle_cases arena k rights mayGrow
  · cases hm.symm.trans he
  · cases hm.symm.trans he
  · cases hm.symm.trans he
    exact ⟨a, ha, hfull, rfl, rfl⟩

/-- Where none is made nothing changes, but a full arena is counted. -/
theorem makeHandle_error_eq {arena : ArenaId} {k : Koid} {rights : Rights} {mayGrow : Bool}
    {e : Refusal} (hm : s.makeHandle arena k rights mayGrow = (.error e, t)) :
    t = s ∨ t = s.bump .arenaExhausted := by
  obtain he | he | ⟨a, ha, hfull, he⟩ := s.makeHandle_cases arena k rights mayGrow
  · cases hm.symm.trans he
    exact .inl rfl
  · cases hm.symm.trans he
    exact .inr rfl
  · cases hm.symm.trans he

/-- A second handle is made in the arena of the first. -/
theorem duplicateHandle_cases (s : System) (h : HandleId) (rights : Rights) :
    s.duplicateHandle h rights = (.error .badHandle, s) ∨
    ∃ r, s.handles[h]? = some r ∧
      s.duplicateHandle h rights = s.makeHandle r.arena r.object rights true := by
  unfold duplicateHandle
  cases hr : s.handles[h]? with
  | none => exact .inl rfl
  | some r => exact .inr ⟨r, rfl, rfl⟩

end System

end KernelObjects
