import KernelObjects.Proofs.Creations
import KernelObjects.Proofs.Walking

/-
# Operations are runs of stages

What a client asks for is done in several steps: an object is entered and then offered to its
parent, a handle is made and then moved into a table.  Here every operation is taken apart into
stages.  The ones that create and find something of their own to work on need the account to be in
order, since a new identity has to be unknown and what is named has to be there.

What an operation gives out falls to the client (`World.after`).

Refusals are runs of stages as well, and mostly of no stage at all.  The exceptions are the
creations that are turned down late, when the child is there already and its parent will not list
it, which are stages of their own, and the making of a handle in a full arena, which counts the
failure and changes nothing else.
-/

namespace KernelObjects

/-- Goes on with the state after an operation, and holds what it gave out, if it gave anything. -/
def World.after {α : Type} (w : World) (r : Outcome α × System) (due : α → Task) : World :=
  match r with
  | (.ok a, s) => ⟨s, due a :: w.dues⟩
  | (.error _, s) => ⟨s, w.dues⟩

/-- The state does not show what an operation gives out. -/
theorem World.system_after {α : Type} (w : World) (r : Outcome α × System) (due : α → Task) :
    (w.after r due).system = r.2 := by
  obtain ⟨_ | _, s⟩ := r <;> rfl

/-- One more reference to one thing is not one less to another. -/
theorem RefCounts.count_le_retain (rc : RefCounts) (r q : Ref) :
    rc.count q ≤ (rc.retain r).count q := by
  rw [count_retain]
  split
  · exact Nat.le_succ _
  · exact Nat.le_refl _

/-- A new object has no handles. -/
theorem Accounted.handleCount_born {s t : System} {d : List Task} (h : Accounted s d)
    {signals : Signals} (ho : t.objects = s.objects.insert s.nextKoid { signals }) (c : Koid) :
    t.handleCount c = s.handleCount c := by
  unfold System.handleCount
  rw [ho, Store.getElem?_insert]
  split
  · rename_i he
    rw [← he, h.fresh_object.1]
    rfl
  · rfl

/-- So handles do not show that an object was born. -/
theorem Accounted.hands_born {s t : System} {d : List Task} (h : Accounted s d)
    {signals : Signals} (ho : t.objects = s.objects.insert s.nextKoid { signals })
    (hh : t.handles = s.handles) (ht : t.tables = s.tables) (ha : t.arenas = s.arenas)
    (htold : t.told = s.told) : t.hands = s.hands := by
  unfold System.hands
  rw [hh, ht, ha, htold, funext (h.handleCount_born ho)]

/-! ## 1. Creating

Each creation by its cases.  Where something is turned down the stage is the whole of it, from the
entry to what follows from giving it back. -/

namespace System

variable {L : Liberties} {s : System} {d : List Task}

theorem still_books (s : System) (counters : Counters) (registry : List Koid) :
    Still s { s with counters, registry } := ⟨s.inert_books _ _, rfl⟩

theorem still_bump (s : System) (m : Meter) : Still s (s.bump m) := ⟨s.inert_bump m, rfl⟩

theorem still_signal (s : System) (k : Koid) (clear set : Signals) :
    Still s (s.signal k clear set) := ⟨s.inert_signal k clear set, s.hands_signal k clear set⟩

theorem still_settledConfig (s : System) : Still s s.settledConfig.2 :=
  s.settledConfig_edit.still (by decide)

/-- A root job refers to nobody, so its birth is the whole story. -/
theorem createRootJob_stages (s : System) (hasHaltHandler : Bool) (d : List Task) :
    Stages L ⟨s, d⟩ ⟨(s.createRootJob hasHaltHandler).2,
      .release (.object (s.createRootJob hasHaltHandler).1) :: d⟩ := by
  unfold createRootJob
  dsimp only
  generalize hc : s.settledConfig = r
  have hstill : Still s r.2 := hc ▸ s.still_settledConfig
  obtain ⟨counters, registry, he⟩ := r.2.addJob_eq
    { parent := none, maxHeight := r.1.rootHeight, name := rootName, hasHaltHandler
      policy := Policy.initial }
  rw [he]
  have hborn : Stage L ⟨r.2, d⟩ ⟨r.2.withJob (Signals.noJobs ∪ Signals.noProcesses)
      { parent := none, maxHeight := r.1.rootHeight, name := rootName, hasHaltHandler
        policy := Policy.initial }, .release (.object r.2.nextKoid) :: d⟩ := .root rfl rfl rfl rfl
  exact .trans (hstill.stages d) (.trans hborn.run ((still_books _ _ _).stages _))

/-- The child is born with a reference to its parent and then offered to it.  If it is turned down,
its own reference is given back, and what follows from that are declines. -/
theorem createJob_stages (h : Accounted s d) (parent : Koid) :
    Stages L ⟨s, d⟩
      (World.after ⟨s, d⟩ (s.createJob parent) fun k => .release (.object k)) := by
  have hcreation := createJob_creation h parent
  generalize s.createJob parent = r at hcreation
  -- Where the child is taken, being born and being listed is one stage, as the lists are in order
  -- only after both.  Where it is not, being born and being given back is one.
  cases hcreation with
  | absent | low => exact .refl
  | @taken q height hq hh hr =>
    dsimp only [World.after]
    unfold attachJob
    rw [attach_of_ready (parent_addChild h hq height) hr]
    obtain ⟨counters, registry, he⟩ := s.addChild_eq parent q height
    rw [he]
    have hborn : Stage L ⟨s, d⟩ ⟨(s.withJob (Signals.noJobs ∪ Signals.noProcesses)
        (newChild parent q height)).modifyJob parent fun j =>
          { j with jobs := j.jobs ++ [s.nextKoid] }, .release (.object s.nextKoid) :: d⟩ :=
      .child rfl rfl rfl rfl hq hr hh rfl
    exact .trans hborn.run (((still_books _ _ _).trans (still_signal _ _ _ _)).stages _)
  | @untaken q height hq hh hr =>
    obtain ⟨counters, registry, he⟩ := s.addChild_eq parent q height
    rw [he]
    have hborn : Stage L ⟨s, d⟩ ⟨(({ s.withJob (Signals.noJobs ∪ Signals.noProcesses)
        (newChild parent q height) with counters, registry } : System).release
          (.object s.nextKoid)), d⟩ :=
      .refusedJob rfl rfl rfl rfl hq hr hh (still_books _ _ _)
    exact hborn.run

/-- The shared arena is set up once; that settles the limits on the way. -/
theorem openSharedArena_stages (h : Accounted s d) :
    Stages L ⟨s, d⟩ ⟨s.openSharedArena, d⟩ := by
  rw [System.openSharedArena_eq]
  split
  · exact .refl
  · rename_i hc
    have hstill : Still s { s with config := some (s.config.getD {}) } := by
      have hsettled := s.still_settledConfig
      rwa [settledConfig_eq] at hsettled
    refine .tail (hstill.stages d) (.arena ?_ ?_ _)
    · exact Store.contains_eq_false_iff.1 (Bool.eq_false_iff.2 hc)
    · exact h.bounded.nextId_pos

/-- A process is entered and offered to the job that it names, which takes it or not. -/
theorem ProcessOffer.stages {job : Koid} {name : Name} {r : Outcome Koid × System}
    (h : s.ProcessOffer job name r) :
    Stages L ⟨s, d⟩ (World.after ⟨s, d⟩ r fun k => .release (.object k)) := by
  set u : System := { s with
    nextId := s.nextId + 1
    tables := s.tables.insert s.nextId { process := s.nextKoid, arena := sharedArena } }
  -- The table comes first and is a stage by itself; until the process is there it has no owner
  -- and owns nothing.
  have htable : Stage L ⟨s, d⟩ ⟨u, d⟩ := .table (.inl rfl)
  refine .trans htable.run ?_
  cases h with
  | @taken j hj hr =>
    set p : Process := { job, name, policy := j.policy, table := s.nextId }
    have hentered : (s.enterProcess job name j.policy).jobs[job]? = some j := hj
    dsimp only [World.after]
    unfold attachProcess
    rw [attach_of_ready hentered hr]
    have hrunning : p.state = .running := rfl
    have hparent : u.jobs[p.job]? = some j := hj
    have hborn : Stage L ⟨u, d⟩ ⟨(withProcess u .empty p).modifyJob job fun j =>
        { j with processes := j.processes ++ [s.nextKoid] }, .release (.object s.nextKoid) :: d⟩ :=
      .process hrunning hparent hr rfl
    refine .trans hborn.run (Still.stages ?_ _)
    exact (still_bump ((withProcess u .empty p).modifyJob job _) .processCreate).trans
      (still_signal _ _ _ _)
  | @untaken j hj =>
    set p : Process := { job, name, policy := j.policy, table := s.nextId }
    have hparent : u.jobs.contains p.job := Store.contains_iff.2 ⟨j, hj⟩
    have hborn : Stage L ⟨u, d⟩
        ⟨(bump (withProcess u .empty p) .processCreate).release (.object s.nextKoid), d⟩ :=
      .refusedProcess hparent (still_bump _ _)
    exact hborn.run

/-- A process is born with an empty table over the shared arena, and offered to its job like a
job. -/
theorem createProcess_stages (h : Accounted s d) (job : Koid) (name : Name) :
    Stages L ⟨s, d⟩
      (World.after ⟨s, d⟩ (s.createProcess job name) fun k => .release (.object k)) := by
  have hcreation := s.createProcess_creation job name
  generalize s.createProcess job name = r at hcreation
  cases hcreation with
  | absent => exact .refl
  | offered hoffer => exact (openSharedArena_stages h).trans hoffer.stages

/-- A VM object is the first of a family of its own. -/
theorem createVmo_stages (s : System) (size : Nat) (options : BitVec 32) (d : List Task) :
    Stages L ⟨s, d⟩
      (World.after ⟨s, d⟩ (s.createVmo size options) fun v => .release (.vmo v)) := by
  have hcreation := s.createVmo_creation size options
  generalize s.createVmo size options = r at hcreation
  cases hcreation with
  | unfit => exact .refl
  | @born c hc =>
    have hborn : Stage L ⟨s, d⟩
        ⟨s.withVmo { family := s.nextVmo, parent := none, options, name := Name.blank }
            { size := c, parentOffset := 0 },
          [Ref.vmo s.nextVmo].map .release ++ d⟩ :=
      .beside (fun _ _ => .vmo rfl rfl rfl ⟨Page.size_dvd_of_ceil? hc, Page.ceil?_le hc⟩) rfl rfl
        rfl
    exact hborn.run

/-- A clone is born into the family of its original, takes a reference to it, and is entered in its
list; the watcher may be told. -/
theorem cloneVmo_stages (s : System) (v : VmoId) (ask : CloneRequest) (d : List Task) :
    Stages L ⟨s, d⟩ (World.after ⟨s, d⟩ (s.cloneVmo v ask) fun c => .release (.vmo c)) := by
  have hborn : ∀ {o : Vmo} {c : Nat}, s.vmos[v]? = some o → Page.ceil? ask.size = some c →
      Stages L ⟨s, d⟩
        ⟨s.withClone v (o.cloneRecord v ask) { size := c, parentOffset := ask.offset },
          [Ref.vmo s.nextVmo].map .release ++ d⟩ := by
    intro o c ho hc
    exact Stage.run (.beside (fun _ _ =>
      .clone ho rfl rfl rfl ⟨Page.size_dvd_of_ceil? hc, Page.ceil?_le hc⟩) rfl rfl rfl)
  have hcreation := s.cloneVmo_creation v ask
  generalize s.cloneVmo v ask = r at hcreation
  cases hcreation with
  | refused => exact .refl
  | first ho hc =>
    exact (hborn ho hc).trans (Still.stages ⟨inert_tellWatcher _ _ _, hands_tellWatcher _ _ _⟩ _)
  | further ho hc => exact hborn ho hc

/-- A view is born with a reference to its VM object.  If another view's stamp is in the way it is
given back at once. -/
theorem createView_stages (h : Accounted s d) (v : VmoId) :
    Stages L ⟨s, d⟩ (World.after ⟨s, d⟩ (s.createView v) fun k => .release (.object k)) := by
  have hentered : ∀ {o : Vmo}, s.vmos[v]? = some o →
      Stages L ⟨s, d⟩ ⟨s.enterView v, .release (.object s.nextKoid) :: d⟩ := by
    intro o ho
    have hborn : Stage L ⟨s, d⟩
        ⟨s.withView .noClones { vmo := v }, [Ref.object s.nextKoid].map .release ++ d⟩ :=
      .beside (fun _ _ => .view (Store.contains_iff.2 ⟨o, ho⟩)) rfl rfl
        (h.hands_born rfl rfl rfl rfl rfl)
    exact hborn.run.trans ((still_bump _ .viewCreate).stages _)
  have hcreation := s.createView_creation v
  generalize s.createView v = r at hcreation
  cases hcreation with
  | absent => exact .refl
  | stamped ho => exact (hentered ho).trans (release_stages _ _ d)
  | taken ho =>
    have hstamped := ((s.enterView v).setUserId_edit v s.nextKoid).still (by decide)
    have hwatched := (((s.enterView v).setUserId v s.nextKoid).2.setWatcher_edit v
      (some (.view s.nextKoid))).still (by decide)
    exact (hentered ho).trans ((hstamped.trans hwatched).stages _)

/-! ## 2. Handles and tables

A handle is made into the hands of the client, and a table takes over what the client has; so most
operations on tables are two stages. -/

/-- A handle is born in a slot, with the references of the slot, of the owner and to the object; or
nothing is born, and only a counter may move. -/
theorem makeHandle_stages {k : Koid} (s : System) (arena : ArenaId) (rights : Rights)
    (mayGrow : Bool) (hk : s.Present (.object k)) (d : List Task) :
    Stages L ⟨s, d⟩
      (World.after ⟨s, d⟩ (s.makeHandle arena k rights mayGrow) fun h => .close h) := by
  obtain he | he | ⟨a, ha, hfull, he⟩ := s.makeHandle_cases arena k rights mayGrow
  · rw [he]
    exact .refl
  · rw [he]
    exact (still_bump s _).stages d
  · have hborn : Stage L ⟨s, d⟩ ⟨s.withHandle arena a k rights, .close s.nextId :: d⟩ :=
      .handle ha hfull hk
    rw [he]
    exact hborn.run

/-- The reference of the kernel handle is given back when the handle has its own.  If no handle can
be made the object is told, as when a kernel handle is dropped. -/
theorem makeFromKernel_stages {k : Koid} (arena : ArenaId) (rights : Rights) (hL : L.tells k)
    (h : Accounted s (.release (.object k) :: d)) :
    Stages L ⟨s, .release (.object k) :: d⟩
      (World.after ⟨s, d⟩ (s.makeFromKernel arena (some k) rights) fun h => .close h) := by
  have hk : s.Present (.object k) := h.present_of_owed (by simp [Task.holds])
  have hmake := makeHandle_stages (L := L) s arena rights true hk (.release (.object k) :: d)
  unfold makeFromKernel
  dsimp only
  generalize s.makeHandle arena k rights true = r at hmake ⊢
  obtain ⟨e | h', u⟩ := r
  · exact .trans (hmake.tail (.tell hL)) (release_stages _ _ d)
  · refine .trans hmake (.trans (reorder_stages u (List.Perm.swap ..)) ?_)
    exact release_stages u _ _

/-- A second handle is made like a first one: the source is held by its owner meanwhile. -/
theorem duplicateHandle_stages (h : Accounted s d) (a : HandleId) (rights : Rights) :
    Stages L ⟨s, d⟩
      (World.after ⟨s, d⟩ (s.duplicateHandle a rights) fun h => .close h) := by
  obtain he | ⟨r, ha, he⟩ := s.duplicateHandle_cases a rights
  · rw [he]
    exact .refl
  · rw [he]
    exact makeHandle_stages s r.arena rights true (h.present_of_held (held_of_handle ha)) d

/-- What a table gave up when it took in a handle is closed. -/
theorem settle_toList (s : System) (x : Option HandleId) (d : List Task) :
    Stages L ⟨s, (x.toList.map .close) ++ d⟩
      ⟨match x with
        | none => s
        | some old => s.close old, d⟩ := by
  cases x with
  | none => exact .refl
  | some old => exact Stage.run .drop

/-- The handle is written to and entered; one of equal base value that it replaces is closed. -/
theorem tableAdd_eq {t : TableId} {table : Table} {a : HandleId} {r : Handle} {s : System}
    (ht : s.tables[t]? = some table) (ha : s.handles[a]? = some r) :
    (s.tableAdd t a).2 = match table.owned[r.base]? with
      | none => (s.setProcess table.process a).setOwned t (table.owned.insert r.base a)
      | some old =>
        ((s.setProcess table.process a).setOwned t (table.owned.insert r.base a)).close old := by
  unfold tableAdd
  rewrite [ht, ha]
  rfl

/-- What was due as a handle of the client is owned by the table from then on. -/
theorem tableAdd_stages {t : TableId} {table : Table} {a : HandleId} {r : Handle} (s : System)
    (hL : L.adopts table r) (ht : s.tables[t]? = some table) (ha : s.handles[a]? = some r)
    (d : List Task) : Stages L ⟨s, .close a :: d⟩ ⟨(s.tableAdd t a).2, d⟩ := by
  rw [tableAdd_eq ht ha]
  exact .trans (Stage.run (.adopt hL ht ha)) (settle_toList _ _ d)

/-- The other way round: the handle leaves the table and is due to be closed by the client. -/
theorem tableRemove_stages (s : System) (t : TableId) (value : Nat) (d : List Task) :
    Stages L ⟨s, d⟩ (World.after ⟨s, d⟩ (s.tableRemove t value) fun h => .close h) := by
  obtain he | ⟨table, a, ht, ha, -, he⟩ := s.tableRemove_cases t value
  · rw [he]
    exact .refl
  · rw [he]
    exact Stage.run (.expel ht ha)

/-- A handle that is not made leaves a count at most. -/
theorem still_of_makeHandle_error {arena : ArenaId} {k : Koid} {rights : Rights} {mayGrow : Bool}
    {e : Refusal} {t : System} (hm : s.makeHandle arena k rights mayGrow = (.error e, t)) :
    Still s t := by
  obtain rfl | rfl := makeHandle_error_eq hm
  · exact .refl _
  · exact still_bump s _

/-- Who gets a handle out of a table has a table. -/
theorem tables_of_tableGet {t : TableId} {value : Nat} {h : HandleId}
    (hg : s.tableGet t value = .ok h) : ∃ table, s.tables[t]? = some table := by
  unfold tableGet at hg
  cases ht : s.tables[t]? with
  | none => rw [ht] at hg; cases hg
  | some table => exact ⟨table, rfl⟩

/-- The source is held until the duplicate lies in the table, so that closing what the duplicate
replaces cannot take it away.  Every refusal comes before the first change, except that of a full
arena, which is counted. -/
theorem tableDuplicate_stages (h : Accounted s d) (t : TableId) (value : Nat) (rights : Rights) :
    Stages L ⟨s, d⟩ ⟨(s.tableDuplicate t value rights).2, d⟩ := by
  unfold tableDuplicate
  cases hg : s.tableGet t value with
  | error e => exact .refl
  | ok a =>
    dsimp only
    obtain ⟨table, ht⟩ := tables_of_tableGet hg
    cases ha : s.handles[a]? with
    | none => exact .refl
    | some r =>
      dsimp only
      cases duplicateRights r.rights rights with
      | error e => exact .refl
      | ok granted =>
        dsimp only
        have hk := h.present_of_held (held_of_handle ha)
        have hmake := makeHandle_stages (L := L) s r.arena granted true hk d
        cases hm : s.makeHandle r.arena r.object granted true with
        | mk result u =>
          rw [hm] at hmake
          cases result with
          | error e => exact hmake
          | ok b =>
            obtain ⟨arena, harena, hfull, rfl, rfl⟩ := makeHandle_ok hm
            have hne : s.nextId ≠ a := by
              rintro rfl
              rw [h.handles_fresh] at ha
              cases ha
            have hkeeps : ((s.withHandle r.arena arena r.object granted).retain
                (.handle a)).tables[t]? = some table := ht
            have hnew : ((s.withHandle r.arena arena r.object granted).retain
                (.handle a)).handles[s.nextId]? = some { base := (arena.insert s.nextId).1
                                                         object := r.object, rights := granted
                                                         arena := r.arena } := by
              simp [withHandle, retain]
            dsimp only
            rw [tableAdd_eq hkeeps hnew]
            -- the source is held while the handle that leaves the table is closed
            have hborn : Stage L ⟨s, d⟩ ⟨((s.withHandle r.arena arena r.object
                granted).setProcess table.process s.nextId).setOwned t
                  (table.owned.insert (arena.insert s.nextId).1 s.nextId),
                (table.owned[(arena.insert s.nextId).1]?.toList.map .close) ++ d⟩ :=
              .duplicate ht hg ha harena hfull hk
            have hthere : (((s.withHandle r.arena arena r.object granted).setProcess table.process
                s.nextId).setOwned t (table.owned.insert (arena.insert s.nextId).1
                  s.nextId)).Present (.handle a) := by
              refine (Store.contains_modify _ _ _ a).trans ((Store.contains_insert _ _ _ _).2 ?_)
              exact .inr (Store.contains_iff.2 ⟨r, ha⟩)
            refine .trans (hborn.run.tail (.share hthere)) ?_
            refine .trans (reorder_stages _ List.perm_middle.symm) ?_
            exact .trans (settle_toList _ _ _) (release_stages _ _ d)

/-! ## 3. Killing, lists, sizes and clones -/

/-- A kill is a run of declines. -/
theorem killJob_stages (s : System) (refuses : Allocator) (code : Int) (k : Koid)
    (d : List Task) : Stages L ⟨s, d⟩ ⟨(s.killJob refuses code k).2, d⟩ := by
  have hkills := s.killJob_kills refuses code k
  exact hkills.keeps (lending_stages ⟨s, d⟩) (fun hj hr hi => hi.tail (.condemn code hj hr))
    (fun p hi => hi.tail (.kill code p)) .refl

/-- A policy may say that the process is to be killed; the answer itself changes nothing. -/
theorem enforcePolicy_stages (s : System) (k : Koid) (c : Condition) (d : List Task) :
    Stages L ⟨s, d⟩ ⟨(s.enforcePolicy k c).2, d⟩ := by
  unfold enforcePolicy
  split
  · exact .refl
  · dsimp only
    split
    · exact Stage.run (.kill _ k)
    · exact .refl

/-- A resize writes the size, and pages are no part of the kin. -/
theorem kin_resize (m : Member) (size : Nat) : (m.resize size).kin = { m.kin with size } := by
  unfold Member.resize
  split <;> rfl

/-- The size is written, and the mappings that are told are edits. -/
theorem resize_stages (s : System) (v : VmoId) (size : Nat) (d : List Task) :
    Stages L ⟨s, d⟩ ⟨(s.resize v size).2, d⟩ := by
  obtain ⟨e, he⟩ | ⟨o, m, stop, -, -, -, hstop, he⟩ := s.resize_cases v size
  · rw [he]
  · have hresize : Stage L ⟨s, d⟩
        ⟨s.modifyMember o.family v fun m => m.resize stop, ([] : List Ref).map .release ++ d⟩ :=
      .beside (fun _ _ => .resize (fun m _ => kin_resize m stop)
        ⟨Page.size_dvd_of_ceil? hstop, Page.ceil?_le hstop⟩) rfl rfl rfl
    rw [he]
    refine .trans hresize.run ?_
    dsimp only
    split
    · have htold := (s.modifyMember o.family v fun m => m.resize stop).rangeChanged_edit
        (a := .windows) o.family v stop (m.size - stop)
      exact (htold.still (by decide)).stages d
    · exact .refl

/-- To write into lists of clones by hand is a liberty of its own. -/
theorem recordClone_stages (hL : L.rewires) (s : System) (f : FamilyId) (v c : VmoId)
    (d : List Task) : Stages L ⟨s, d⟩ ⟨(s.recordClone f v c).2, d⟩ := by
  rw [recordClone_eq]
  exact Stage.run (.rewire hL _ _ _)

theorem forgetClone_stages (hL : L.rewires) (s : System) (v c : VmoId) (d : List Task) :
    Stages L ⟨s, d⟩ ⟨s.forgetClone v c, d⟩ := by
  have hdropped : Stages L ⟨s, d⟩ ⟨s.dropClone v c, d⟩ := by
    obtain ⟨he, -⟩ | ⟨o, m, m', -, -, -, he⟩ := s.dropClone_cases v c
    · rw [he]
    · rw [he]
      exact Stage.run (.rewire hL _ _ _)
  obtain he | he := s.forgetClone_cases v c
  · rw [he]
    exact hdropped
  · rw [he]
    exact hdropped.trans (Still.stages ⟨inert_tellWatcher _ _ _, hands_tellWatcher _ _ _⟩ d)

/-- A walk is a run of stages if its visits are. -/
theorem walk_stages {σ : Type} {f : Visitor σ}
    (hf : ∀ v s own d, Stages L ⟨s, d⟩ ⟨(f v s own).2.1, d⟩) (s : System) (refuses : Allocator)
    (k : Koid) (deep : Bool) (own : σ) (d : List Task) :
    Stages L ⟨s, d⟩ ⟨(s.walk refuses k deep f own).2.1, d⟩ := by
  have hkeeps : Walk.Keeps f fun w _ => Stages L ⟨s, d⟩ w :=
    { lending := fun _ => lending_stages ⟨s, d⟩
      visit := fun v s own e hi => hi.trans (hf v s own e) }
  exact walk_keeps hkeeps s refuses k deep own d .refl

/-- Emptying a port slot is a run of stages: the walk below only touches waiting exceptions. -/
theorem resetPort_stages (s : System) (refuses : Allocator) (k : Koid) (debugger : Bool)
    (d : List Task) : Stages L ⟨s, d⟩ ⟨(s.resetPort refuses k debugger).2, d⟩ := by
  unfold resetPort
  split
  · exact .refl
  · split
    · exact .refl
    · rename_i p _
      dsimp only
      refine .trans (Still.stages ⟨.trans (s.inert_modifyJob fun j _ => ?_) (inert_unbindPort _ p),
        rfl⟩ d) (walk_stages (fun v s own d => ?_) _ _ _ _ _ d)
      · cases debugger <;> rfl
      · cases v with
        | job k => exact .refl
        | process k => exact ((s.dropReports_edit p k).still (by decide)).stages d

end System

end KernelObjects
