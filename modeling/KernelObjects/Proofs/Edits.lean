import KernelObjects.System.Tasks
import KernelObjects.System.Views

/-
# Edits

Most of what is asked of the object layer rewrites a record or two and has no other effect: a
name, a policy, a port in a slot, the pages of a VM object, what a mapping shows.  Nothing is
created or destroyed by that, no reference is taken, and nobody is called.  Two states that differ
in this way are an *edit* apart (`Edit`), and every edit is about one `Topic`.

The functions of that kind are opened here.  A lemma `_cases` says what a call comes to, refusals
included; a lemma `_edit` says what it is about.  Whoever looks at a part of the state then needs
one lemma on edits, which excludes the topics that show in this part.

An edit names the field that it writes and what it may write there.  A job that is edited keeps
its state and its lists, because no constructor of `Job.Edit` has them; so a lemma on edits is a
case split over a dozen constructors and not over the operations, and a new operation that only
edits is covered as soon as its `_edit` lemma is there.

Mappings are written along with several topics, since a change of pages or of sizes is passed on
to whoever shows them.  What mappings show is therefore left free in every edit.
-/

namespace KernelObjects

/-- The slot of a job for the one or the other kind of port. -/
def Job.slot (j : Job) (debugger : Bool) : Option PortId :=
  if debugger then j.debuggerPort else j.port

/-- Puts a port into a slot. -/
def Job.fillSlot (debugger : Bool) (p : PortId) (j : Job) : Job :=
  if debugger then { j with debuggerPort := some p } else { j with port := some p }

/-- The slot for a kind of port. -/
def PortKind.slot? : PortKind → Option Bool
  | job => some false
  | debugger => some true
  | process => none

/-! ## 1. What edits are

For each kind of record which of its fields an edit with some topic may write.  An edit of a state
rewrites records in that way, one after the other, and may give out ids. -/

/-- What an edit is about. -/
inductive Topic where
  /-- The limits, and the numbers of address spaces. -/
  | settings
  /-- Names, and the mark of jobs to kill when memory runs out. -/
  | labels
  | policies
  /-- The ports in the slots of jobs. -/
  | slots
  /-- The exceptions that wait at ports. -/
  | reports
  /-- What tables own, and which process a handle belongs to. -/
  | tables
  /-- The koids that VM objects are stamped with. -/
  | stamps
  | watchers
  /-- The lists of clones. -/
  | clones
  /-- The lists of mappings. -/
  | windows
  | pages
  | sizes
  | caches
  deriving DecidableEq, Repr

/-- What an edit may write into the record of a job. -/
inductive Job.Edit (j : Job) : Topic → Job → Prop
  | name (name : Name) : Edit j .labels { j with name }
  | mark (killOnOom : Bool) : Edit j .labels { j with killOnOom }
  | policy (policy : Policy) : Edit j .policies { j with policy }
  | slot (debugger : Bool) (p : PortId) : Edit j .slots (j.fillSlot debugger p)

/-- What an edit may write into the record of a process. -/
inductive Process.Edit (p : Process) : Topic → Process → Prop
  | name (name : Name) : Edit p .labels { p with name }
  | pending (pending : List Report) : Edit p .reports { p with pending }

/-- What an edit may write into the own record of a VM object. -/
inductive Vmo.Edit (o : Vmo) : Topic → Vmo → Prop
  | name (name : Name) : Edit o .labels { o with name }
  | watcher (watcher : Option Watcher) : Edit o .watchers { o with watcher }

/-- What an edit may write into the record that a family keeps of a member. -/
inductive Member.Edit (m : Member) : Topic → Member → Prop
  | stamp (userId : Koid) : Edit m .stamps { m with userId }
  | clones (clones : List VmoId) : Edit m .clones { m with clones }
  | windows (mappings : List MappingId) : Edit m .windows { m with mappings }
  | pages (committed : PageSet) : Edit m .pages { m with committed }
  | size (size : Nat) : Edit m .sizes (m.resize size)
  | cache (cachePolicy : CachePolicy) : Edit m .caches { m with cachePolicy }

/-- Two states that differ by an edit.  What mappings show may change with it, whatever it is
about. -/
inductive Edit : Topic → System → System → Prop
  | refl {a : Topic} {s : System} : Edit a s s
  | trans {a : Topic} {s t u : System} (h : Edit a s t) (h' : Edit a t u) : Edit a s u
  | config {s : System} (config : Option Config) : Edit .settings s { s with config }
  | space {s : System} : Edit .settings s { s with nextSpace := s.nextSpace + 1 }
  | job {a : Topic} {s : System} {k : Koid} {f : Job → Job}
      (h : ∀ j, s.jobs[k]? = some j → j.Edit a (f j)) : Edit a s (s.modifyJob k f)
  | process {a : Topic} {s : System} {k : Koid} {f : Process → Process}
      (h : ∀ p, s.processes[k]? = some p → p.Edit a (f p)) : Edit a s (s.modifyProcess k f)
  | vmo {a : Topic} {s : System} {v : VmoId} {f : Vmo → Vmo}
      (h : ∀ o, s.vmos[v]? = some o → o.Edit a (f o)) : Edit a s (s.modifyVmo v f)
  | member {a : Topic} {s : System} {f : FamilyId} {v : VmoId} {g : Member → Member}
      (h : ∀ m, s.memberIn f v = some m → m.Edit a (g m)) : Edit a s (s.modifyMember f v g)
  | owned {s : System} (t : TableId) (owned : Store HandleId) :
      Edit .tables s (s.setOwned t owned)
  | owner {s : System} (process : Nat) (h : HandleId) : Edit .tables s (s.setProcess process h)
  | unmapped {a : Topic} {s : System} (m : MappingId) (span : Span) :
      Edit a s (s.unmapSpan m span).2

/-- Edits over a list are one edit. -/
theorem Edit.foldl {α : Type} {a : Topic} {f : System → α → System} (h : ∀ s x, Edit a s (f s x)) :
    ∀ (xs : List α) (s : System), Edit a s (xs.foldl f s)
  | [], _ => .refl
  | x :: xs, s => (h s x).trans (foldl h xs (f s x))

namespace System

/-- A VM object names its family. -/
theorem familyOf_of_get {s : System} {v : Nat} {o : Vmo} (ho : s.vmos[v]? = some o) :
    s.familyOf v = o.family := by
  rw [familyOf, ho]
  rfl

variable (s : System) {a : Topic}

/-! ## 2. Limits, jobs and processes

Each operation is an edit of its topic, whichever of its branches it takes. -/

/-- Reading the limits settles them as they are. -/
theorem settledConfig_eq : s.settledConfig =
    (s.config.getD {}, { s with config := some (s.config.getD {}) }) := by
  unfold settledConfig
  cases hc : s.config with
  | none => rfl
  | some c =>
    dsimp only [Option.getD]
    rw [← hc]

theorem settledConfig_edit : Edit .settings s s.settledConfig.2 := by
  rw [settledConfig_eq]
  exact .config _

/-- Limits are installed if they are valid and nobody has read any; otherwise nothing changes. -/
theorem installConfig_cases (c : Config) :
    (∃ e, s.installConfig c = (.error e, s)) ∨
    c.validate = .ok () ∧ s.config = none ∧
      s.installConfig c = (.ok (), { s with config := some c }) := by
  unfold installConfig
  cases hv : c.validate with
  | error e => exact .inl ⟨e, rfl⟩
  | ok =>
    cases hc : s.config with
    | some old => exact .inl ⟨_, rfl⟩
    | none => exact .inr ⟨rfl, rfl, rfl⟩

theorem installConfig_edit (c : Config) : Edit .settings s (s.installConfig c).2 := by
  obtain ⟨e, he⟩ | ⟨-, -, he⟩ := s.installConfig_cases c
  · rw [he]
    exact .refl
  · rw [he]
    exact .config _

/-- Only a job that lists no child changes its policy. -/
theorem amendPolicy_cases (k : Koid) (change : Policy → Outcome Policy) :
    (∃ e, s.amendPolicy k change = (.error e, s)) ∨
    ∃ j policy, s.jobs[k]? = some j ∧ j.jobs = [] ∧ j.processes = [] ∧
      change j.policy = .ok policy ∧
      s.amendPolicy k change = (.ok (), s.modifyJob k fun j => { j with policy }) := by
  unfold amendPolicy
  cases hj : s.jobs[k]? with
  | none => exact .inl ⟨_, rfl⟩
  | some j =>
    dsimp only
    split
    · exact .inl ⟨_, rfl⟩
    · rename_i hempty
      have hempty : j.processes = [] ∧ j.jobs = [] := by simpa using hempty
      cases hchange : change j.policy with
      | error e => exact .inl ⟨e, rfl⟩
      | ok policy => exact .inr ⟨j, policy, rfl, hempty.2, hempty.1, hchange, rfl⟩

theorem amendPolicy_edit (k : Koid) (change : Policy → Outcome Policy) :
    Edit .policies s (s.amendPolicy k change).2 := by
  obtain ⟨e, he⟩ | ⟨j, policy, -, -, -, -, he⟩ := s.amendPolicy_cases k change
  · rw [he]
    exact .refl
  · rw [he]
    exact .job fun j _ => .policy policy

theorem setKillOnOom_edit (k : Koid) (mark : Bool) : Edit .labels s (s.setKillOnOom k mark) :=
  .job fun _ _ => .mark mark

/-- A port goes into the slot for its kind, if that is empty. -/
theorem bindPort_cases (k : Koid) (p : PortId) :
    (∃ e, s.bindPort k p = (.error e, s)) ∨
    ∃ j q b, s.jobs[k]? = some j ∧ s.ports[p]? = some q ∧ q.kind.slot? = some b ∧ j.slot b = none ∧
      s.bindPort k p = (.ok (), s.modifyJob k (Job.fillSlot b p)) := by
  unfold bindPort
  split
  · rename_i j q hj hq
    split
    · rename_i hkind
      split
      · exact .inl ⟨_, rfl⟩
      · rename_i hport
        exact .inr ⟨j, q, false, hj, hq, by rw [hkind]; rfl,
          Option.not_isSome_iff_eq_none.1 hport, rfl⟩
    · rename_i hkind
      split
      · exact .inl ⟨_, rfl⟩
      · rename_i hport
        exact .inr ⟨j, q, true, hj, hq, by rw [hkind]; rfl,
          Option.not_isSome_iff_eq_none.1 hport, rfl⟩
    · exact .inl ⟨_, rfl⟩
  · exact .inl ⟨_, rfl⟩

/-- A port is bound if there is a slot for its kind and the slot is empty. -/
theorem bindPort_of_slot {k : Koid} {p : PortId} {j : Job} {q : Port} {b : Bool}
    (hj : s.jobs[k]? = some j) (hq : s.ports[p]? = some q) (hb : q.kind.slot? = some b)
    (hslot : j.slot b = none) : s.bindPort k p = (.ok (), s.modifyJob k (Job.fillSlot b p)) := by
  unfold bindPort
  rw [hj, hq]
  dsimp only
  cases hkind : q.kind with
  | job =>
    rw [hkind] at hb
    cases hb
    exact if_neg (Option.not_isSome_iff_eq_none.2 hslot)
  | debugger =>
    rw [hkind] at hb
    cases hb
    exact if_neg (Option.not_isSome_iff_eq_none.2 hslot)
  | process =>
    rw [hkind] at hb
    cases hb

theorem bindPort_edit (k : Koid) (p : PortId) : Edit .slots s (s.bindPort k p).2 := by
  obtain ⟨e, he⟩ | ⟨j, q, b, -, -, -, -, he⟩ := s.bindPort_cases k p
  · rw [he]
    exact .refl
  · rw [he]
    exact .job fun _ _ => .slot b p

/-- A report is taken by a live process if there is memory for it, and put behind those that
wait. -/
theorem report_cases (k : Koid) (p : PortId) (type : Nat) (hasMemory : Bool) :
    (∃ e, s.report k p type hasMemory = (.error e, s)) ∨
    ∃ q, s.processes[k]? = some q ∧ q.state ≠ .dead ∧ hasMemory ∧
      s.report k p type hasMemory =
        (.ok (), s.modifyProcess k fun q => { q with pending := q.pending ++ [⟨p, type⟩] }) := by
  unfold report
  cases hq : s.processes[k]? with
  | none => exact .inl ⟨_, rfl⟩
  | some q =>
    dsimp only
    split
    · exact .inl ⟨_, rfl⟩
    · rename_i hlive
      cases hasMemory with
      | false => exact .inl ⟨_, rfl⟩
      | true => exact .inr ⟨q, rfl, hlive, rfl, rfl⟩

theorem report_edit (k : Koid) (p : PortId) (type : Nat) (hasMemory : Bool) :
    Edit .reports s (s.report k p type hasMemory).2 := by
  obtain ⟨e, he⟩ | ⟨q, -, -, -, he⟩ := s.report_cases k p type hasMemory
  · rw [he]
    exact .refl
  · rw [he]
    exact .process fun _ _ => .pending _

theorem dropReports_edit (p : PortId) (k : Koid) : Edit .reports s (s.dropReports p k) :=
  .process fun _ _ => .pending _

/-! ## 3. Tables -/

/-- A handle that leaves a table belongs to no process. -/
theorem tableRemove_cases (t : TableId) (value : Nat) :
    s.tableRemove t value = (.error .badHandle, s) ∨
    ∃ table h, s.tables[t]? = some table ∧ table.owned[table.masked value]? = some h ∧
      s.handles[h]?.map Handle.process = some table.process ∧
      s.tableRemove t value = (.ok h,
        (s.setOwned t (table.owned.erase (table.masked value))).setProcess noProcess h) := by
  unfold tableRemove
  cases ht : s.tables[t]? with
  | none => exact .inl rfl
  | some table =>
    dsimp only
    cases hh : table.owned[table.masked value]? with
    | none => exact .inl rfl
    | some h =>
      dsimp only
      split
      · rename_i hprocess
        exact .inr ⟨table, h, rfl, hh, hprocess, rfl⟩
      · exact .inl rfl

theorem tableRemove_edit (t : TableId) (value : Nat) :
    Edit .tables s (s.tableRemove t value).2 := by
  obtain he | ⟨table, h, -, -, -, he⟩ := s.tableRemove_cases t value
  · rw [he]
    exact .refl
  · rw [he]
    exact .trans (.owned t _) (.owner _ h)

/-! ## 4. Lists of VM objects -/

/-- An object is stamped once. -/
theorem setUserId_cases (v : VmoId) (id : Koid) :
    s.setUserId v id = (.error .badState, s) ∧ (∀ m, s.member v = some m → m.userId ≠ 0) ∨
      ∃ o m, s.vmos[v]? = some o ∧ s.memberIn o.family v = some m ∧ m.userId = 0 ∧
        s.setUserId v id =
          (.ok (), s.modifyMember o.family v fun m => { m with userId := id }) := by
  unfold setUserId
  cases hm : s.member v with
  | none => exact .inl ⟨rfl, nofun⟩
  | some m =>
    dsimp only
    split
    · rename_i hz
      obtain ⟨o, ho, hom⟩ := Option.bind_eq_some_iff.1 hm
      rw [familyOf_of_get ho]
      exact .inr ⟨o, m, ho, hom, hz, rfl⟩
    · rename_i hz
      exact .inl ⟨rfl, fun a ha => Option.some.inj ha ▸ hz⟩

theorem setUserId_edit (v : VmoId) (id : Koid) : Edit .stamps s (s.setUserId v id).2 := by
  obtain ⟨he, -⟩ | ⟨o, m, -, -, -, he⟩ := s.setUserId_cases v id
  · rw [he]
    exact .refl
  · rw [he]
    exact .member fun _ _ => .stamp id

theorem setWatcher_edit (v : VmoId) (w : Option Watcher) : Edit .watchers s (s.setWatcher v w) :=
  .vmo fun _ _ => .watcher w

theorem recordClone_edit (f : FamilyId) (v c : VmoId) :
    Edit .clones s (s.recordClone f v c).2 := by
  unfold recordClone
  split
  · exact .refl
  · exact .member fun _ _ => .clones _

/-- Takes a clone off the list of a VM object, and tells nobody. -/
def dropClone (s : System) (v clone : VmoId) : System :=
  match s.vmos[v]? with
  | none => s
  | some o =>
    match (s.memberIn o.family v).bind fun m => m.forgetClone clone with
    | none => s
    | some m => s.modifyMember o.family v fun _ => m

/-- A clone is taken off a list that has it. -/
theorem dropClone_cases (v c : VmoId) :
    s.dropClone v c = s ∧ (∀ m, s.member v = some m → m.forgetClone c = none) ∨
    ∃ o m m', s.vmos[v]? = some o ∧ s.memberIn o.family v = some m ∧
      m.forgetClone c = some m' ∧ s.dropClone v c = s.modifyMember o.family v fun _ => m' := by
  unfold dropClone member
  cases ho : s.vmos[v]? with
  | none => exact .inl ⟨rfl, nofun⟩
  | some o =>
    dsimp only
    rw [Option.bind_some]
    cases hm : s.memberIn o.family v with
    | none => exact .inl ⟨rfl, nofun⟩
    | some m =>
      rw [Option.bind_some]
      cases hforget : m.forgetClone c with
      | none => exact .inl ⟨rfl, fun a ha => Option.some.inj ha ▸ hforget⟩
      | some m' => exact .inr ⟨o, m, m', rfl, hm, hforget, rfl⟩

/-- A clone that is dropped is an edit of one list. -/
theorem dropClone_edit (v c : VmoId) : Edit .clones s (s.dropClone v c) := by
  obtain ⟨he, -⟩ | ⟨o, m, m', -, hm, hforget, he⟩ := s.dropClone_cases v c
  · rw [he]
    exact .refl
  · rw [he]
    refine .member fun a ha => ?_
    cases hm.symm.trans ha
    obtain ⟨rest, -, rfl⟩ := Option.map_eq_some_iff.1 hforget
    exact .clones rest

/-- That shows in the families only. -/
theorem dropClone_eq (v c : VmoId) :
    ∃ families : Store Family, s.dropClone v c = { s with families } ∧
      ∀ f : Nat, families.contains f = s.families.contains f := by
  obtain ⟨he, -⟩ | ⟨o, m, m', -, -, -, he⟩ := s.dropClone_cases v c
  · exact ⟨s.families, he, fun _ => rfl⟩
  · exact ⟨_, he, fun f => Std.ExtTreeMap.contains_modify⟩

/-- Whoever forgets a clone drops it, and may tell the watcher. -/
theorem forgetClone_cases (v c : VmoId) :
    s.forgetClone v c = s.dropClone v c ∨
      s.forgetClone v c = (s.dropClone v c).tellWatcher v false := by
  unfold forgetClone dropClone
  cases s.vmos[v]? with
  | none => exact .inl rfl
  | some o =>
    dsimp only
    cases (s.memberIn o.family v).bind fun m => m.forgetClone c with
    | none => exact .inl rfl
    | some m =>
      dsimp only
      split
      · exact .inr rfl
      · exact .inl rfl

theorem addMapping_edit (f : FamilyId) (v : VmoId) (m : MappingId) :
    Edit .windows s (s.addMapping f v m) :=
  .member fun _ _ => .windows _

theorem removeMapping_edit (f : FamilyId) (v : VmoId) (m : MappingId) :
    Edit .windows s (s.removeMapping f v m) :=
  .member fun _ _ => .windows _

/-- To unmap is to write to mappings, whatever the topic. -/
theorem unmapReach_edit (f : Family) (r : Reach) : Edit a s (unmapReach f s r) := by
  unfold unmapReach
  split
  · exact .refl
  · exact .foldl (fun _ m => .unmapped m _) _ s

theorem rangeChanged_edit (f : FamilyId) (v : VmoId) (offset length : Nat) :
    Edit a s (s.rangeChanged f v offset length) := by
  unfold rangeChanged
  split
  · exact .refl
  · exact .foldl (fun s r => s.unmapReach_edit _ r) _ s

/-! ## 5. Pages, sizes and caches -/

/-- A commit is refused, or it writes the pages of one member. -/
theorem commitRange_cases (v : VmoId) (offset length : Nat) :
    (∃ e, s.commitRange v offset length = (.error e, s)) ∨
    ∃ o m pages, s.vmos[v]? = some o ∧ s.memberIn o.family v = some m ∧
      Page.covering m.size offset length = .ok pages ∧
      s.commitRange v offset length = (.ok (), s.modifyMember o.family v fun _ =>
        { m with committed := m.committed.insertFrom pages.1 pages.2 }) := by
  unfold commitRange Member.commit
  cases hm : s.member v with
  | none => exact .inl ⟨_, rfl⟩
  | some m =>
    dsimp only
    cases hpages : Page.covering m.size offset length with
    | error e => exact .inl ⟨e, rfl⟩
    | ok pages =>
      obtain ⟨o, ho, hom⟩ := Option.bind_eq_some_iff.1 hm
      rw [familyOf_of_get ho]
      exact .inr ⟨o, m, pages, ho, hom, hpages, rfl⟩

theorem commitRange_edit (v : VmoId) (offset length : Nat) :
    Edit .pages s (s.commitRange v offset length).2 := by
  obtain ⟨e, he⟩ | ⟨o, m, pages, -, hm, -, he⟩ := s.commitRange_cases v offset length
  · rw [he]
    exact .refl
  · rw [he]
    refine .member fun a ha => ?_
    cases hm.symm.trans ha
    exact .pages _

/-- Only an object that is no clone gives memory back, and the mappings hear of it. -/
theorem decommitRange_cases (v : VmoId) (offset length : Nat) :
    (∃ e, s.decommitRange v offset length = (.error e, s)) ∨
    ∃ o m pages, s.vmos[v]? = some o ∧ o.parent = none ∧ s.memberIn o.family v = some m ∧
      Page.covering m.size offset length = .ok pages ∧
      s.decommitRange v offset length = (.ok (), (s.modifyMember o.family v fun _ =>
        { m with committed := m.committed.eraseFrom pages.1 pages.2 }).rangeChanged
          o.family v offset length) := by
  unfold decommitRange Member.decommit
  split
  · exact .inl ⟨_, rfl⟩
  · rename_i hparent
    cases hm : s.member v with
    | none => exact .inl ⟨_, rfl⟩
    | some m =>
      dsimp only
      cases hpages : Page.covering m.size offset length with
      | error e => exact .inl ⟨e, rfl⟩
      | ok pages =>
        obtain ⟨o, ho, hom⟩ := Option.bind_eq_some_iff.1 hm
        rw [ho] at hparent
        rw [familyOf_of_get ho]
        exact .inr ⟨o, m, pages, ho, Option.not_isSome_iff_eq_none.1 hparent, hom, hpages, rfl⟩

theorem decommitRange_edit (v : VmoId) (offset length : Nat) :
    Edit .pages s (s.decommitRange v offset length).2 := by
  obtain ⟨e, he⟩ | ⟨o, m, pages, -, -, hm, -, he⟩ := s.decommitRange_cases v offset length
  · rw [he]
    exact .refl
  · rw [he]
    refine .trans (.member fun a ha => ?_) (rangeChanged_edit _ _ _ _ _)
    cases hm.symm.trans ha
    exact .pages _

/-- Only a resizable object changes its size, to whole pages; what a shrink cuts off is unmapped. -/
theorem resize_cases (v : VmoId) (size : Nat) :
    (∃ e, s.resize v size = (.error e, s)) ∨
    ∃ o m stop, s.vmos[v]? = some o ∧ o.isResizable ∧ s.memberIn o.family v = some m ∧
      Page.ceil? size = some stop ∧
      s.resize v size = (.ok (), if stop < m.size then
        (s.modifyMember o.family v fun m => m.resize stop).rangeChanged o.family v stop
          (m.size - stop)
      else s.modifyMember o.family v fun m => m.resize stop) := by
  unfold resize
  split
  · exact .inl ⟨_, rfl⟩
  · rename_i hresizable
    cases hstop : Page.ceil? size with
    | none => exact .inl ⟨_, rfl⟩
    | some stop =>
      cases hm : s.member v with
      | none => exact .inl ⟨_, rfl⟩
      | some m =>
        obtain ⟨o, ho, hom⟩ := Option.bind_eq_some_iff.1 hm
        have hresizable : o.isResizable = true := by simpa [ho] using hresizable
        rw [familyOf_of_get ho]
        exact .inr ⟨o, m, stop, ho, hresizable, hom, rfl, rfl⟩

theorem resize_edit (v : VmoId) (size : Nat) : Edit .sizes s (s.resize v size).2 := by
  obtain ⟨e, he⟩ | ⟨o, m, stop, -, -, -, -, he⟩ := s.resize_cases v size
  · rw [he]
    exact .refl
  · rw [he]
    have hsized : Edit .sizes s (s.modifyMember o.family v fun m => m.resize stop) :=
      .member fun _ _ => .size stop
    dsimp only
    split
    · exact hsized.trans (rangeChanged_edit _ _ _ _ _)
    · exact hsized

/-- The cache policy is chosen only while nothing depends on it. -/
theorem setCachePolicy_cases (v : VmoId) (raw : Nat) :
    (∃ e, s.setCachePolicy v raw = (.error e, s)) ∨
    ∃ policy o m, CachePolicy.ofRaw? raw = some policy ∧ s.vmos[v]? = some o ∧ o.parent = none ∧
      s.memberIn o.family v = some m ∧ m.committed.isEmpty ∧ (s.liveMappings v).isEmpty ∧
      m.clones.isEmpty ∧ s.setCachePolicy v raw = (.ok (), s.modifyMember o.family v fun m =>
        { m with cachePolicy := policy }) := by
  unfold setCachePolicy
  split
  · exact .inl ⟨_, rfl⟩
  · rename_i policy hraw
    split
    · exact .inl ⟨_, rfl⟩
    · rename_i hp
      split
      · exact .inl ⟨_, rfl⟩
      · rename_i m hm
        split
        · exact .inl ⟨_, rfl⟩
        · rename_i hpristine
          -- The three conditions are tested as one, so they come apart only here.
          simp only [Bool.not_eq_true, Bool.or_eq_false_iff, Bool.not_eq_false'] at hpristine
          obtain ⟨⟨hpages, hmappings⟩, hclones⟩ := hpristine
          obtain ⟨o, ho, hom⟩ := Option.bind_eq_some_iff.1 hm
          rw [ho] at hp
          rw [familyOf_of_get ho]
          exact .inr ⟨policy, o, m, hraw, ho, Option.not_isSome_iff_eq_none.1 hp, hom, hpages,
            hmappings, hclones, rfl⟩

theorem setCachePolicy_edit (v : VmoId) (raw : Nat) :
    Edit .caches s (s.setCachePolicy v raw).2 := by
  obtain ⟨e, he⟩ | ⟨policy, o, m, -, -, -, -, -, -, -, he⟩ := s.setCachePolicy_cases v raw
  · rw [he]
    exact .refl
  · rw [he]
    exact .member fun _ _ => .cache policy

end System

end KernelObjects
