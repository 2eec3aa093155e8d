import KernelObjects.Proofs.Edits

/-
# Changes that no count and no tree depends on

The counts of references, the slots of handles, the tree of jobs and the trees of clones read only
a part of the state.  Most of what an operation writes lies outside of that part: the trace, the
counters, the signals, names, policies, ports, watchers, and what mappings have unmapped.  A
change is *inert* if it stays outside.  Whatever is proved about the part that is read survives an
inert change, so each property has to follow the few changes that are left.

For each kind of record a structure `Kin` holds the fields that are read, and `Inert` compares two
states through it.  The fields stay in one place: a new field of a record that nothing counts is
no matter here, and one that is counted is added to its `Kin`, after which the lemmas below say
which functions write to it.

The next numbers may grow under an inert change: passing over a number gives nothing out.
-/

namespace KernelObjects

/-! ## 1. The part that is read

A structure for each kind of record, with the fields that counts, slots and trees read.  Two
states are compared through these, store by store. -/

/-- What is read of a job: its place in the tree, its state and its lists. -/
structure Job.Kin where
  parent : Option Koid
  maxHeight : Nat
  state : JobState
  jobs : List Koid
  processes : List Koid

/-- What is read of a process. -/
structure Process.Kin where
  job : Koid
  table : TableId
  state : ProcessState

/-- What is read of a handle. -/
structure Handle.Kin where
  base : Nat
  object : Koid
  arena : ArenaId

/-- What is read of a VM object. -/
structure Vmo.Kin where
  family : FamilyId
  parent : Option VmoId

/-- What is read of a member of a family. -/
structure Member.Kin where
  size : Nat
  parentOffset : Nat
  clones : List VmoId

/-- The fields of a job that counts and trees read. -/
def Job.kin (j : Job) : Job.Kin := ⟨j.parent, j.maxHeight, j.state, j.jobs, j.processes⟩

/-- The fields of a process that counts and trees read. -/
def Process.kin (p : Process) : Process.Kin := ⟨p.job, p.table, p.state⟩

/-- The fields of a handle that counts and slots read; its process is not among them. -/
def Handle.kin (h : Handle) : Handle.Kin := ⟨h.base, h.object, h.arena⟩

/-- The fields of a VM object that the trees of clones read. -/
def Vmo.kin (v : Vmo) : Vmo.Kin := ⟨v.family, v.parent⟩

/-- The fields of a member that the trees of clones read; its pages are not among them. -/
def Member.kin (m : Member) : Member.Kin := ⟨m.size, m.parentOffset, m.clones⟩

/-- `Inert s t`: the states differ only in what is not read. -/
structure Inert (s t : System) : Prop where
  nextKoid : s.nextKoid ≤ t.nextKoid
  nextVmo : s.nextVmo ≤ t.nextVmo
  nextId : s.nextId ≤ t.nextId
  refs : t.refs = s.refs
  object : ∀ k : Nat, t.objects[k]?.map Object.handles = s.objects[k]?.map Object.handles
  job : ∀ k : Nat, t.jobs[k]?.map Job.kin = s.jobs[k]?.map Job.kin
  process : ∀ k : Nat, t.processes[k]?.map Process.kin = s.processes[k]?.map Process.kin
  views : t.views = s.views
  witnesses : t.witnesses = s.witnesses
  handle : ∀ h : Nat, t.handles[h]?.map Handle.kin = s.handles[h]?.map Handle.kin
  arenas : t.arenas = s.arenas
  tables : t.tables = s.tables
  vmo : ∀ v : Nat, t.vmos[v]?.map Vmo.kin = s.vmos[v]?.map Vmo.kin
  vmoList : t.vmoList = s.vmoList
  family : ∀ f : Nat, t.families.contains f = s.families.contains f
  member : ∀ f v, (t.memberIn f v).map Member.kin = (s.memberIn f v).map Member.kin
  mapping : ∀ m : Nat, t.mappings.contains m = s.mappings.contains m
  listeners : t.listeners = s.listeners

namespace Inert

theorem refl (s : System) : Inert s s where
  nextKoid := Nat.le_refl _
  nextVmo := Nat.le_refl _
  nextId := Nat.le_refl _
  refs := rfl
  object _ := rfl
  job _ := rfl
  process _ := rfl
  views := rfl
  witnesses := rfl
  handle _ := rfl
  arenas := rfl
  tables := rfl
  vmo _ := rfl
  vmoList := rfl
  family _ := rfl
  member _ _ := rfl
  mapping _ := rfl
  listeners := rfl

theorem trans {s t u : System} (h : Inert s t) (h' : Inert t u) : Inert s u :=
  { Inert.refl s with
    nextKoid := Nat.le_trans h.nextKoid h'.nextKoid
    nextVmo := Nat.le_trans h.nextVmo h'.nextVmo
    nextId := Nat.le_trans h.nextId h'.nextId
    refs := h'.refs.trans h.refs
    object := fun k => (h'.object k).trans (h.object k)
    job := fun k => (h'.job k).trans (h.job k)
    process := fun k => (h'.process k).trans (h.process k)
    views := h'.views.trans h.views
    witnesses := h'.witnesses.trans h.witnesses
    handle := fun k => (h'.handle k).trans (h.handle k)
    arenas := h'.arenas.trans h.arenas
    tables := h'.tables.trans h.tables
    vmo := fun v => (h'.vmo v).trans (h.vmo v)
    vmoList := h'.vmoList.trans h.vmoList
    family := fun f => (h'.family f).trans (h.family f)
    member := fun f v => (h'.member f v).trans (h.member f v)
    mapping := fun m => (h'.mapping m).trans (h.mapping m)
    listeners := h'.listeners.trans h.listeners }

/-- Inert steps over a list are inert together. -/
theorem foldl {α : Type} {f : System → α → System} (h : ∀ s a, Inert s (f s a)) :
    ∀ (as : List α) (s : System), Inert s (as.foldl f s)
  | [], s => .refl s
  | a :: as, s => (h s a).trans (foldl h as (f s a))

end Inert

/-- A change that keeps what is read of a record keeps it for every look-up. -/
theorem Store.map_modify {α β : Type} {s : Store α} {k : Nat} {g : α → α} {f : α → β}
    (h : ∀ v, s[k]? = some v → f (g v) = f v) (a : Nat) :
    (s.modify k g)[a]?.map f = s[a]?.map f := by
  rw [Store.getElem?_modify]
  split
  · rename_i hk
    cases hv : s[a]? with
    | none => rfl
    | some v => exact congrArg some (h v (hk ▸ hv))
  · rfl

theorem Store.contains_modify {α : Type} (s : Store α) (k : Nat) (g : α → α) (a : Nat) :
    (s.modify k g).contains a = s.contains a := by
  rw [Std.ExtTreeMap.contains_modify]

/-! ## 2. Inert operations

Functions come before the ones that call them; each lemma is the composition of the lemmas of the
calls. -/

namespace System

variable (s : System)

theorem inert_log (e : Event) : Inert s (s.log e) := { Inert.refl s with }

/-- What is counted and what is registered. -/
theorem inert_books (counters : Counters) (registry : List Koid) :
    Inert s { s with counters, registry } := { Inert.refl s with }

theorem inert_bump (m : Meter) : Inert s (s.bump m) := { Inert.refl s with }

theorem inert_freshId : Inert s s.freshId.2 :=
  { Inert.refl s with nextId := Nat.le_succ _ }

theorem inert_signal (k : Koid) (clear set : Signals) : Inert s (s.signal k clear set) :=
  { Inert.refl s with object := Store.map_modify fun _ _ => rfl }

theorem inert_modifyJob {k : Koid} {f : Job → Job}
    (h : ∀ j, s.jobs[k]? = some j → (f j).kin = j.kin) : Inert s (s.modifyJob k f) :=
  { Inert.refl s with job := Store.map_modify h }

theorem inert_modifyProcess {k : Koid} {f : Process → Process}
    (h : ∀ p, s.processes[k]? = some p → (f p).kin = p.kin) : Inert s (s.modifyProcess k f) :=
  { Inert.refl s with process := Store.map_modify h }

theorem inert_setProcess (process : Nat) (h : HandleId) : Inert s (s.setProcess process h) :=
  { Inert.refl s with handle := Store.map_modify fun _ _ => rfl }

theorem inert_modifyVmo {v : VmoId} {f : Vmo → Vmo}
    (h : ∀ o, s.vmos[v]? = some o → (f o).kin = o.kin) : Inert s (s.modifyVmo v f) :=
  { Inert.refl s with vmo := Store.map_modify h }

theorem memberIn_modifyMember (f : FamilyId) (v : VmoId) (g : Member → Member) (a : FamilyId)
    (c : VmoId) : (s.modifyMember f v g).memberIn a c =
      if f = a ∧ v = c then (s.memberIn a c).map g else s.memberIn a c := by
  unfold modifyMember memberIn
  dsimp only
  rw [Store.getElem?_modify]
  by_cases hf : f = a
  · subst hf
    cases s.families[f]? with
    | none => simp
    | some m =>
      simp only [if_true, Option.map_some, Option.bind_some, true_and]
      exact Store.getElem?_modify m v c g
  · simp [hf]

/-- A change that keeps what is read of a member keeps it for every member. -/
theorem map_memberIn_modifyMember {β : Type} {p : Member → β} {f : FamilyId} {v : VmoId}
    {g : Member → Member} (h : ∀ m, s.memberIn f v = some m → p (g m) = p m) (a : FamilyId)
    (c : VmoId) : ((s.modifyMember f v g).memberIn a c).map p = (s.memberIn a c).map p := by
  rw [memberIn_modifyMember]
  split
  · rename_i hk
    obtain ⟨rfl, rfl⟩ := hk
    cases hm : s.memberIn f v with
    | none => rfl
    | some m => exact congrArg some (h m hm)
  · rfl

theorem inert_modifyMember {f : FamilyId} {v : VmoId} {g : Member → Member}
    (h : ∀ m, s.memberIn f v = some m → (g m).kin = m.kin) :
    Inert s (s.modifyMember f v g) :=
  { Inert.refl s with
    family := fun a => Store.contains_modify s.families f _ a
    member := s.map_memberIn_modifyMember h }

theorem inert_setWatcher (v : VmoId) (w : Option Watcher) : Inert s (s.setWatcher v w) :=
  s.inert_modifyVmo fun _ _ => rfl

theorem inert_zeroHandles (k : Koid) : Inert s (s.zeroHandles k) := by
  unfold zeroHandles
  dsimp only
  split
  · exact s.inert_log _
  · exact (s.inert_log _).trans (inert_setWatcher _ _ _)

theorem inert_tellWatcher (v : VmoId) (b : Bool) : Inert s (s.tellWatcher v b) := by
  unfold tellWatcher
  split
  · exact .refl s
  · split
    · cases b
      · exact (s.inert_log _).trans (inert_signal _ _ _ _)
      · exact (s.inert_log _).trans (inert_signal _ _ _ _)
    · exact .refl s
  · split
    · exact .refl s
    · exact s.inert_log _

theorem inert_unregister (k : Koid) : Inert s (s.unregister k) := { Inert.refl s with }

theorem inert_unbindPort (p : PortId) : Inert s (s.unbindPort p) := { Inert.refl s with }

theorem inert_unbindSlot (slot : Option PortId) : Inert s (s.unbindSlot slot) := by
  cases slot with
  | none => exact .refl s
  | some p => exact s.inert_unbindPort p

theorem inert_halt (k : Koid) : Inert s (s.halt k) := by
  unfold halt
  split
  · exact .refl s
  · split
    · exact s.inert_log _
    · exact .refl s

theorem inert_openPort (kind : PortKind) (key : Nat) : Inert s (s.openPort kind key).2 :=
  { Inert.refl s with nextId := Nat.le_succ _ }

end System

/-! ## 3. Inert edits

Which topics an inert edit may have.  The others write into lists, windows, sizes or owners, and
these are read. -/

variable {a : Topic}

theorem Job.Edit.kin {j j' : Job} (h : j.Edit a j') : j'.kin = j.kin := by
  cases h with
  | name | mark | policy => rfl
  | slot b p => cases b <;> rfl

theorem Process.Edit.kin {p p' : Process} (h : p.Edit a p') : p'.kin = p.kin := by
  cases h <;> rfl

theorem Vmo.Edit.kin {o o' : Vmo} (h : o.Edit a o') : o'.kin = o.kin := by
  cases h <;> rfl

theorem Member.Edit.kin {m m' : Member} (h : m.Edit a m')
    (ha : a ∉ [Topic.tables, .sizes, .clones]) : m'.kin = m.kin := by
  cases h with
  | stamp | windows | pages | cache => rfl
  | clones | size => exact absurd (by decide) ha

/-- What tables own, how large a VM object is and which clones it lists is read; other edits are
inert. -/
theorem Edit.inert {s t : System} (h : Edit a s t) (ha : a ∉ [Topic.tables, .sizes, .clones]) :
    Inert s t := by
  induction h with
  | refl => exact .refl _
  | trans _ _ ih ih' => exact (ih ha).trans (ih' ha)
  | config | space => exact { Inert.refl _ with }
  | job h => exact System.inert_modifyJob _ fun j hj => (h j hj).kin
  | process h => exact System.inert_modifyProcess _ fun p hp => (h p hp).kin
  | vmo h => exact System.inert_modifyVmo _ fun o ho => (h o ho).kin
  | member h => exact System.inert_modifyMember _ fun m hm => (h m hm).kin ha
  | owned | owner => exact absurd (by decide) ha
  | unmapped m span =>
    exact { Inert.refl _ with mapping := Store.contains_modify _ m _ }

end KernelObjects
