import KernelObjects.Proofs.Weight
import KernelObjects.Proofs.Birth

/-
# Every count is accounted for

A reference is held by a record or it is due: a child holds its parent, a process its job, a
handle its object, a view its VM object, a clone its original; a slot and an owner hold a handle
each; and whatever a client, a walk or an unfinished destruction still has to give back stands
among the dues.  The account is in order (`Accounted`) if the count of every thing is the number
of its holders and exactly the things with holders are there.

All moves keep the account.  What refers to something therefore always finds it, and a thing whose
count is one when a reference falls due has no other holder.

The balance is an equation and not an inequality.  With "at least" nothing would follow from a
count that has come down to one, and with "at most" nothing would keep what is still referred to;
the equation gives both, and it is as easy to keep, since every change moves one reference from
one side to the other.

Beside the balance the account says that an object is of exactly one kind, and that parents and
jobs are there.  The first is what makes the holders of an object a sum over three stores.  The
second does not follow from the balance, which knows only that some object is there under the
number.
-/

namespace KernelObjects

/-! ## 1. Holders

The two sides of the balance.  What records hold is a sum of weights, one for each kind of record
that may refer to the thing; what is due is a sum over the dues. -/

/-- How many references to a thing come back with a due. -/
def Task.holds : Task → Ref → Nat
  | .release q, r => if q = r then 1 else 0
  | .close h, r => if Ref.handle h = r then 2 else 0
  | .closeTable _, _ => 0

/-- How many references to a thing come back with all dues. -/
def owed (d : List Task) (r : Ref) : Nat := total (fun t => t.holds r) d

/-- How often a table owns a handle. -/
def Table.owns (t : Table) (h : HandleId) : Nat := t.owned.weight fun _ x => if x = h then 1 else 0

/-- How often the tables own a handle. -/
def System.owned (s : System) (h : HandleId) : Nat := s.tables.weight fun _ t => t.owns h

/-- How many owners a handle has: tables, and those who still have to close it. -/
def System.owners (s : System) (d : List Task) (h : HandleId) : Nat :=
  s.owned h + d.count (.close h)

/-- How many references to a thing the records hold.  A handle that a table owns is held by the
table and by its slot. -/
def System.held (s : System) : Ref → Nat
  | .object k =>
    s.jobs.weight (fun _ j => if j.parent = some k then 1 else 0) +
      s.processes.weight (fun _ p => if p.job = k then 1 else 0) +
      s.handles.weight (fun _ h => if h.object = k then 1 else 0)
  | .handle h => 2 * s.owned h
  | .vmo v =>
    s.views.weight (fun _ w => if w.vmo = v then 1 else 0) +
      s.vmos.weight (fun _ o => if o.parent = some v then 1 else 0)
  | .mapping _ | .listener _ => 0

/-- Every identity in use was handed out. -/
structure System.Bounded (s : System) : Prop where
  object : ∀ {k : Nat}, s.objects.contains k → k < s.nextKoid
  vmo : ∀ {v : Nat}, s.vmos.contains v → v < s.nextVmo
  family : ∀ {f : Nat}, s.families.contains f → f < s.nextVmo
  handle : ∀ {h : Nat}, s.handles.contains h → h < s.nextId
  mapping : ∀ {m : Nat}, s.mappings.contains m → m < s.nextId
  listener : ∀ {o : Nat}, s.listeners.contains o → o < s.nextId
  table : ∀ {t : Nat}, s.tables.contains t → t < s.nextId
  arena : ∀ {a : Nat}, s.arenas.contains a → a < s.nextId
  /-- The shared arena has the number zero, so no other identity may be zero. -/
  nextId_pos : 0 < s.nextId

/-- **The account is in order.** -/
structure Accounted (s : System) (d : List Task) : Prop where
  balanced : ∀ r, s.refCount r = s.held r + owed d r
  present : ∀ r, s.Present r ↔ 0 < s.refCount r
  /-- An object is of exactly one kind. -/
  kind : ∀ k : Nat, s.objects.has k =
    s.jobs.has k + s.processes.has k + s.views.has k + s.witnesses.has k
  parent : ∀ {k p : Nat} {j : Job}, s.jobs[k]? = some j → j.parent = some p → s.jobs.contains p
  job : ∀ {k : Nat} {p : Process}, s.processes[k]? = some p → s.jobs.contains p.job
  bounded : s.Bounded

@[simp] theorem owed_nil (r : Ref) : owed [] r = 0 := rfl

@[simp] theorem owed_cons (t : Task) (d : List Task) (r : Ref) :
    owed (t :: d) r = t.holds r + owed d r := by
  simp [owed]

@[simp] theorem owed_append (d e : List Task) (r : Ref) :
    owed (d ++ e) r = owed d r + owed e r := by
  simp [owed]

/-- Anything that is held by the client is owed. -/
theorem owed_pos {t : Task} {d : List Task} {r : Ref} (ht : t ∈ d) (hr : 0 < t.holds r) :
    0 < owed d r :=
  Nat.lt_of_lt_of_le hr (le_total_of_mem (f := fun t => t.holds r) ht)

/-- What is owed does not depend on the order of the dues. -/
theorem owed_perm {d e : List Task} (h : d.Perm e) (r : Ref) : owed d r = owed e r :=
  total_perm h

theorem owed_toList_release (x : Option Nat) (f : Nat → Ref) (r : Ref) :
    owed (x.toList.map fun a => .release (f a)) r = x.elim 0 fun a => if f a = r then 1 else 0 := by
  cases x <;> simp [Task.holds]

/-- What comes back with all dues, counted by kinds of dues. -/
theorem owed_eq (d : List Task) (r : Ref) :
    owed d r = d.count (.release r) + match r with
      | .handle h => 2 * d.count (.close h)
      | _ => 0 := by
  induction d with
  | nil => cases r <;> rfl
  | cons t d ih =>
    rw [owed_cons, ih]
    -- A handle that is closed comes back twice, as the owner has two references to it; every
    -- other due counts for one thing, once.
    cases r with
    | handle a =>
      cases t with
      | close h =>
        simp only [Task.holds, Ref.handle.injEq, List.count_cons, beq_iff_eq, Task.close.injEq,
          reduceCtorEq, if_false]
        split <;> omega
      | release q =>
        simp [Task.holds, List.count_cons]
        omega
      | closeTable t => simp [Task.holds]
    | _ =>
      cases t with
      | release q =>
        simp [Task.holds, List.count_cons]
        omega
      | _ => simp [Task.holds]

/-! ## 2. Owners

A handle is held by its owners, and each of them for two references.  So the holders of a handle
are counted through its owners, and here is what each change does to these. -/

/-- The handles that a table owns are closed together. -/
theorem count_closes (t : Table) (h : HandleId) :
    (t.owned.values.map Task.close).count (.close h) = t.owns h := by
  unfold Table.owns
  rw [← Store.total_values]
  induction t.owned.values with
  | nil => rfl
  | cons a as ih =>
    rw [List.map_cons, total_cons, List.count_cons, ih]
    simp [Nat.add_comm]

theorem count_closes_release (hs : List HandleId) (r : Ref) :
    (hs.map Task.close).count (.release r) = 0 :=
  List.count_eq_zero.2 fun h => by simp at h

namespace System

variable {s : System} {d : List Task} {t : TableId} {table : Table}

/-- Nor does who owns what. -/
theorem owners_perm {e : List Task} (h : d.Perm e) (a : HandleId) : s.owners e a = s.owners d a :=
  congrArg (s.owned a + ·) (h.symm.count_eq _)

theorem owners_cons_of_ne {x : Task} {a : HandleId} (hx : x ≠ .close a) :
    s.owners (x :: d) a = s.owners d a :=
  congrArg (s.owned a + ·) (List.count_cons_of_ne hx)

/-- A close that is due is one more owner of that handle. -/
theorem owners_close (h a : HandleId) :
    s.owners (.close h :: d) a = s.owners d a + if h = a then 1 else 0 := by
  unfold owners
  rw [List.count_cons, Nat.add_assoc]
  simp

/-- What a table owns is exchanged. -/
theorem owned_setOwned (ht : s.tables[t]? = some table) (owned : Store HandleId) (a : HandleId) :
    (s.setOwned t owned).owned a + table.owns a =
      s.owned a + Table.owns { table with owned } a :=
  Store.weight_replace ht (fun _ t => t.owns a) fun t => { t with owned }

/-- A table that is taken apart hands over the handles that it owns, each as a close that is due. -/
theorem owners_closeTable (ht : s.tables[t]? = some table) (a : HandleId) :
    owners { s with tables := s.tables.erase t } (table.owned.values.map .close ++ d) a =
      s.owners (.closeTable t :: d) a := by
  have hgone : owned { s with tables := s.tables.erase t } a + table.owns a = s.owned a :=
    Store.weight_erase ht fun _ u => u.owns a
  have hdue : Task.closeTable t ≠ .close a := by simp
  rw [owners_cons_of_ne hdue]
  unfold owners
  rw [List.count_append, count_closes]
  omega

/-- The same of a table that is emptied and stays. -/
theorem owners_emptyTable (ht : s.tables[t]? = some table) (a : HandleId) :
    (s.setOwned t ∅).owners (table.owned.values.map .close ++ d) a = s.owners d a := by
  have hlaw := owned_setOwned ht ∅ a
  have hempty : Table.owns { table with owned := ∅ } a = 0 := rfl
  unfold owners
  rw [List.count_append, count_closes]
  omega

/-- A table that takes over a handle is its owner then, and the one it owned before falls due. -/
theorem owners_adopt (ht : s.tables[t]? = some table) (base : Nat) (h a : HandleId) :
    (s.setOwned t (table.owned.insert base h)).owners
      ((table.owned[base]?.toList.map .close) ++ d) a = s.owners (.close h :: d) a := by
  have hlaw := owned_setOwned ht (table.owned.insert base h) a
  have howned := Store.weight_add_share (s := table.owned.insert base h) (t := table.owned)
    (f := fun _ x => if x = a then 1 else 0) (g := fun _ x => if x = a then 1 else 0)
    (k := base) fun c hc => Store.share_insert_ne _ _ _ hc
  have hnew : Store.share (table.owned.insert base h) (fun _ x => if x = a then 1 else 0) base =
      if h = a then 1 else 0 := Store.share_of_some (by simp)
  have hold : (table.owned[base]?.toList.map Task.close).count (.close a) =
      table.owned.share (fun _ x => if x = a then 1 else 0) base := by
    unfold Store.share
    cases table.owned[base]? <;> simp [List.count_cons]
  rw [owners_close]
  unfold owners
  unfold Table.owns at hlaw
  rw [List.count_append, hold]
  dsimp only at hlaw
  omega

/-- A handle that leaves a table is due to be closed by whoever took it out: its number of owners
stays. -/
theorem owners_expel {base : Nat} {h : HandleId} (ht : s.tables[t]? = some table)
    (hh : table.owned[base]? = some h) (a : HandleId) :
    (s.setOwned t (table.owned.erase base)).owners (.close h :: d) a = s.owners d a := by
  have hlaw := owned_setOwned ht (table.owned.erase base) a
  have howned := Store.weight_erase hh fun _ x => if x = a then 1 else 0
  rw [owners_close]
  unfold owners
  unfold Table.owns at hlaw
  dsimp only at hlaw
  omega

/-- A new table owns nothing. -/
theorem owned_openTable (ht : s.tables[t]? = none) (process : Nat) (arena : ArenaId)
    (a : HandleId) : owned { s with tables := s.tables.insert t { process, arena } } a =
      s.owned a := by
  have := Store.weight_insert ht (fun _ u => u.owns a) { process, arena }
  have hempty : Table.owns { process, arena } a = 0 := rfl
  unfold owned
  dsimp only at this ⊢
  omega

end System

/-! ## 3. What an account in order tells

Most proofs use the balance in one direction: somebody refers to a thing, so its count is
positive, so it is there. -/

section Reading

variable {s : System} {d : List Task}

/-- A child holds its parent, -/
theorem held_of_parent {k p : Nat} {j : Job} (hj : s.jobs[k]? = some j) (hp : j.parent = some p) :
    0 < s.held (.object p) := by
  have := Store.weight_pos (f := fun _ j => if j.parent = some p then 1 else 0) hj (by simp [hp])
  dsimp only [System.held]
  omega

/-- a process its job, -/
theorem held_of_job {k : Nat} {p : Process} (hp : s.processes[k]? = some p) :
    0 < s.held (.object p.job) := by
  have := Store.weight_pos (f := fun _ q => if q.job = p.job then 1 else 0) hp (by simp)
  dsimp only [System.held]
  omega

/-- a handle its object, -/
theorem held_of_handle {h : Nat} {r : Handle} (hr : s.handles[h]? = some r) :
    0 < s.held (.object r.object) := by
  have := Store.weight_pos (f := fun _ q => if q.object = r.object then 1 else 0) hr (by simp)
  dsimp only [System.held]
  omega

/-- a view its VM object, -/
theorem held_of_view {k : Nat} {v : View} (hv : s.views[k]? = some v) :
    0 < s.held (.vmo v.vmo) := by
  have := Store.weight_pos (f := fun _ w => if w.vmo = v.vmo then 1 else 0) hv (by simp)
  dsimp only [System.held]
  omega

/-- and a clone its original.  So what is referred to from a record is there, once the counts are
exact. -/
theorem held_of_clone {v p : Nat} {o : Vmo} (ho : s.vmos[v]? = some o) (hp : o.parent = some p) :
    0 < s.held (.vmo p) := by
  have := Store.weight_pos (f := fun _ o => if o.parent = some p then 1 else 0) ho (by simp [hp])
  dsimp only [System.held]
  omega

namespace Accounted

/-- What is held is there. -/
theorem present_of_held (h : Accounted s d) {r : Ref} (hr : 0 < s.held r) : s.Present r := by
  rw [h.present, h.balanced]
  omega

/-- What is due is there. -/
theorem present_of_owed (h : Accounted s d) {r : Ref} (hr : 0 < owed d r) : s.Present r := by
  rw [h.present, h.balanced]
  omega

/-- A handle is held twice by every owner, and by whoever still has to give it back. -/
theorem refCount_handle (h : Accounted s d) (a : HandleId) :
    s.refCount (.handle a) = 2 * s.owners d a + d.count (.release (.handle a)) := by
  rw [h.balanced, owed_eq]
  simp only [System.held, System.owners]
  omega

/-- What has an owner is there. -/
theorem handle_of_owners (h : Accounted s d) {a : HandleId} (ha : 0 < s.owners d a) :
    ∃ r, s.handles[a]? = some r := by
  refine Store.contains_iff.1 ((h.present (.handle a)).2 ?_)
  rw [h.refCount_handle]
  omega

/-- Dues and tables that come to the same may stand for each other. -/
theorem congr_owners {tables : Store Table} {e : List Task} (h : Accounted s d)
    (howners : ∀ a, System.owners { s with tables } e a = s.owners d a)
    (hdues : ∀ r, e.count (.release r) = d.count (.release r))
    (hbound : ∀ {t : Nat}, tables.contains t → t < s.nextId) : Accounted { s with tables } e :=
  { h with
    balanced := fun r => by
      have hb := h.balanced r
      rw [owed_eq] at hb ⊢
      rw [hdues]
      cases r with
      | handle a =>
        have := howners a
        simp only [System.refCount, System.held, System.owners] at this hb ⊢
        omega
      | _ => exact hb
    bounded := { h.bounded with table := hbound } }

/-- A thing whose count is one when a reference falls due has no other holder. -/
theorem held_eq_zero {r : Ref} (h : Accounted s (.release r :: d)) (h1 : s.refCount r = 1) :
    s.held r = 0 := by
  have := h.balanced r
  rw [owed_cons, h1] at this
  simp only [Task.holds, if_true] at this
  omega

end Accounted

end Reading

/-! ## 4. Changes that the account does not see

The balance reads who refers to what, and not what the records say besides.  A change that leaves
the references of every record alone keeps it, whatever else it writes. -/

/-- `Alike s t`: the states agree in all that refers to something, and in what is there. -/
structure Alike (s t : System) : Prop where
  nextKoid : s.nextKoid ≤ t.nextKoid
  nextVmo : s.nextVmo ≤ t.nextVmo
  nextId : s.nextId ≤ t.nextId
  refs : t.refs = s.refs
  object : ∀ k : Nat, t.objects[k]?.map (fun _ => ()) = s.objects[k]?.map (fun _ => ())
  job : ∀ k : Nat, t.jobs[k]?.map Job.parent = s.jobs[k]?.map Job.parent
  process : ∀ k : Nat, t.processes[k]?.map Process.job = s.processes[k]?.map Process.job
  views : t.views = s.views
  witnesses : t.witnesses = s.witnesses
  handle : ∀ h : Nat, t.handles[h]?.map Handle.object = s.handles[h]?.map Handle.object
  tables : t.tables = s.tables
  arena : ∀ a : Nat, t.arenas.contains a → s.arenas.contains a ∨ a < s.nextId
  vmo : ∀ v : Nat, t.vmos[v]?.map Vmo.parent = s.vmos[v]?.map Vmo.parent
  family : ∀ f : Nat, t.families.contains f → s.families.contains f
  mapping : ∀ m : Nat, t.mappings.contains m = s.mappings.contains m
  listeners : t.listeners = s.listeners

/-- Agreement in a part of the records is agreement in every part of that part. -/
theorem map_eq_of_map_eq {α β γ : Type} {f : α → β} {x y : Option α} (h : y.map f = x.map f)
    (g : β → γ) : y.map (fun a => g (f a)) = x.map fun a => g (f a) := by
  have := congrArg (Option.map g) h
  rwa [Option.map_map, Option.map_map] at this

/-- What is inert has the same holders. -/
theorem Inert.alike {s t : System} (h : Inert s t) : Alike s t where
  nextKoid := h.nextKoid
  nextVmo := h.nextVmo
  nextId := h.nextId
  refs := h.refs
  object k := map_eq_of_map_eq (h.object k) fun _ => ()
  job k := map_eq_of_map_eq (h.job k) Job.Kin.parent
  process k := map_eq_of_map_eq (h.process k) Process.Kin.job
  views := h.views
  witnesses := h.witnesses
  handle k := map_eq_of_map_eq (h.handle k) Handle.Kin.object
  tables := h.tables
  arena _ ha := .inl (h.arenas ▸ ha)
  vmo v := map_eq_of_map_eq (h.vmo v) Vmo.Kin.parent
  family f hf := h.family f ▸ hf
  mapping := h.mapping
  listeners := h.listeners

namespace Alike

variable {s t : System}

theorem refl (s : System) : Alike s s := (Inert.refl s).alike

/-- Whoever holds something is found in records that are alike, so the number of holders is the
same. -/
theorem held (h : Alike s t) (r : Ref) : t.held r = s.held r := by
  cases r with
  | object k =>
    dsimp only [System.held]
    rw [Store.weight_of_map h.job fun _ p => if p = some k then 1 else 0,
      Store.weight_of_map h.process fun _ j => if j = k then 1 else 0,
      Store.weight_of_map h.handle fun _ o => if o = k then 1 else 0]
  | handle a =>
    dsimp only [System.held]
    unfold System.owned
    rw [h.tables]
  | vmo v =>
    dsimp only [System.held]
    rw [h.views, Store.weight_of_map h.vmo fun _ p => if p = some v then 1 else 0]
  | mapping m => rfl
  | listener o => rfl

/-- What is there depends on the records that are there, and not on what they say. -/
theorem present (h : Alike s t) (r : Ref) : t.Present r ↔ s.Present r := by
  cases r with
  | object k =>
    dsimp only [System.Present]
    rw [Store.contains_of_map (h.job k), Store.contains_of_map (h.process k), h.views, h.witnesses]
  | handle a => exact iff_of_eq (congrArg (· = true) (Store.contains_of_map (h.handle a)))
  | vmo v => exact iff_of_eq (congrArg (· = true) (Store.contains_of_map (h.vmo v)))
  | mapping m => exact iff_of_eq (congrArg (· = true) (h.mapping m))
  | listener o =>
    exact iff_of_eq (congrArg (fun x => Std.ExtTreeMap.contains x o = true) h.listeners)

/-- Ids only go up, and nothing new is in the system. -/
theorem bounded (h : Alike s t) (hs : s.Bounded) : t.Bounded where
  object hk := by
    rw [Store.contains_of_map (h.object _)] at hk
    exact Nat.lt_of_lt_of_le (hs.object hk) h.nextKoid
  vmo hv := by
    rw [Store.contains_of_map (h.vmo _)] at hv
    exact Nat.lt_of_lt_of_le (hs.vmo hv) h.nextVmo
  family hf := Nat.lt_of_lt_of_le (hs.family (h.family _ hf)) h.nextVmo
  handle hh := by
    rw [Store.contains_of_map (h.handle _)] at hh
    exact Nat.lt_of_lt_of_le (hs.handle hh) h.nextId
  mapping hm := by
    rw [h.mapping] at hm
    exact Nat.lt_of_lt_of_le (hs.mapping hm) h.nextId
  listener ho := by
    rw [h.listeners] at ho
    exact Nat.lt_of_lt_of_le (hs.listener ho) h.nextId
  table ht := by
    rw [h.tables] at ht
    exact Nat.lt_of_lt_of_le (hs.table ht) h.nextId
  arena ha := by
    rcases h.arena _ ha with ha | ha
    · exact Nat.lt_of_lt_of_le (hs.arena ha) h.nextId
    · exact Nat.lt_of_lt_of_le ha h.nextId
  nextId_pos := Nat.lt_of_lt_of_le hs.nextId_pos h.nextId

/-- **Accounts are kept by what is alike**: none of the counts, holders and owners that they compare
has moved. -/
theorem accounted {d : List Task} (h : Alike s t) (hs : Accounted s d) : Accounted t d where
  balanced r := by
    unfold System.refCount
    rw [h.refs, h.held]
    exact hs.balanced r
  present r := by
    unfold System.refCount
    rw [h.refs, h.present]
    exact hs.present r
  kind k := by
    rw [Store.has_of_map (h.object k), Store.has_of_map (h.job k), Store.has_of_map (h.process k),
      h.views, h.witnesses]
    exact hs.kind k
  parent := by
    intro k p j hj hp
    obtain ⟨i, hi, he⟩ := Option.map_eq_some_iff.1 ((h.job k).symm.trans (by rw [hj]; rfl))
    rw [Store.contains_of_map (h.job p)]
    exact hs.parent hi (he.trans hp)
  job := by
    intro k p hp
    obtain ⟨q, hq, he⟩ := Option.map_eq_some_iff.1 ((h.process k).symm.trans (by rw [hp]; rfl))
    rw [Store.contains_of_map (h.job p.job), ← he]
    exact hs.job hq
  bounded := h.bounded hs.bounded

end Alike

end KernelObjects
