import KernelObjects.System.Tree
import KernelObjects.System.Family

/-
# Giving references back

When the last reference to something goes, it is destroyed: it leaves its store, does what its kind
does on the way out, and then gives back the references that it held itself.  Closing a handle and
closing a table set off the same kind of chain.  A chain of any length is one run over a list of
*tasks*: the first task is done, and the tasks that follow from it are put in front of the rest, so
everything below a thing is finished before its neighbour's turn comes.

**Why this ends.**  A task that destroys something removes an entry from the table of references, a
task that closes a table removes the table, and every other task leaves both tables alone and is
followed by tasks of less weight in all.
-/

namespace KernelObjects

/-- Something to give back. -/
inductive Task where
  /-- One reference. -/
  | release (r : Ref)
  /-- The ownership of a handle, which deletes it from its arena. -/
  | close (h : HandleId)
  /-- A table with all that it owns. -/
  | closeTable (t : TableId)
  deriving DecidableEq, Repr

/-- Closing a handle is followed by giving back two references to it. -/
def Task.weight : Task → Nat
  | release _ => 1
  | close _ => 3
  | closeTable _ => 1

namespace System

/-! ## 1. Hooks -/

/-- Tells an object that its last handle or its kernel handle is gone.  A view stops watching its
VM object; the other types do nothing. -/
def zeroHandles (s : System) (k : Koid) : System :=
  let s := s.log (.zeroHandles k (s.labelOf k))
  match s.views[k]? with
  | none => s
  | some v => s.setWatcher v.vmo none

/-- Tells the watcher of a VM object, if it is still there, of the first clone or of the end of the
last one.  A view shows that in its signals. -/
def tellWatcher (s : System) (v : VmoId) (appeared : Bool) : System :=
  match s.vmos[v]?.bind Vmo.watcher with
  | none => s
  | some (.view k) =>
    if s.views.contains k then
      let s := s.log
        (if appeared then .firstClone v (.view k) none else .lastClone v (.view k) none)
      if appeared then s.signal k .noClones .empty else s.signal k .empty .noClones
    else s
  | some (.listener o) =>
    match s.listeners[o]? with
    | none => s
    | some label =>
      s.log (if appeared then .firstClone v (.listener o) label
        else .lastClone v (.listener o) label)

/-! ## 2. Clones that go -/

/-- Takes a clone off the list of a VM object, and tells the watcher if it was the last one.
Nothing happens if the clone is not listed. -/
def forgetClone (s : System) (v clone : VmoId) : System :=
  match s.vmos[v]? with
  | none => s
  | some o =>
    match (s.memberIn o.family v).bind fun m => m.forgetClone clone with
    | none => s
    | some m =>
      let s := s.modifyMember o.family v fun _ => m
      if m.clones.isEmpty then s.tellWatcher v false else s

/-! ## 3. Destruction, one kind at a time -/

/-- An object whose last reference is gone.  Its record has left the store before anything else
happens; what it referred to is given back last. -/
def destroyObject (s : System) (k : Koid) : System × List Task :=
  let s := { s with objects := s.objects.erase k }
  match s.jobs[k]?, s.processes[k]?, s.views[k]?, s.witnesses[k]? with
  | some j, _, _, _ =>
    let s := { s with jobs := s.jobs.erase k }
    let s := match j.parent with
      | none => s
      | some p => s.detachJob p k
    let s := ((s.unregister k).bump .jobDestroy).log (.destroyed k none)
    (s, match j.parent with
      | none => []
      | some p => [.release (.object p)])
  | none, some p, _, _ =>
    let s := { s with processes := s.processes.erase k }
    let s := (((s.detachProcess p.job k)).bump .processDestroy).log (.destroyed k none)
    (s, [.release (.object p.job), .closeTable p.table])
  | none, none, some v, _ =>
    let s := { s with views := s.views.erase k }
    ((s.bump .viewDestroy).log (.destroyed k none), [.release (.vmo v.vmo)])
  | none, none, none, some w =>
    (({ s with witnesses := s.witnesses.erase k }).log (.destroyed k w.label), [])
  | none, none, none, none => (s, [])

/-- A VM object whose last reference is gone leaves the list of all, its parent's list and its
family, and then gives back its parent.  It is asserted in debug builds only that the object has no
clones then; this is a build without assertions. -/
def destroyVmo (s : System) (v : VmoId) : System × List Task :=
  match s.vmos[v]? with
  | none => (s, [])
  | some o =>
    let s := { s with vmos := s.vmos.erase v, vmoList := s.vmoList.erase v }
    let s := match o.parent with
      | none => s
      | some p => s.forgetClone p v
    let s := { s with families := s.families.modify o.family fun f => f.erase v }
    (s.log (.vmoDestroyed v), match o.parent with
      | none => []
      | some p => [.release (.vmo p)])

/-- What happens when the last reference to something is gone. -/
def destroy (s : System) : Ref → System × List Task
  | .object k => s.destroyObject k
  | .handle h =>
    match s.handles[h]? with
    | none => (s, [])
    | some r => ({ s with handles := s.handles.erase h }, [.release (.object r.object)])
  | .vmo v => s.destroyVmo v
  | .mapping m => ({ s with mappings := s.mappings.erase m }, [])
  | .listener o => ({ s with listeners := s.listeners.erase o }, [])

/-- Deletes a handle from its arena.  The object is told if this was its last handle, while the
handle still refers to it; then the references of the slot and of the owner are given back. -/
def closeHandle (s : System) (h : HandleId) : System × List Task :=
  match s.handles[h]? with
  | none => (s, [])
  | some r =>
    let last := s.handleCount r.object = 1
    let s := { s with
      arenas := s.arenas.modify r.arena fun a => a.erase r.base
      objects := s.objects.modify r.object fun o => { o with handles := o.handles - 1 } }
    let s := s.log (.handleClosed r.base)
    let s := if last then s.zeroHandles r.object else s
    (s, [.release (.handle h), .release (.handle h)])

/-! ## 4. The run over the tasks -/

/-- Does one task; says what follows from it. -/
def perform (s : System) : Task → System × List Task
  | .release r =>
    match s.refCount r with
    | 0 => (s, [])
    | 1 => { s with refs := s.refs.release r }.destroy r
    | _ + 2 => ({ s with refs := s.refs.release r }, [])
  | .close h => s.closeHandle h
  | .closeTable t =>
    match s.tables[t]? with
    | none => (s, [])
    | some table =>
      ({ s with tables := s.tables.erase t }, table.owned.values.map Task.close)

section Frame

variable (s : System)

@[simp] theorem refs_zeroHandles (k : Koid) : (s.zeroHandles k).refs = s.refs := by
  unfold zeroHandles; dsimp only; split <;> rfl

@[simp] theorem tables_zeroHandles (k : Koid) : (s.zeroHandles k).tables = s.tables := by
  unfold zeroHandles; dsimp only; split <;> rfl

@[simp] theorem refs_tellWatcher (v : VmoId) (b : Bool) : (s.tellWatcher v b).refs = s.refs := by
  unfold tellWatcher
  split
  · rfl
  · split <;> (try cases b) <;> rfl
  · split <;> rfl

@[simp] theorem tables_tellWatcher (v : VmoId) (b : Bool) :
    (s.tellWatcher v b).tables = s.tables := by
  unfold tellWatcher
  split
  · rfl
  · split <;> (try cases b) <;> rfl
  · split <;> rfl

@[simp] theorem refs_forgetClone (v c : VmoId) : (s.forgetClone v c).refs = s.refs := by
  unfold forgetClone; split <;> (try split) <;> (try dsimp only; split) <;> simp [modifyMember]

@[simp] theorem tables_forgetClone (v c : VmoId) : (s.forgetClone v c).tables = s.tables := by
  unfold forgetClone; split <;> (try split) <;> (try dsimp only; split) <;> simp [modifyMember]

@[simp] theorem refs_destroyObject (k : Koid) : (s.destroyObject k).1.refs = s.refs := by
  unfold destroyObject
  dsimp only
  split
  · split <;> simp [unregister, bump, log]
  all_goals simp [bump, log]

@[simp] theorem tables_destroyObject (k : Koid) : (s.destroyObject k).1.tables = s.tables := by
  unfold destroyObject
  dsimp only
  split
  · split <;> simp [unregister, bump, log]
  all_goals simp [bump, log]

@[simp] theorem refs_destroyVmo (v : VmoId) : (s.destroyVmo v).1.refs = s.refs := by
  unfold destroyVmo; split
  · rfl
  · dsimp only; split <;> simp [log]

@[simp] theorem tables_destroyVmo (v : VmoId) : (s.destroyVmo v).1.tables = s.tables := by
  unfold destroyVmo; split
  · rfl
  · dsimp only; split <;> simp [log]

@[simp] theorem refs_destroy (r : Ref) : (s.destroy r).1.refs = s.refs := by
  cases r <;> simp only [destroy, refs_destroyObject, refs_destroyVmo]
  split <;> rfl

@[simp] theorem tables_destroy (r : Ref) : (s.destroy r).1.tables = s.tables := by
  cases r <;> simp only [destroy, tables_destroyObject, tables_destroyVmo]
  split <;> rfl

@[simp] theorem refs_closeHandle (h : HandleId) : (s.closeHandle h).1.refs = s.refs := by
  unfold closeHandle; split
  · rfl
  · dsimp only; split <;> simp [log]

@[simp] theorem tables_closeHandle (h : HandleId) : (s.closeHandle h).1.tables = s.tables := by
  unfold closeHandle; split
  · rfl
  · dsimp only; split <;> simp [log]

end Frame

/-- The number of things that the run can still destroy. -/
def destructible (s : System) : Nat := s.refs.size + s.tables.size

/-- The weight of a list of tasks. -/
def totalWeight (ts : List Task) : Nat := total Task.weight ts

/-- A task destroys something, or it leaves everything there and is followed by less. -/
theorem perform_lt (s : System) (t : Task) :
    (s.perform t).1.destructible < s.destructible ∨
      (s.perform t).1.destructible = s.destructible ∧
        totalWeight (s.perform t).2 < t.weight := by
  unfold destructible
  -- Only the last reference to something and the end of a table take something out.  Everything
  -- else is followed by tasks of less weight.
  cases t with
  | release r =>
    unfold perform
    dsimp only
    split
    · exact Or.inr ⟨rfl, by simp [totalWeight, Task.weight]⟩
    · rename_i h
      left
      have := RefCounts.size_release_lt h
      simp only [refs_destroy, tables_destroy]
      omega
    · rename_i n h
      right
      exact ⟨by simp only [RefCounts.size_release_of_lt (show 1 < s.refs.count r by
        unfold refCount at h; omega)], by simp [totalWeight, Task.weight]⟩
  | close h =>
    right
    refine ⟨by simp [perform], ?_⟩
    unfold perform closeHandle
    dsimp only
    split <;> simp [totalWeight, Task.weight]
  | closeTable t =>
    unfold perform
    dsimp only
    split
    · exact Or.inr ⟨rfl, by simp [totalWeight, Task.weight]⟩
    · rename_i table h
      left
      have := Store.size_erase_lt h
      dsimp only
      omega

/-- Does a list of tasks and everything that follows from them. -/
def settle (s : System) : List Task → System
  | [] => s
  | t :: rest => (s.perform t).1.settle ((s.perform t).2 ++ rest)
termination_by ts => (s.destructible, totalWeight ts)
decreasing_by
  rcases s.perform_lt t with h | ⟨h, hw⟩
  · exact Prod.Lex.left _ _ h
  · rw [Prod.lex_def]
    refine Or.inr ⟨h, ?_⟩
    simp only [totalWeight, total_append, total_cons] at hw ⊢
    omega

/-- Gives back one reference. -/
def release (s : System) (r : Ref) : System := s.settle [.release r]

/-- Gives back several references, one after the other. -/
def releaseAll (s : System) (rs : List Ref) : System := s.settle (rs.map Task.release)

theorem settle_append (s : System) (ts us : List Task) :
    s.settle (ts ++ us) = (s.settle ts).settle us := by
  fun_induction settle s ts with
  | case1 s => rfl
  | case2 s t rest ih =>
    rw [List.cons_append, settle, ← List.append_assoc, ih]

end System

end KernelObjects
