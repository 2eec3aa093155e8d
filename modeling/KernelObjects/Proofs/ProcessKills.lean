import KernelObjects.Proofs.KernelHandles
import KernelObjects.Proofs.Stamps
import KernelObjects.Proofs.Lineage
import KernelObjects.Proofs.Onward

/-
# The kill of a process

A process that is killed is marked as dead, gives up its table, closes what was in it and leaves
its job.  Closing a handle may destroy the object behind it, and with that jobs, VM objects and
other processes, whose tables are closed in turn; it may also concern the process itself, or its
job.

What is known of every such chain is enough.  It makes neither handles nor tables
(`System.Sheds`); it takes records of processes away but does not change one, and signals and the
trace only grow (`System.Subsides`).  Whoever still has to close a handle is its one owner, so
nothing that happens before closes it: every handle of the table is closed at its own turn
(`World.ClosesInTurn`), and when all is done nobody owns it, so no arena finds it.

The process may be gone when its kill is over, if nothing but its own table had kept it: then it
goes in the midst of the kill, when that handle is closed.  So what is said of its record is said
of the case that somebody keeps it (`Grips`).

The closes are found in the trace in the order of the values in the table, with whatever follows
from each of them in between.  That is as much as can be said of the order: what follows from one
close may close handles of other tables, and these are not part of the list.
-/

namespace KernelObjects

/-! ## 1. What a chain of destruction adds

Nothing is said of what a chain takes away.  It may be almost anything, and it is not needed. -/

namespace System

variable {s t u : System}

/-- Records of processes stay as they are or go, and signals and the trace only grow. -/
structure Subsides (s t : System) : Prop where
  process : ∀ {k : Nat} {p : Process}, t.processes[k]? = some p → s.processes[k]? = some p
  signals : ∀ {k : Nat} {o : Object}, t.objects[k]? = some o →
    ∃ a, s.objects[k]? = some a ∧ a.signals ⊆ o.signals
  trace : s.trace <:+ t.trace

namespace Subsides

theorem of_same (hp : t.processes = s.processes) (ho : t.objects = s.objects)
    (ht : t.trace = s.trace) : Subsides s t where
  process h := hp ▸ h
  signals {_ o} h := ⟨o, ho ▸ h, Signals.subset_self _⟩
  trace := by rw [ht]

theorem refl (s : System) : Subsides s s := of_same rfl rfl rfl

theorem trans (h : Subsides s t) (h' : Subsides t u) : Subsides s u where
  process hp := h.process (h'.process hp)
  signals ho := by
    obtain ⟨b, hb, hbo⟩ := h'.signals ho
    obtain ⟨a, ha, hab⟩ := h.signals hb
    exact ⟨a, ha, Signals.subset_trans hab hbo⟩
  trace := h.trace.trans h'.trace

theorem ite {c : Prop} [Decidable c] (h : Subsides s t) (h' : Subsides s u) :
    Subsides s (if c then t else u) := by
  split
  · exact h
  · exact h'

theorem log (s : System) (e : Event) : Subsides s (s.log e) :=
  { refl s with trace := List.suffix_cons e s.trace }

/-- An object whose signals grow. -/
theorem modifyObject {k : Koid} {f : Object → Object} (h : ∀ o, o.signals ⊆ (f o).signals) :
    Subsides s { s with objects := s.objects.modify k f } := by
  refine { refl s with signals := fun {a o} ho => ?_ }
  have ho := (Store.getElem?_modify s.objects k a f).symm.trans ho
  split at ho
  · obtain ⟨x, hx, rfl⟩ := Option.map_eq_some_iff.1 ho
    exact ⟨x, hx, h x⟩
  · exact ⟨o, ho, Signals.subset_self _⟩

theorem signal (s : System) (k : Koid) (set : Signals) : Subsides s (s.signal k .empty set) :=
  modifyObject fun _ => Signals.subset_update_empty _ _

theorem eraseObject (s : System) (k : Koid) :
    Subsides s { s with objects := s.objects.erase k } :=
  { refl s with signals := fun {_ o} ho => ⟨o, Remains.erase ho, Signals.subset_self _⟩ }

theorem upkeep {k : Koid} (h : Upkeep k s t) : Subsides s t := by
  induction h with
  | refl => exact refl _
  | trans _ _ ih ih' => exact ih.trans ih'
  | job => exact of_same rfl rfl rfl
  | shown _ set => exact signal _ k set
  | unbound slot => cases slot <;> exact of_same rfl rfl rfl
  | killed | died | halted => exact log _ _

theorem zeroHandles (s : System) (k : Koid) : Subsides s (s.zeroHandles k) := by
  unfold System.zeroHandles
  dsimp only
  split
  · exact log _ _
  · exact (log _ _).trans (of_same rfl rfl rfl)

/-- The end of the last clone sets a signal; only the first clone would clear one. -/
theorem tellWatcher (s : System) (v : VmoId) : Subsides s (s.tellWatcher v false) := by
  unfold System.tellWatcher
  split
  · exact refl s
  · exact ite ((log _ _).trans (signal _ _ _)) (refl s)
  · split
    · exact refl s
    · exact log _ _

theorem forgetClone (s : System) (v c : VmoId) : Subsides s (s.forgetClone v c) := by
  have hdropped : Subsides s (s.dropClone v c) := by
    obtain ⟨families, he, -⟩ := s.dropClone_eq v c
    rw [he]
    exact of_same rfl rfl rfl
  obtain he | he := s.forgetClone_cases v c
  · rw [he]
    exact hdropped
  · rw [he]
    exact hdropped.trans (tellWatcher _ v)

theorem destroyObject (s : System) (k : Koid) : Subsides s (s.destroyObject k).1 := by
  unfold System.destroyObject
  have hgone := eraseObject s k
  dsimp only
  -- A job or a process leaves its job, which is upkeep of that job; a view or a witness is taken
  -- out and nobody hears of it.
  cases s.jobs[k]? with
  | some j =>
    have herased : Subsides s { s with objects := s.objects.erase k, jobs := s.jobs.erase k } :=
      hgone.trans (of_same rfl rfl rfl)
    have hbooks : ∀ x : System,
        Subsides x (((x.unregister k).bump .jobDestroy).log (.destroyed k none)) := fun x =>
      (of_same rfl rfl rfl : Subsides x ((x.unregister k).bump .jobDestroy)).trans (log _ _)
    dsimp only
    cases j.parent with
    | none => exact herased.trans (hbooks _)
    | some p => exact (herased.trans (upkeep (detachJob_upkeep _ p k))).trans (hbooks _)
  | none =>
    cases s.processes[k]? with
    | some p =>
      have herased : Subsides s
          { s with objects := s.objects.erase k, processes := s.processes.erase k } :=
        hgone.trans { refl _ with process := Remains.erase }
      have hbooks : ∀ x : System, Subsides x ((x.bump .processDestroy).log (.destroyed k none)) :=
        fun x => (of_same rfl rfl rfl : Subsides x (x.bump .processDestroy)).trans (log _ _)
      exact (herased.trans (upkeep (detachProcess_upkeep _ p.job k))).trans (hbooks _)
    | none =>
      cases s.views[k]? with
      | some v =>
        have herased : Subsides s (bump { s with
            objects := s.objects.erase k, views := s.views.erase k } .viewDestroy) :=
          hgone.trans (of_same rfl rfl rfl)
        exact herased.trans (log _ _)
      | none =>
        cases s.witnesses[k]? with
        | some w =>
          have herased : Subsides s
              { s with objects := s.objects.erase k, witnesses := s.witnesses.erase k } :=
            hgone.trans (of_same rfl rfl rfl)
          exact herased.trans (log _ _)
        | none => exact hgone

theorem destroyVmo (s : System) (v : VmoId) : Subsides s (s.destroyVmo v).1 := by
  unfold System.destroyVmo
  cases s.vmos[v]? with
  | none => exact refl s
  | some o =>
    have herased : Subsides s { s with vmos := s.vmos.erase v, vmoList := s.vmoList.erase v } :=
      of_same rfl rfl rfl
    have hleft : ∀ x : System, Subsides x (({ x with
        families := x.families.modify o.family fun f => f.erase v } : System).log
          (.vmoDestroyed v)) := fun x =>
      (of_same rfl rfl rfl : Subsides x
        { x with families := x.families.modify o.family fun f => f.erase v }).trans (log _ _)
    dsimp only
    cases o.parent with
    | none => exact herased.trans (hleft _)
    | some p => exact (herased.trans (forgetClone _ p v)).trans (hleft _)

theorem destroy (s : System) (r : Ref) : Subsides s (s.destroy r).1 := by
  cases r with
  | object k => exact destroyObject s k
  | handle h =>
    unfold System.destroy
    dsimp only
    split
    · exact refl s
    · exact of_same rfl rfl rfl
  | vmo v => exact destroyVmo s v
  | mapping m => exact of_same rfl rfl rfl
  | listener o => exact of_same rfl rfl rfl

/-- Closing a handle is written down before anybody is told of it. -/
theorem perform_close {h : HandleId} {r : Handle} (hr : s.handles[h]? = some r) :
    Subsides (s.closing r) (s.perform (.close h)).1 := by
  rw [System.perform_close hr]
  exact ite (zeroHandles _ _) (refl _)

theorem closing (s : System) (r : Handle) : Subsides s (s.closing r) := by
  have hcounted : Subsides s { s with
      objects := s.objects.modify r.object fun o => { o with handles := o.handles - 1 } } :=
    modifyObject fun _ => Signals.subset_self _
  have hslot : Subsides s (s.withoutSlot r) := hcounted.trans (of_same rfl rfl rfl)
  exact hslot.trans (log _ _)

theorem perform (s : System) (t : Task) : Subsides s (s.perform t).1 := by
  cases t with
  | release r =>
    unfold System.perform
    dsimp only
    split
    · exact refl s
    · exact (of_same rfl rfl rfl : Subsides s { s with refs := s.refs.release r }).trans
        (destroy _ r)
    · exact of_same rfl rfl rfl
  | close h =>
    cases hr : s.handles[h]? with
    | none =>
      unfold System.perform closeHandle
      dsimp only
      rw [hr]
      exact refl s
    | some r => exact (closing s r).trans (perform_close hr)
  | closeTable i =>
    unfold System.perform
    dsimp only
    split
    · exact refl s
    · exact of_same rfl rfl rfl

theorem settle (s : System) (ts : List Task) : Subsides s (s.settle ts) := by
  fun_induction System.settle s ts with
  | case1 s => exact refl s
  | case2 s t rest ih => exact (perform s t).trans ih

end Subsides

end System

/-! ## 2. What a chain leaves of handles

A handle is never written while things are destroyed, but for its process when its table is
cleared.  So what a table holds can be read off before the chain and after it. -/

/-- A handle that is there was there, with the same value, object and arena. -/
theorem Decline.handle_kin {K P : Koid → Prop} {w w' : World} (h : Decline K P w w') {x : Nat}
    {b : Handle} (hb : w'.system.handles[x]? = some b) :
    ∃ a, w.system.handles[x]? = some a ∧ a.kin = b.kin := by
  cases h with
  | inert hs => exact exists_of_map_eq (hs.handle x) hb
  | handle => exact ⟨b, System.Remains.erase hb, rfl⟩
  | @vmo s d v o _ _ =>
    obtain ⟨families, he, -⟩ := s.withoutVmo_eq v o
    dsimp only at hb
    rw [he] at hb
    exact ⟨b, hb, rfl⟩
  | _ => exact ⟨b, hb, rfl⟩

theorem Declines.handle_kin {K P : Koid → Prop} {w w' : World} (h : Declines K P w w') {x : Nat}
    {b : Handle} (hb : w'.system.handles[x]? = some b) :
    ∃ a, w.system.handles[x]? = some a ∧ a.kin = b.kin := by
  induction h generalizing b with
  | refl => exact ⟨b, hb, rfl⟩
  | tail _ hstep ih =>
    obtain ⟨c, hc, hcb⟩ := hstep.handle_kin hb
    obtain ⟨a, ha, hac⟩ := ih hc
    exact ⟨a, ha, hac.trans hcb⟩

/-- A handle that is live was live before. -/
theorem Declines.live {K P : Koid → Prop} {s t : System} {d : List Task}
    (h : Declines K P ⟨s, d⟩ ⟨t, d⟩) {x : HandleId} {b : Handle} (hl : World.Live ⟨t, d⟩ x b) :
    ∃ a, World.Live ⟨s, d⟩ x a ∧ a.kin = b.kin := by
  obtain ⟨a, ha, hab⟩ := h.handle_kin hl.1
  refine ⟨a, ⟨ha, ?_⟩, hab⟩
  have hpos : 0 < t.owned x + d.count (.close x) := hl.2
  show 0 < s.owned x + d.count (.close x)
  rcases Nat.eq_zero_or_pos (t.owned x) with h0 | howned
  · omega
  · obtain ⟨i, table, n, hi, hn⟩ := System.owned_pos_iff.1 howned
    obtain ⟨table', hi', hkeep⟩ := h.remains.table hi
    exact Nat.add_pos_left (System.owned_pos_iff.2 ⟨i, table', n, hi', hkeep n x hn⟩) _

/-- Tables have handles under the values that the handles have in their arenas. -/
def System.Keyed (s : System) : Prop :=
  ∀ {i : TableId} {table : Table} {n : Nat} {x : HandleId} {r : Handle},
    s.tables[i]? = some table → table.owned[n]? = some x → s.handles[x]? = some r → r.base = n

/-- Handles are taken out of tables by declines, and never put in, -/
theorem Decline.keyed {K P : Koid → Prop} {w w' : World} (h : Decline K P w w')
    (hi : w.system.Keyed) : w'.system.Keyed := by
  intro i table n x r ht hn hr
  obtain ⟨table', ht', hkeep⟩ := h.remains.table ht
  obtain ⟨a, ha, har⟩ := h.handle_kin hr
  exact (congrArg Handle.Kin.base har).symm.trans (hi ht' (hkeep n x hn) ha)

theorem System.Keyed.setOwned {s : System} {t : TableId} {owned : Store HandleId} (hs : s.Keyed)
    (ho : ∀ {n : Nat} {x : HandleId} {r : Handle}, owned[n]? = some x → s.handles[x]? = some r →
      r.base = n) : (s.setOwned t owned).Keyed := by
  intro i u n x r hu hn hr
  rw [tables_setOwned] at hu
  split at hu
  · obtain ⟨u', -, rfl⟩ := Option.map_eq_some_iff.1 hu
    exact ho hn hr
  · exact hs hu hn hr

/-- and where one is put in, it is put under its own value. -/
theorem Birth.keyed {A C : Prop} {w w' : World} (h : Birth A C w w')
    (hacc : Accounted w.system w.dues) (hi : w.system.Keyed) : w'.system.Keyed := by
  cases h with
  | @table s d d' process arena _ =>
    intro i u n x r hu hn hr
    have hu := (Store.getElem?_insert s.tables s.nextId i { process, arena }).symm.trans hu
    split at hu
    · cases hu
      cases (Store.getElem?_empty n).symm.trans hn
    · exact hi hu hn hr
  | @handle s d a arena k rights =>
    intro i u n x r hu hn hr
    have hr := (Store.getElem?_insert s.handles s.nextId x _).symm.trans hr
    split at hr
    · -- a new handle is in no table yet
      rename_i he
      have hpos : 0 < s.owned x := System.owned_pos_iff.2 ⟨i, u, n, hu, hn⟩
      rw [← he, hacc.not_owned_nextId] at hpos
      cases hpos
    · exact hi hu hn hr
  | @adopt s d t table x r ht hx =>
    refine System.Keyed.setOwned hi fun {n y q} hn hq => ?_
    rw [Store.getElem?_insert] at hn
    split at hn
    · rename_i hbase
      cases hn
      rw [hx] at hq
      cases hq
      exact hbase
    · exact hi ht hn hq
  | @expel s d t table n x ht hx =>
    exact System.Keyed.setOwned hi fun hn hq => hi ht (System.Remains.erase hn) hq
  | _ => exact hi

/-- **In every state that is passed tables have handles under their own values**, whatever arenas
the handles are of. -/
theorem World.Passed.keyed {A C : Prop} {w : World} (h : Passed A C w) : w.system.Keyed := by
  refine h.keeps (I := fun w => w.system.Keyed) (fun ht => ?_) fun v v' hacc hmove hi => ?_
  · simp [System.initial] at ht
  · rcases hmove with hmove | hmove
    · exact hmove.keyed hi
    · exact hmove.keyed hacc hi

/-! ## 3. A table that is cleared

First the handles lose their process, then the table is empty, then they are closed in ascending
order. -/

namespace System

variable {s : System} {t : TableId} {d : List Task}

/-- What a table owns, under the values of the handles; nothing, if the table is not there. -/
def ownedBy (s : System) (t : TableId) : Store HandleId := (s.tables[t]?.map Table.owned).getD ∅

/-- The state after all handles left a table and its process, before the first is closed. -/
def vacated (s : System) (t : TableId) : System :=
  (s.ownedBy t).values.foldl (setProcess · noProcess ·) (s.setOwned t ∅)

theorem ownedBy_of_some {table : Table} (ht : s.tables[t]? = some table) :
    s.ownedBy t = table.owned := by
  unfold ownedBy
  rw [ht]
  rfl

theorem ownedBy_of_none (ht : s.tables[t]? = none) : s.ownedBy t = ∅ := by
  unfold ownedBy
  rw [ht]
  rfl

/-- What is owned stands in a table that is open. -/
theorem exists_of_ownedBy {n : Nat} {x : HandleId}
    (hx : (s.ownedBy t)[n]? = some x) :
    ∃ table, s.tables[t]? = some table ∧ table.owned[n]? = some x := by
  cases ht : s.tables[t]? with
  | none =>
    rw [ownedBy_of_none ht] at hx
    cases (Store.getElem?_empty n).symm.trans hx
  | some table => exact ⟨table, rfl, ownedBy_of_some ht ▸ hx⟩

theorem vacated_of_some {table : Table} (ht : s.tables[t]? = some table) :
    s.vacated t = s.emptied t table := by
  unfold vacated emptied
  rw [ownedBy_of_some ht]

theorem vacated_of_none (ht : s.tables[t]? = none) : s.vacated t = s := by
  unfold vacated
  rw [ownedBy_of_none ht]
  show s.setOwned t ∅ = s
  unfold setOwned
  rw [Store.modify_of_none ht]

/-- **Clearing a table** is closing what it owned, once all of that has left it. -/
theorem tableClear_eq (s : System) (t : TableId) :
    (s.tableClear t).2 = (s.vacated t).settle ((s.ownedBy t).values.map .close) := by
  cases ht : s.tables[t]? with
  | none =>
    rw [tableClear_of_none ht, vacated_of_none ht, ownedBy_of_none ht]
    exact (settle.eq_1 s).symm
  | some table => rw [tableClear_of_some ht, vacated_of_some ht, ownedBy_of_some ht]

theorem vacated_declines {K P : Koid → Prop} (s : System) (t : TableId) (d : List Task) :
    Declines K P ⟨s, d⟩ ⟨s.vacated t, (s.ownedBy t).values.map .close ++ d⟩ := by
  cases ht : s.tables[t]? with
  | none =>
    rw [vacated_of_none ht, ownedBy_of_none ht]
    exact .refl
  | some table =>
    rw [vacated_of_some ht, ownedBy_of_some ht]
    exact emptied_declines ht d

theorem ownedBy_vacated (s : System) (t : TableId) : (s.vacated t).ownedBy t = ∅ := by
  cases ht : s.tables[t]? with
  | none => rw [vacated_of_none ht, ownedBy_of_none ht]
  | some table =>
    obtain ⟨handles, he, -⟩ := s.emptied_eq t table
    have hempty : (s.setOwned t ∅).tables[t]? = some { table with owned := ∅ } := by
      rw [tables_setOwned, if_pos rfl, ht]
      rfl
    rw [vacated_of_some ht, he]
    exact ownedBy_of_some hempty

/-- What is left of a table that owned nothing owns nothing. -/
theorem Sheds.ownedBy_eq_empty {u : System} (h : Sheds s u) (hs : s.ownedBy t = ∅) :
    u.ownedBy t = ∅ := by
  cases ht : u.tables[t]? with
  | none => exact ownedBy_of_none ht
  | some table => rw [ownedBy_of_some ht, ← hs, ownedBy_of_some (h.tables ht)]

theorem Subsides.vacated (s : System) (t : TableId) : Subsides s (s.vacated t) := by
  cases ht : s.tables[t]? with
  | none =>
    rw [vacated_of_none ht]
    exact refl s
  | some table =>
    obtain ⟨handles, he, -⟩ := s.emptied_eq t table
    rw [vacated_of_some ht, he]
    exact of_same rfl rfl rfl

theorem Subsides.tableClear (s : System) (t : TableId) : Subsides s (s.tableClear t).2 := by
  rw [tableClear_eq]
  exact (vacated s t).trans (settle _ _)

end System

/-- **What a table owned has no owner when the table is cleared**: each of the handles is due to be
closed when it has left the table, and is nowhere else. -/
theorem World.Passed.owners_tableClear {A C : Prop} {s : System} {d : List Task}
    (h : Passed A C ⟨s, d⟩) {t : TableId} {n : Nat} {x : HandleId}
    (hx : (s.ownedBy t)[n]? = some x) : (s.tableClear t).2.owners d x = 0 := by
  have hvacated : Passed A C ⟨s.vacated t, (s.ownedBy t).values.map .close ++ d⟩ :=
    h.trans (System.vacated_declines (K := fun _ => True) (P := fun _ => True) s t d).moves
  have hdue : Task.close x ∈ (s.ownedBy t).values.map Task.close :=
    List.mem_map_of_mem (Store.mem_values_iff.2 ⟨n, hx⟩)
  have hcount : 0 < ((s.ownedBy t).values.map Task.close).count (.close x) :=
    List.count_pos_iff.2 hdue
  have howners : (s.vacated t).owners ((s.ownedBy t).values.map .close ++ d) x =
      (s.vacated t).owned x +
        (((s.ownedBy t).values.map Task.close).count (.close x) + d.count (.close x)) :=
    congrArg _ List.count_append
  obtain ⟨r, hr⟩ := hvacated.accounted.handle_of_owners (a := x) (by dsimp only; omega)
  have hone := hvacated.slotted.owners_eq_one hr (by dsimp only; omega)
  -- the one owner is whoever clears the table
  have hnone : (s.vacated t).owned x = 0 ∧ d.count (.close x) = 0 := by
    dsimp only at hone
    omega
  have hleft : (s.tableClear t).2.owned x = 0 := by
    refine Nat.eq_zero_of_not_pos fun hpos => ?_
    obtain ⟨i, table, b, hi, hb⟩ := System.owned_pos_iff.1 hpos
    rw [System.tableClear_eq] at hi
    have hbefore := System.owned_pos_iff.2 ⟨i, table, b, (System.Sheds.settle _ _).tables hi, hb⟩
    omega
  show (s.tableClear t).2.owned x + d.count (.close x) = 0
  rw [hleft, hnone.2]

/-! ## 4. Handles that are closed in turn

A handle that is due to be closed is live until it is: its one owner is the due.  So the next one
in the list is there, and stands in its slot, whatever the ones before it led to. -/

/-- Closes handles one after the other, each with all that follows from that.  Every handle is live
when its turn comes, and has the value that it is listed under. -/
inductive World.ClosesInTurn : List (Nat × HandleId) → World → World → Prop
  | nil {w : World} : ClosesInTurn [] w w
  | cons {n : Nat} {x : HandleId} {r : Handle} {l : List (Nat × HandleId)} {s : System}
      {d : List Task} {v : World} (hl : Live ⟨s, .close x :: d⟩ x r) (hn : r.base = n)
      (rest : ClosesInTurn l ⟨s.close x, d⟩ v) :
      ClosesInTurn ((n, x) :: l) ⟨s, .close x :: d⟩ v

namespace World

/-- **Dues are closed in turn**: what is closed first does not close what is due later. -/
theorem Passed.closesInTurn {A C : Prop} {l : List (Nat × HandleId)} {s : System}
    {d : List Task} (h : Passed A C ⟨s, (l.map Prod.snd).map .close ++ d⟩)
    (hl : ∀ y ∈ l, ∀ r, s.handles[y.2]? = some r → r.base = y.1) :
    ClosesInTurn l ⟨s, (l.map Prod.snd).map .close ++ d⟩
      ⟨s.settle ((l.map Prod.snd).map .close), d⟩ := by
  induction l generalizing s with
  | nil =>
    rw [List.map_nil, List.map_nil, System.settle]
    exact .nil
  | cons y l ih =>
    have hown : 0 < s.owners (.close y.2 :: ((l.map Prod.snd).map .close ++ d)) y.2 := by
      rw [System.owners_close, if_pos rfl]
      exact Nat.succ_pos _
    obtain ⟨r, hr⟩ := h.accounted.handle_of_owners hown
    have hnext : Passed A C ⟨s.close y.2, (l.map Prod.snd).map .close ++ d⟩ :=
      h.trans (s.settle_moves [.close y.2] _)
    have hrest := ih hnext fun z hz q hq =>
      hl z (List.mem_cons_of_mem _ hz) q ((System.Sheds.settle s _).handles hq)
    have hsettle : s.settle (((y :: l).map Prod.snd).map .close) =
        (s.close y.2).settle ((l.map Prod.snd).map .close) :=
      s.settle_append [.close y.2] ((l.map Prod.snd).map .close)
    rw [hsettle]
    exact .cons ⟨hr, hown⟩ (hl y List.mem_cons_self r hr) hrest

/-- Handles that are closed in turn are written down in turn, whatever is written down in
between. -/
theorem ClosesInTurn.trace {l : List (Nat × HandleId)} {w v : World} (h : ClosesInTurn l w v) :
    ∃ new, v.system.trace = new ++ w.system.trace ∧
      ((l.map Prod.fst).map Event.handleClosed).reverse.Sublist new := by
  induction h with
  | nil => exact ⟨[], rfl, .slnil⟩
  | @cons n x r l s d v hl hn _ ih =>
    obtain ⟨new, hnew, hsub⟩ := ih
    obtain ⟨between, hbetween⟩ : (s.closing r).trace <:+ (s.close x).trace := by
      have hperform := System.Subsides.perform_close hl.1
      unfold System.close
      rw [System.settle]
      exact (hperform.trans (.settle _ _)).trace
    refine ⟨new ++ (between ++ [.handleClosed n]), ?_, ?_⟩
    · dsimp only at hnew ⊢
      rw [hnew, ← hbetween, ← hn, List.append_assoc, List.append_assoc]
      rfl
    · rw [List.map_cons, List.map_cons, List.reverse_cons]
      exact hsub.append (List.sublist_append_right between _)

variable {A C : Prop} {s : System} {d : List Task}

/-- **A table that is cleared closes its handles in the order of their values.** -/
theorem Passed.tableClear_closesInTurn (h : Passed A C ⟨s, d⟩) (t : TableId) :
    ClosesInTurn (s.ownedBy t).toList ⟨s.vacated t, (s.ownedBy t).values.map .close ++ d⟩
      ⟨(s.tableClear t).2, d⟩ := by
  have hdeclines := s.vacated_declines (K := fun _ => True) (P := fun _ => True) t d
  have hvacated : Passed A C ⟨s.vacated t, (s.ownedBy t).values.map .close ++ d⟩ :=
    h.trans hdeclines.moves
  rw [System.tableClear_eq]
  rw [Store.values_eq_map] at hvacated hdeclines ⊢
  refine hvacated.closesInTurn fun y hy r hr => ?_
  obtain ⟨table, ht, hn⟩ :=
    System.exists_of_ownedBy (Std.ExtTreeMap.mem_toList_iff_getElem?_eq_some.1 hy)
  obtain ⟨a, ha, har⟩ := hdeclines.handle_kin hr
  exact (congrArg Handle.Kin.base har).symm.trans (h.keyed ht hn ha)

theorem Passed.trace_tableClear (h : Passed A C ⟨s, d⟩) (t : TableId) :
    ∃ new, (s.tableClear t).2.trace = new ++ s.trace ∧
      ((s.ownedBy t).keys.map Event.handleClosed).reverse.Sublist new := by
  obtain ⟨new, hnew, hsub⟩ := (h.tableClear_closesInTurn t).trace
  rw [Std.ExtTreeMap.map_fst_toList_eq_keys] at hsub
  obtain ⟨before, hbefore⟩ := (System.Subsides.vacated s t).trace
  refine ⟨new ++ before, ?_, hsub.trans (List.sublist_append_left _ _)⟩
  dsimp only at hnew
  rw [hnew, ← hbefore, List.append_assoc]

end World

/-! ## 5. Processes that are dead or gone

A process that is dead is not written to any more, and a number is not used again. -/

/-- The process is dead, or it is not there any more. -/
def System.Finished (s : System) (k : Koid) : Prop :=
  ∀ p, s.processes[k]? = some p → p.state = .dead

section Finished

variable {A C : Prop} {w w' : World} {k : Koid}

/-- Nothing makes a process run again, and its identity is not handed out to another one. -/
theorem Move.finished (h : Move A C w w') (hk : k < w.system.nextKoid)
    (hf : w.system.Finished k) : w'.system.Finished k := by
  rcases h with h | h
  · intro p hp
    obtain ⟨a, ha, hw⟩ := h.wanes.process hp
    cases hs : p.state with
    | dead => rfl
    | running =>
      have hrun : a.state = .running := hw.running hs
      rw [hf a ha] at hrun
      cases hrun
  · cases h with
    | process => exact fun p hp => hf p (Steady.of_insert hk hp)
    | _ => exact hf

/-- **What is dead or gone stays so.** -/
theorem Moves.finished (h : Moves A C w w') (hk : k < w.system.nextKoid)
    (hf : w.system.Finished k) : w'.system.Finished k := by
  induction h with
  | refl => exact hf
  | tail hrun hstep ih =>
    exact hstep.finished (Nat.lt_of_lt_of_le hk (Moves.steady hrun).nextKoid) ih

end Finished

/-! ## 6. The kill

The parts in the order of the program, for a process that runs; for any other one nothing
happens. -/

/-- Somebody keeps an object outside of tables: with a reference to it, with one to a handle to it,
or as the owner of such a handle. -/
def World.Grips (w : World) (k : Koid) : Prop :=
  .release (.object k) ∈ w.dues ∨ ∃ x r, w.system.handles[x]? = some r ∧ r.object = k ∧
    (.release (.handle x) ∈ w.dues ∨ .close x ∈ w.dues)

/-- What somebody keeps is there as long as it is kept. -/
theorem Declines.present_of_grips {K P : Koid → Prop} {s t : System} {d : List Task} {k : Koid}
    (h : Declines K P ⟨s, d⟩ ⟨t, d⟩) (hacc : Accounted s d) (hg : World.Grips ⟨s, d⟩ k) :
    t.Present (.object k) := by
  have hacc' : Accounted t d := h.accounted hacc
  rcases hg with hg | ⟨x, r, hr, rfl, hx⟩
  · exact hacc'.present_of_owed (owed_pos hg (by simp [Task.holds]))
  · have hpos : 0 < owed d (.handle x) := by
      rcases hx with hx | hx <;> exact owed_pos hx (by simp [Task.holds])
    obtain ⟨b, hb⟩ := Store.contains_iff.1 (hacc'.present_of_owed hpos)
    obtain ⟨a, ha, hab⟩ := h.handle_kin hb
    rw [show s.handles[x]? = some r from hr] at ha
    cases ha
    rw [show r.object = b.object from congrArg Handle.Kin.object hab]
    exact hacc'.present_of_held (held_of_handle hb)

/-- What an arena finds is live. -/
theorem World.Passed.live_of_findHandle {w : World} (h : Passed True True w) {i : ArenaId} {n : Nat}
    {x : HandleId} (hx : w.system.findHandle i n = some x) :
    ∃ r, w.Live x r ∧ r.arena = i ∧ r.base = n := by
  obtain ⟨a, ha, -⟩ := Option.bind_eq_some_iff.1 hx
  exact (h.findHandle_eq_some_iff ha n x).1 hx

/-- **What the kill of a running process comes to.**  The process `k` had the record `p`, and `v` is
where the kill leads. -/
structure World.KillSound (w : World) (k : Koid) (p : Process) (code : Int) (v : World) : Prop where
  /-- A process that somebody keeps is dead, has the code and shows that it has terminated. -/
  dead : w.Grips k →
    v.system.processes[k]? = some { p with state := .dead, returnCode := code } ∧
      .taskTerminated ⊆ v.system.signals k
  empty : v.system.ownedBy p.table = ∅
  /-- What it owned was live, under the value that the table had it under.  Now there is no handle
  under the value in the arena, and the handle itself is found nowhere. -/
  closed : ∀ {n : Nat} {x : HandleId}, (w.system.ownedBy p.table)[n]? = some x →
    ∃ r, w.Live x r ∧ r.base = n ∧ v.system.findHandle r.arena n = none ∧
      ∀ i m, v.system.findHandle i m ≠ some x
  /-- The handles were closed in turn, after the process was dead and before it left its job. -/
  inTurn : ∃ u, ClosesInTurn (w.system.ownedBy p.table).toList
      ⟨(w.system.endProcess code k).vacated p.table,
        (w.system.ownedBy p.table).values.map .close ++ w.dues⟩ ⟨u, w.dues⟩ ∧
    v.system = u.detachProcess p.job k
  ascending : (w.system.ownedBy p.table).keys.Pairwise (· < ·)
  /-- The kill was written down first and the handles in the order of their values. -/
  written : ∃ new, v.system.trace = new ++ w.system.trace ∧
    (.processKilled k code :: (w.system.ownedBy p.table).keys.map .handleClosed).reverse.Sublist new
  /-- The job of a process that somebody keeps is there. -/
  job : w.Grips k → v.system.jobs.contains p.job
  unlisted : ∀ {j : Nat} {q : Job}, v.system.jobs[j]? = some q → k ∉ q.processes
  counts : ∀ c, v.system.handleCount c = {x : HandleId | ∃ r, v.Live x r ∧ r.object = c}.ncard
  /-- Whatever happens after that, another kill changes nothing. -/
  later : ∀ {u : World}, Moves True True v u → ∀ code' : Int,
    u.system.killProcess code' k = u.system

namespace System

variable {s : System} {k : Koid} {p : Process}

theorem process_endProcess (code : Int) (hp : s.processes[k]? = some p) :
    (s.endProcess code k).processes[k]? = some { p with state := .dead, returnCode := code } := by
  refine (Store.getElem?_modify _ _ _ _).trans ?_
  rw [if_pos rfl, hp]
  rfl

theorem Subsides.killProcess (code : Int) (hp : s.processes[k]? = some p)
    (hrun : p.state = .running) : (s.endProcess code k).Subsides (s.killProcess code k) := by
  rw [killProcess_of_running code hp (by rw [hrun]; decide)]
  exact (tableClear _ _).trans (upkeep (detachProcess_upkeep _ _ _))

/-- A process that was marked as dead shows that it has terminated. -/
theorem terminated_endProcess (s : System) (code : Int) (k : Koid) {o : Object}
    (ho : (s.endProcess code k).objects[k]? = some o) : .taskTerminated ⊆ o.signals := by
  have ho := (Store.getElem?_modify _ _ _ _).symm.trans ho
  rw [if_pos rfl] at ho
  obtain ⟨a, -, rfl⟩ := Option.map_eq_some_iff.1 ho
  exact Signals.subset_update _ _ _

end System

/-- No job lists a process that was killed, if it was listed once and only where it belongs. -/
theorem JobTree.unlisted {s t : System} {k : Koid} {p : Process} {code : Int} (h : JobTree s)
    (hp : s.processes[k]? = some p) (hw : Wanes (fun _ => True) (fun _ => True) s t)
    (hl : ListedOnce ((s.endProcess code k).tableClear p.table).2)
    (ht : t = ((s.endProcess code k).tableClear p.table).2.detachProcess p.job k) {j : Nat}
    {q : Job}
    (hq : t.jobs[j]? = some q) : k ∉ q.processes := by
  intro hmem
  obtain ⟨a, ha, hw⟩ := hw.job hq
  have hjob : p.job = j := h.job ha (hw.processes.subset hmem) hp
  have hties := System.job_pedigree hq
  rw [ht, System.pedigree_detachProcess, hjob, Pedigree.job_relist_self] at hties
  obtain ⟨x, hx, hxq⟩ := Option.map_eq_some_iff.1 hties
  obtain ⟨i, hi, rfl⟩ := Option.map_eq_some_iff.1 hx
  have herased : i.processes.erase k = q.processes := congrArg Job.Ties.processes hxq
  rw [← herased] at hmem
  exact (hl.nodup hi).not_mem_erase hmem

section Kill

variable {s : System} {d : List Task} {k : Koid} {p : Process}

namespace World

/-- A handle without an owner is found nowhere, and nothing is found under its value where it
was. -/
theorem Live.unfound {K P : Koid → Prop} {t : System} {x : HandleId} {r : Handle}
    (hl : Live ⟨s, d⟩ x r) (h : Passed True True ⟨s, d⟩) (hd : Declines K P ⟨s, d⟩ ⟨t, d⟩)
    (h0 : t.owners d x = 0) :
    t.findHandle r.arena r.base = none ∧ ∀ i m, t.findHandle i m ≠ some x := by
  have h' : Passed True True ⟨t, d⟩ := h.trans hd.moves
  have hfound : ∀ i m, t.findHandle i m ≠ some x := by
    intro i m hx
    obtain ⟨b, hb, -⟩ := h'.live_of_findHandle hx
    exact absurd hb.2 (Nat.not_lt.2 (Nat.le_of_eq h0))
  refine ⟨Option.eq_none_iff_forall_ne_some.2 fun y hy => ?_, hfound⟩
  obtain ⟨b, hb, harena, hbase⟩ := h'.live_of_findHandle hy
  obtain ⟨a, ha, hab⟩ := hd.live hb
  have hwhere : r.arena = a.arena := harena.symm.trans (congrArg Handle.Kin.arena hab).symm
  have hvalue : r.base = a.base := hbase.symm.trans (congrArg Handle.Kin.base hab).symm
  have hxy := h.slotted.slot_inj hl.1 ha.1 hl.2 ha.2 hwhere (congrArg HandleValue.index hvalue)
  exact hfound _ _ (hxy ▸ hy)

variable {code : Int}

/-- A process that is killed while somebody keeps it is dead and shows that. -/
theorem Passed.dead_of_kill (h : Passed True True ⟨s, d⟩) (hp : s.processes[k]? = some p)
    (hrun : p.state = .running) (hg : Grips ⟨s, d⟩ k) :
    (s.killProcess code k).processes[k]? = some { p with state := .dead, returnCode := code } ∧
      .taskTerminated ⊆ (s.killProcess code k).signals k := by
  have hall := s.killProcess_declines (K := fun _ => True) (P := fun _ => True) code
    (k := k) trivial d
  have hthere := hall.present_of_grips h.accounted hg
  have hsteady := Moves.steady (A := True) (C := True) hall.moves
  obtain ⟨q, hq⟩ := Store.contains_iff.1 (hsteady.process_of_present h.accounted hp hthere)
  obtain ⟨o, ho⟩ := (hall.accounted h.accounted).object_of_present hthere
  have hsubsides := System.Subsides.killProcess code hp hrun
  obtain ⟨a, ha, hao⟩ := hsubsides.signals ho
  have hrecord := hsubsides.process hq
  rw [System.process_endProcess code hp] at hrecord
  refine ⟨hq.trans hrecord.symm, ?_⟩
  show _ ⊆ ((s.killProcess code k).objects[k]?.map Object.signals).getD .empty
  rw [ho]
  exact Signals.subset_trans (System.terminated_endProcess s code k ha) hao

/-- What a killed process owned is found nowhere. -/
theorem Passed.unfound_of_kill (h : Passed True True ⟨s, d⟩) (hp : s.processes[k]? = some p)
    (hrun : p.state = .running) {n : Nat} {x : HandleId} (hx : (s.ownedBy p.table)[n]? = some x) :
    ∃ r, Live ⟨s, d⟩ x r ∧ r.base = n ∧ (s.killProcess code k).findHandle r.arena n = none ∧
      ∀ i m, (s.killProcess code k).findHandle i m ≠ some x := by
  obtain ⟨table, ht, hn⟩ := System.exists_of_ownedBy hx
  have howned : 0 < s.owners d x :=
    Nat.add_pos_left (System.owned_pos_iff.2 ⟨p.table, table, n, ht, hn⟩) _
  obtain ⟨r, hr⟩ := h.accounted.handle_of_owners howned
  have hbase : r.base = n := h.keyed ht hn hr
  have hended : Passed True True ⟨s.endProcess code k, d⟩ := h.trans
    (System.endProcess_declines (K := fun _ => True) (P := fun _ => True) code hp trivial d).moves
  have hzero : (s.killProcess code k).owners d x = 0 := by
    have hcleared := hended.owners_tableClear (t := p.table) hx
    unfold System.owners System.owned at hcleared ⊢
    rw [System.killProcess_of_running code hp (by rw [hrun]; decide), System.tables_detachProcess]
    exact hcleared
  have hall := s.killProcess_declines (K := fun _ => True) (P := fun _ => True) code
    (k := k) trivial d
  obtain ⟨hnone, hfound⟩ := Live.unfound ⟨hr, howned⟩ h hall hzero
  exact ⟨r, ⟨hr, howned⟩, hbase, hbase ▸ hnone, hfound⟩

/-- **The kill of a running process gives up just what the process owned**, in every state that a
client reaches who lists no process by hand, whatever the handles in its table lead to. -/
theorem Ran.process_kill_sound {w : World} (h : w.Ran fun _ op => ¬ op.Attaches)
    (hp : w.system.processes[k]? = some p) (hrun : p.state = .running) (code : Int) :
    w.KillSound k p code (w.act (.killProcess code k)) := by
  obtain ⟨s, d⟩ := w
  have hpassed := h.passed
  have htree : JobTree s :=
    (h.passed_of (A := False) (C := True) fun _ _ hop => ⟨hop, fun _ => trivial⟩).jobTree
  have he := System.killProcess_of_running code hp (by rw [hrun]; decide)
  have hended : Declines (fun _ => True) (fun _ => True) ⟨s, d⟩ ⟨s.endProcess code k, d⟩ :=
    System.endProcess_declines code hp trivial d
  have hpassed' : Passed True True ⟨s.endProcess code k, d⟩ := hpassed.trans hended.moves
  have hclear := (s.endProcess code k).tableClear_declines (K := fun _ => True)
    (P := fun _ => True) p.table d
  have hall : Declines (fun _ => True) (fun _ => True) ⟨s, d⟩ ⟨s.killProcess code k, d⟩ :=
    s.killProcess_declines code trivial d
  have hkilled : Passed True True ⟨s.killProcess code k, d⟩ := hpassed.trans hall.moves
  constructor
  case dead => exact hpassed.dead_of_kill hp hrun
  case closed => exact hpassed.unfound_of_kill hp hrun
  case counts => exact fun c => hkilled.handleCount_eq_ncard c
  case ascending => exact Store.keys_ascending _
  case inTurn => exact ⟨_, hpassed'.tableClear_closesInTurn p.table, he⟩
  case empty =>
    have hcleared : ((s.endProcess code k).tableClear p.table).2.ownedBy p.table = ∅ := by
      rw [System.tableClear_eq]
      exact (System.Sheds.settle _ _).ownedBy_eq_empty (System.ownedBy_vacated _ _)
    show (s.killProcess code k).ownedBy p.table = ∅
    rw [he]
    exact (System.Sheds.of_hands (System.detachProcess_upkeep _ _ _).hands).ownedBy_eq_empty
      hcleared
  -- the process is marked, then its handles are closed, then it leaves its job: three parts of
  -- the trace, the latest in front
  case written =>
    obtain ⟨new, hnew, hsub⟩ := hpassed'.trace_tableClear p.table
    obtain ⟨after, hafter⟩ := (System.Subsides.upkeep (System.detachProcess_upkeep
      ((s.endProcess code k).tableClear p.table).2 p.job k)).trace
    refine ⟨after ++ (new ++ [.processKilled k code]), ?_, ?_⟩
    · show (s.killProcess code k).trace = _
      rw [he, ← hafter, hnew, List.append_assoc, List.append_assoc]
      rfl
    · rw [List.reverse_cons]
      exact (hsub.append (.refl _)).trans (List.sublist_append_right _ _)
  case job =>
    intro hg
    have hjob := hkilled.accounted.job (hpassed.dead_of_kill hp hrun hg).1
    exact hjob
  case unlisted =>
    intro j q hq
    exact htree.unlisted hp hall.wanes ((h.listedOnce.declines hended).declines hclear) he hq
  case later =>
    intro u hu code'
    refine System.killProcess_of_dead code' (Moves.finished hu ?_ fun q hq => ?_)
    · exact Nat.lt_of_lt_of_le (hpassed.accounted.process_lt hp) hall.wanes.nextKoid
    · exact s.dead_endProcess code k q ((System.Subsides.killProcess code hp hrun).process hq)

end World

end Kill

namespace World

/-- Two processes in a job below a root.  The second one has the last handle to a witness.  The
first one has handles to the second one, to itself and to the job of both, and a client keeps
it. -/
def entwinedOps : List Op :=
  [.createRootJob false, .createJob 1024, .createProcess 1025 Name.blank,
    .createProcess 1025 Name.blank, .createWitness "far" .empty, .makeHandle 0 1025 .basic true,
    .makeHandle 0 1028 .basic true, .tableAdd 2 4, .makeHandle 0 1027 .basic true, .tableAdd 1 5,
    .makeHandle 0 1026 .basic true, .tableAdd 1 6, .tableAdd 1 3, .drop (.release (.object 1025)),
    .drop (.release (.object 1027)), .drop (.release (.object 1028))]

/-- The kill of the first process takes the second one and the witness with it. -/
theorem Ran.process_kill_sound_of_entwined :
    let w := run entwinedOps
    let v := w.act (.killProcess 7 1026)
    (∃ p, w.KillSound 1026 p 7 v) ∧ w.Grips 1026 ∧
      (w.system.ownedBy 1).keys = [262144, 262146, 262147] ∧
      (v.system.processes.keys, v.system.witnesses.keys, v.system.jobs.keys) =
        ([1026], [], [1024, 1025]) ∧
      v.system.trace.take 11 =
        [.zeroHandles 1026 none, .handleClosed 262147, .destroyed 1028 (some "far"),
          .zeroHandles 1028 (some "far"), .handleClosed 262145, .destroyed 1027 none,
          .zeroHandles 1027 none, .handleClosed 262146, .zeroHandles 1025 none,
          .handleClosed 262144, .processKilled 1026 7] := by
  have hran : (run entwinedOps).Ran fun _ op => ¬ op.Attaches := by
    refine Ran.foldl .start ?_
    simp [entwinedOps, Keep, Op.Attaches]
  have hrunning : (run entwinedOps).system.processes[1026]?.map Process.state = some .running := by
    cbv
  obtain ⟨p, hp, hrun⟩ := Option.map_eq_some_iff.1 hrunning
  refine ⟨⟨p, process_kill_sound hran hp hrun 7⟩, .inl (by decide), by cbv, by cbv, by cbv⟩

end World

end KernelObjects
