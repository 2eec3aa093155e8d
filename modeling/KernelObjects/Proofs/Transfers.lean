import KernelObjects.Proofs.Isolation
import KernelObjects.Proofs.ProcessKills

/-
# A handle that moves from one table to another

A handle moves in two steps.  It is taken out of the one table, which leaves it without a process,
and it is put into the other, which writes its own process into it.  The arena and the base value
stay the same all the time, and each table shows that value behind the mask of its process.  So
what changes is the process of one handle and one entry in each of the two tables, and taking the
same way back undoes just that (`System.transfers_of_free`).

A table finds a handle by its process, but gives up only what it has on record.  So what is found
can be moved if it is on record; and the other table takes it in without loss if it has nothing on
record under the same base value, as is the case if all its handles are of the one arena.

The states on the way are written down in full (`outOf`, `into`), so what is seen of the handle in
either table, in transit and after it, is a matter of looking it up.  That the way back ends in
the state where it began is an equation between states.

Both conditions can fail in states that clients reach (`transfer_fails`): a second table of the
same process, or a process that was written by hand, lets a table find a handle that it does not
have on record, and a handle of another arena may stand under the base value already.
-/

namespace KernelObjects

open HandleValue

/-! ## 1. Writing tables and processes

Equations between states, so that the way there and back can be computed. -/

/-- An entry that is taken out and put back is where it was. -/
theorem Store.insert_erase {α : Type} {s : Store α} {k : Nat} {v : α} (h : s[k]? = some v) :
    (s.erase k).insert k v = s := by
  ext1 a
  rw [getElem?_insert, getElem?_erase]
  split
  · rename_i hk
    rw [← hk, h]
  · rfl

theorem Store.modify_modify {α : Type} (s : Store α) (k : Nat) (f g : α → α) :
    (s.modify k f).modify k g = s.modify k fun v => g (f v) := by
  ext1 a
  rw [getElem?_modify, getElem?_modify, getElem?_modify]
  split
  · rw [Option.map_map]
    rfl
  · rfl

namespace System

variable {s : System} {t u : TableId} {table : Table} {h : HandleId} {r : Handle} {v : Nat}

/-- The later stamp counts. -/
theorem setProcess_setProcess (s : System) (p q : Nat) (h : HandleId) :
    (s.setProcess p h).setProcess q h = s.setProcess q h := by
  unfold setProcess
  rw [Store.modify_modify]

/-- To stamp a handle with its own stamp is to do nothing. -/
theorem setProcess_self (hr : s.handles[h]? = some r) : s.setProcess r.process h = s := by
  unfold setProcess
  rw [Store.modify_id fun q hq => ?_]
  rw [hr, Option.some_inj] at hq
  rw [hq]

theorem setOwned_setOwned (s : System) (t : TableId) (owned owned' : Store HandleId) :
    (s.setOwned t owned).setOwned t owned' = s.setOwned t owned' := by
  unfold setOwned
  rw [Store.modify_modify]

/-- To put back what a table owns is to do nothing. -/
theorem setOwned_self (ht : s.tables[t]? = some table) : s.setOwned t table.owned = s := by
  unfold setOwned
  rw [Store.modify_id fun q hq => ?_]
  rw [ht, Option.some_inj] at hq
  rw [hq]

/-! ## 2. Taking out and putting in

The two halves of a transfer, each with its inverse.  They write in two places, the table and the
handle, and the writes to these commute. -/

/-- The handle out of the table: nobody has it on record, and it carries no process. -/
def outOf (s : System) (t : TableId) (table : Table) (base : Nat) (h : HandleId) : System :=
  (s.setOwned t (table.owned.erase base)).setProcess noProcess h

/-- The handle in the table: on record under its base value, with the process of the table. -/
def into (s : System) (t : TableId) (table : Table) (base : Nat) (h : HandleId) : System :=
  (s.setProcess table.process h).setOwned t (table.owned.insert base h)

/-- A handle that the table owns, and that bears its stamp, is taken out, -/
theorem tableRemove_of_owned (ht : s.tables[t]? = some table)
    (hb : table.owned[table.masked v]? = some h) (hr : s.handles[h]? = some r)
    (hprocess : r.process = table.process) :
    s.tableRemove t v = (.ok h, s.outOf t table (table.masked v) h) := by
  unfold tableRemove
  rw [ht]
  dsimp only
  rw [hb]
  dsimp only
  rw [hr, if_pos (by rw [Option.map_some, hprocess])]
  rfl

/-- and put in where no handle of equal base value stands. -/
theorem tableAdd_of_free (ht : s.tables[t]? = some table) (hr : s.handles[h]? = some r)
    (hfree : table.owned[r.base]? = none) :
    s.tableAdd t h = (table.masked r.base, s.into t table r.base h) := by
  unfold tableAdd
  rw [ht, hr]
  dsimp only
  rw [hfree]
  rfl

/-- What is not owned is not taken out. -/
theorem tableRemove_of_none (ht : s.tables[t]? = some table)
    (hb : table.owned[table.masked v]? = none) : s.tableRemove t v = (.error .badHandle, s) := by
  unfold tableRemove
  rw [ht]
  dsimp only
  rw [hb]

/-- What a table finds is what its arena has under the value behind the mask, if that carries the
process of the table. -/
theorem tableGet_of_find (ht : s.tables[t]? = some table)
    (hf : s.findHandle table.arena (table.masked v) = some h) (hr : s.handles[h]? = some r) :
    s.tableGet t v = if r.process = table.process then .ok h else .error .badHandle := by
  unfold tableGet
  rw [ht]
  dsimp only
  rw [hf]
  dsimp only
  rw [hr]

@[simp] theorem masked_masked_eq (table : Table) (v : Nat) : table.masked (table.masked v) = v :=
  masked_masked table.process v

/-- Taking out writes to one handle, -/
theorem handles_outOf (s : System) (t : TableId) (table : Table) (base : Nat) (h x : HandleId) :
    (s.outOf t table base h).handles[x]? =
      if h = x then s.handles[x]?.map fun r => { r with process := noProcess }
      else s.handles[x]? :=
  handles_setProcess _ _ _ _

/-- and putting in writes to one. -/
theorem handles_into (s : System) (t : TableId) (table : Table) (base : Nat) (h x : HandleId) :
    (s.into t table base h).handles[x]? =
      if h = x then s.handles[x]?.map fun r => { r with process := table.process }
      else s.handles[x]? :=
  handles_setProcess _ _ _ _

/-- Taking out writes to one table, -/
theorem tables_outOf (s : System) (t : TableId) (table : Table) (base : Nat) (h : HandleId)
    (i : TableId) : (s.outOf t table base h).tables[i]? =
      if t = i then s.tables[i]?.map fun u => { u with owned := table.owned.erase base }
      else s.tables[i]? :=
  tables_setOwned _ _ _ _

/-- and so does putting in. -/
theorem tables_into (s : System) (t : TableId) (table : Table) (base : Nat) (h : HandleId)
    (i : TableId) : (s.into t table base h).tables[i]? =
      if t = i then s.tables[i]?.map fun u => { u with owned := table.owned.insert base h }
      else s.tables[i]? :=
  tables_setOwned _ _ _ _

/-- **What was taken out can be put back**, and nothing has happened then. -/
theorem tableAdd_outOf (ht : s.tables[t]? = some table)
    (hb : table.owned[table.masked v]? = some h) (hr : s.handles[h]? = some r)
    (hbase : r.base = table.masked v) (hprocess : r.process = table.process) :
    (s.outOf t table (table.masked v) h).tableAdd t h = (v, s) := by
  set base := table.masked v with hv
  have hout : (s.outOf t table base h).tables[t]? =
      some { table with owned := table.owned.erase base } := by
    rw [tables_outOf, if_pos rfl, ht]
    rfl
  have htransit : (s.outOf t table base h).handles[h]? = some { r with process := noProcess } := by
    rw [handles_outOf, if_pos rfl, hr]
    rfl
  rw [tableAdd_of_free hout htransit (by rw [hbase, Store.getElem?_erase, if_pos rfl])]
  refine Prod.ext ?_ ?_
  · show table.masked r.base = v
    rw [hbase, hv, masked_masked_eq]
  · calc (s.outOf t table base h).into t { table with owned := table.owned.erase base } r.base h
        = (((s.setOwned t (table.owned.erase base)).setProcess noProcess h).setProcess
            table.process h).setOwned t ((table.owned.erase base).insert r.base h) := rfl
      _ = ((s.setProcess table.process h).setOwned t (table.owned.erase base)).setOwned t
            table.owned := by
          rw [setProcess_setProcess, hbase, Store.insert_erase hb]
          rfl
      _ = s := by
          rw [setOwned_setOwned, ← hprocess, setProcess_self hr, setOwned_self ht]

/-- **What was put in can be taken out again**, and nothing has happened then. -/
theorem tableRemove_into (ht : s.tables[t]? = some table) (hr : s.handles[h]? = some r)
    (hprocess : r.process = noProcess) (hfree : table.owned[r.base]? = none) :
    (s.into t table r.base h).tableRemove t (table.masked r.base) = (.ok h, s) := by
  have hin : (s.into t table r.base h).tables[t]? =
      some { table with owned := table.owned.insert r.base h } := by
    rw [tables_into, if_pos rfl, ht]
    rfl
  have hstamped : (s.into t table r.base h).handles[h]? =
      some { r with process := table.process } := by
    rw [handles_into, if_pos rfl, hr]
    rfl
  have hback : ({ table with owned := table.owned.insert r.base h } : Table).masked
      (table.masked r.base) = r.base := masked_masked_eq table r.base
  rw [tableRemove_of_owned hin (by rw [hback, Store.getElem?_insert, if_pos rfl]) hstamped rfl,
    hback]
  refine Prod.ext rfl ?_
  calc
    (s.into t table r.base h).outOf t { table with owned := table.owned.insert r.base h } r.base h
      = (((s.setProcess table.process h).setOwned t (table.owned.insert r.base h)).setOwned t
          ((table.owned.insert r.base h).erase r.base)).setProcess noProcess h := rfl
    _ = ((s.setProcess table.process h).setProcess noProcess h).setOwned t table.owned := by
        rw [setOwned_setOwned, Store.erase_insert_of_none hfree]
        rfl
    _ = s := by
        rw [setProcess_setProcess, ← hprocess, setProcess_self hr, setOwned_self ht]

/-! ## 3. From one table to another, and back

The value is the same number behind two masks, so what the second table shows is computed from
what the first one showed. -/

/-- What happens to a handle that moves from one table to another and back: the state while it is in
transit and the state when it has moved. -/
structure Transfers (s : System) (a b : TableId) (v : Nat) (h : HandleId) (ta tb : Table)
    (r : Handle)
    (transit moved : System) : Prop where
  taken : s.tableRemove a v = (.ok h, transit)
  put : transit.tableAdd b h = (tb.masked r.base, moved)
  /-- The other table finds the same handle; only its process is another one. -/
  get : moved.tableGet b (tb.masked r.base) = .ok h
  handle : moved.handles[h]? = some { r with process := tb.process }
  get_stale : moved.tableGet a v = .error .badHandle
  remove_stale : moved.tableRemove a v = (.error .badHandle, moved)
  /-- One entry goes, under the base value of the handle. -/
  gone : ta.owned[r.base]? = some h
  left : moved.tables[a]? = some { ta with owned := ta.owned.erase r.base }
  /-- One entry comes, under the same value, where there was none. -/
  new : tb.owned[r.base]? = none
  entered : moved.tables[b]? = some { tb with owned := tb.owned.insert r.base h }
  tables : ∀ t : Nat, t ≠ a → t ≠ b → moved.tables[t]? = s.tables[t]?
  handles : ∀ x : Nat, x ≠ h → moved.handles[x]? = s.handles[x]?
  /-- Neither on the way nor at its end has anything else changed: no count of handles or of
  references, no slot of an arena, and no object was told anything. -/
  transit_rest : transit = { s with handles := transit.handles, tables := transit.tables }
  moved_rest : moved = { s with handles := moved.handles, tables := moved.tables }
  /-- Going back passes through the same state and ends in the first one, under the first value. -/
  taken_back : moved.tableRemove b (tb.masked r.base) = (.ok h, transit)
  put_back : transit.tableAdd a h = (v, s)

/-- **A transfer, out of one table and into another**, with what is seen of it in both, in transit
and after it.  Each field is a computation with the two states `outOf` and `into`. -/
theorem transfers_of_free {a b : TableId} {ta tb : Table} (hab : a ≠ b)
    (ha : s.tables[a]? = some ta)
    (hb : s.tables[b]? = some tb) (harena : ta.arena = tb.arena) (hne : ta.process ≠ tb.process)
    (hfind : s.findHandle ta.arena r.base = some h) (hr : s.handles[h]? = some r)
    (hbase : r.base = ta.masked v) (hprocess : r.process = ta.process)
    (hown : ta.owned[r.base]? = some h) (hfree : tb.owned[r.base]? = none) :
    ∃ transit moved, Transfers s a b v h ta tb r transit moved := by
  set transit := s.outOf a ta r.base h with htransit
  set moved := transit.into b tb r.base h with hmoved
  have hb' : transit.tables[b]? = some tb := by
    rw [htransit, tables_outOf, if_neg hab, hb]
  have hr' : transit.handles[h]? = some { r with process := noProcess } := by
    rw [htransit, handles_outOf, if_pos rfl, hr]
    rfl
  have hstamped : moved.handles[h]? = some { r with process := tb.process } := by
    rw [hmoved, handles_into, if_pos rfl, hr']
    rfl
  have hleft : moved.tables[a]? = some { ta with owned := ta.owned.erase r.base } := by
    rw [hmoved, tables_into, if_neg (Ne.symm hab), htransit, tables_outOf, if_pos rfl, ha]
    rfl
  have hentered : moved.tables[b]? = some { tb with owned := tb.owned.insert r.base h } := by
    rw [hmoved, tables_into, if_pos rfl, hb']
    rfl
  refine ⟨transit, moved, ?_⟩
  constructor
  case taken =>
    rw [htransit, hbase]
    exact tableRemove_of_owned ha (hbase ▸ hown) hr hprocess
  case put => exact tableAdd_of_free (r := { r with process := noProcess }) hb' hr' hfree
  -- Another table, another mask: the value that it shows leads back to the same base value, and
  -- the arena finds the handle there as before.
  case get =>
    refine (tableGet_of_find hentered ?_ hstamped).trans (if_pos rfl)
    show s.findHandle tb.arena (tb.masked (tb.masked r.base)) = some h
    rw [masked_masked_eq, ← harena, hfind]
  case handle => exact hstamped
  case get_stale =>
    refine (tableGet_of_find hleft ?_ hstamped).trans (if_neg (Ne.symm hne))
    show s.findHandle ta.arena (ta.masked v) = some h
    rw [← hbase, hfind]
  case remove_stale =>
    refine tableRemove_of_none hleft ?_
    show (ta.owned.erase r.base)[ta.masked v]? = none
    rw [← hbase, Store.getElem?_erase, if_pos rfl]
  case gone => exact hown
  case left => exact hleft
  case new => exact hfree
  case entered => exact hentered
  case tables =>
    intro t hta htb
    rw [hmoved, tables_into, if_neg (Ne.symm htb), htransit, tables_outOf, if_neg (Ne.symm hta)]
  case handles =>
    intro x hx
    rw [hmoved, handles_into, if_neg (Ne.symm hx), htransit, handles_outOf, if_neg (Ne.symm hx)]
  case transit_rest => rfl
  case moved_rest => rfl
  case taken_back =>
    exact tableRemove_into (r := { r with process := noProcess }) hb' hr' rfl hfree
  case put_back =>
    rw [htransit, hbase]
    exact tableAdd_outOf ha (hbase ▸ hown) hr hbase hprocess

end System

/-! ## 4. In every run

What a transfer asks for holds wherever tables have their own process each; the two provisos are
read off the state. -/

namespace World

variable {P : System → Op → Prop} {w : World} {a b : TableId} {ta tb : Table} {v : Nat}
  {h : HandleId}

/-- Whether the handles that a table has on record are all of its own arena. -/
def Homely (w : World) (table : Table) : Prop :=
  ∀ {n : Nat} {x : HandleId} {r : Handle}, table.owned[n]? = some x →
    w.system.handles[x]? = some r → r.arena = table.arena

/-- What a table has on record under the base value of a live handle of its arena is that handle. -/
theorem Passed.eq_of_owned (hp : w.Passed True True) (hhome : w.Homely tb)
    (hb : w.system.tables[b]? = some tb) {r : Handle} (hl : w.Live h r)
    (harena : r.arena = tb.arena)
    {x : HandleId} (hx : tb.owned[r.base]? = some x) : x = h := by
  have hpos : 0 < w.system.owners w.dues x := Nat.lt_of_lt_of_le
    (System.owned_pos_iff.2 ⟨b, tb, r.base, hb, hx⟩) (Nat.le_add_right _ _)
  obtain ⟨q, hq⟩ := hp.accounted.handle_of_owners hpos
  have hbase : q.base = r.base := hp.keyed hb hx hq
  exact hp.slotted.slot_inj hq hl.1 hpos hl.2 ((hhome hx hq).trans harena.symm)
    (congrArg index hbase)

/-- A live handle that carries the process of a table is on record there, if no other table of the
arena serves that process. -/
theorem Ran.owned_of_process (hran : w.Ran Op.Tame) (ha : w.system.tables[a]? = some ta)
    (hprocess : ta.process ≠ noProcess)
    (halone : ∀ (t : TableId) (u : Table), w.system.tables[t]? = some u → u.arena = ta.arena →
      u.process = ta.process → t = a)
    {r : Handle} (hl : w.Live h r) (harena : r.arena = ta.arena) (hr : r.process = ta.process) :
    ∃ n : Nat, ta.owned[n]? = some h := by
  have hst := hran.stamped
  rcases Nat.eq_zero_or_pos (w.system.owned h) with h0 | hpos
  · -- whoever has to close it would have it without a process
    have hnone := hst.apart (hl.due_of_not_owned h0) hl.1
    exact absurd (hr.symm.trans hnone) hprocess
  · obtain ⟨t, u, n, hu, hn⟩ := System.owned_pos_iff.1 hpos
    obtain ⟨-, hwhere, hsame⟩ := hst.table hu hn hl.1
    have he := halone t u hu (hwhere.symm.trans harena) (hsame.symm.trans hr)
    subst he
    rw [ha] at hu
    cases hu
    exact ⟨n, hn⟩

/-- **Moving a handle from one table to another, and back.**  What a table finds can be moved to any
other table of the arena that serves another process, if the one has it on record and the other has
on record only handles of its arena.  Both hold after operations that leave it to tables to write
processes and that give tables handles of their arenas only, if no other table of the arena serves
the process of the first, and that is the process of somebody. -/
theorem Ran.transfers (hran : w.Ran P) (ha : w.system.tables[a]? = some ta)
    (hb : w.system.tables[b]? = some tb) (harena : ta.arena = tb.arena)
    (hne : ta.process ≠ tb.process) (hg : w.system.tableGet a v = .ok h) :
    ((∃ n : Nat, ta.owned[n]? = some h) → w.Homely tb →
      ∃ r transit moved, w.system.Transfers a b v h ta tb r transit moved) ∧
    (w.Ran Op.Tame → ta.process ≠ noProcess →
      (∀ (t : TableId) (u : Table), w.system.tables[t]? = some u → u.arena = ta.arena →
        u.process = ta.process → t = a) →
      (∃ n : Nat, ta.owned[n]? = some h) ∧ w.Homely tb) := by
  have hp := hran.passed
  obtain ⟨ta', r, ha', hl, hwhere, hbase, hprocess⟩ := hp.of_tableGet hg
  rw [ha] at ha'
  cases ha'
  constructor
  · rintro ⟨n, hn⟩ hhome
    have hab : a ≠ b := by
      rintro rfl
      rw [ha] at hb
      cases hb
      exact hne rfl
    have hown : ta.owned[r.base]? = some h := by
      rw [hp.keyed ha hn hl.1]
      exact hn
    have hfree : tb.owned[r.base]? = none := by
      refine Option.eq_none_iff_forall_ne_some.2 fun x hx => hab ?_
      have hsame := hp.eq_of_owned hhome hb hl (hwhere.trans harena) hx
      subst hsame
      exact (System.owner_unique (hp.slotted.owned_le_one hp.accounted _) ha hown hb hx).1
    obtain ⟨arena, harena', -⟩ := hp.slotted.slot hl.1 hl.2
    have hfind : w.system.findHandle ta.arena r.base = some h :=
      (hp.findHandle_eq_some_iff (hwhere ▸ harena') _ h).2 ⟨r, hl, hwhere, rfl⟩
    exact ⟨r, w.system.transfers_of_free hab ha hb harena hne hfind hl.1 hbase hprocess hown hfree⟩
  · intro htame hsome halone
    exact ⟨htame.owned_of_process ha hsome halone hl hwhere hprocess,
      fun hx hq => (htame.stamped.table hb hx hq).2.1⟩

/-- The process and the arena of a table. -/
def serves (w : World) (t : TableId) : Option (Nat × ArenaId) :=
  w.system.tables[t]?.map fun u => (u.process, u.arena)

theorem Ran.transfers_of_two :
    ∃ ta tb r transit moved, (run twoTables).system.Transfers 2 3 (HandleValue.masked 7 262144) 4
      ta tb r transit moved := by
  have hfirst : (run twoTables).serves 2 = some (7, 1) := by cbv
  have hsecond : (run twoTables).serves 3 = some (9, 1) := by cbv
  have hg : (run twoTables).system.tableGet 2 (HandleValue.masked 7 262144) = .ok 4 := by cbv
  obtain ⟨ta, ha, hta⟩ := Option.map_eq_some_iff.1 hfirst
  obtain ⟨tb, hb, htb⟩ := Option.map_eq_some_iff.1 hsecond
  obtain ⟨hta, harena⟩ := Prod.mk.inj hta
  obtain ⟨htb, harena'⟩ := Prod.mk.inj htb
  obtain ⟨hmove, hready⟩ := ran_twoTables.transfers ha hb (harena.trans harena'.symm)
    (by rw [hta, htb]; decide) hg
  obtain ⟨hown, hhome⟩ := hready ran_twoTables (by rw [hta]; decide) fun t u hu hwhere hsame =>
    separate_twoTables.apart hu ha (hwhere.trans harena) harena hsame
  exact ⟨ta, tb, hmove hown hhome⟩

/-- A table of process 7 and one of process 9, and a second table of process 7 with the handle. -/
def sharedProcess : List Op :=
  [.newArena 4, .createWitness "w" .empty, .openTable 7 1, .openTable 9 1, .openTable 7 1,
    .makeHandle 1 1024 .basic true, .tableAdd 4 5]

/-- A table of process 7, one of process 9, and a handle in transit that somebody gave to process
7. -/
def stampedByHand : List Op :=
  [.newArena 4, .createWitness "w" .empty, .openTable 7 1, .openTable 9 1,
    .makeHandle 1 1024 .basic true, .setProcess 7 4]

/-- A table of each process on the first arena, the other one with a handle of a second arena that
has the same base value. -/
def foreignHandle : List Op :=
  [.newArena 4, .newArena 4, .createWitness "w" .empty, .openTable 7 1, .openTable 9 1,
    .makeHandle 1 1024 .basic true, .tableAdd 3 5, .makeHandle 2 1024 .basic true, .tableAdd 4 6]

/-- What a table finds it may not have on record, be it that another table of the same process has
it or that nobody has; and a table that has a handle of another arena on record closes it for one
that comes under the same base value. -/
theorem Ran.transfer_fails :
    (let w := run sharedProcess; w.Ran (fun _ _ => True) ∧
        w.serves 2 = some (7, 1) ∧ w.serves 3 = some (9, 1) ∧
        w.system.tableGet 2 (HandleValue.masked 7 262144) = .ok 5 ∧
        (w.system.tableRemove 2 (HandleValue.masked 7 262144)).1 = .error .badHandle) ∧
    (let w := run stampedByHand; w.Ran (fun _ _ => True) ∧
        w.serves 2 = some (7, 1) ∧ w.serves 3 = some (9, 1) ∧
        w.system.tableGet 2 (HandleValue.masked 7 262144) = .ok 4 ∧
        (w.system.tableRemove 2 (HandleValue.masked 7 262144)).1 = .error .badHandle) ∧
    (let w := run foreignHandle; w.Ran (fun _ _ => True) ∧
        w.serves 3 = some (7, 1) ∧ w.serves 4 = some (9, 1) ∧
        w.system.tableGet 3 (HandleValue.masked 7 262144) = .ok 5 ∧
        (w.system.tableRemove 3 (HandleValue.masked 7 262144)).1 = .ok 5 ∧
        w.system.handleCount 1024 = 2 ∧
        ((w.system.tableRemove 3 (HandleValue.masked 7 262144)).2.tableAdd 4 5).2.handleCount 1024 =
          1) :=
  ⟨⟨Ran.foldl .start (keep_any _ _), by cbv⟩, ⟨Ran.foldl .start (keep_any _ _), by cbv⟩,
    ⟨Ran.foldl .start (keep_any _ _), by cbv⟩⟩

end World

end KernelObjects
