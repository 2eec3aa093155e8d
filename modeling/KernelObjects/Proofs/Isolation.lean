import KernelObjects.Proofs.Stamps

/-
# Tables own their handles, and only theirs

A table finds the handle of a value by way of the arena, which knows every handle, and then asks
the handle for its process; it gives a handle up by way of its own records, and asks for the
process again.  Both ways agree because every handle carries the process of its owner (`Stamped`).

So a value that was guessed, that leaked out of another process or that is stale names a handle of
the table or nothing (`tables_isolated`).

Two conditions are the client's.  In the past, processes were written by tables only and each
table got handles of its own arena; at present, each table of the arena serves a process of its
own.  The second cannot be left out: two tables of one process find each other's handles, and give
up only their own.

A value is shown behind a mask that depends on the process.  That has no part in the argument.
The mask is undone when a value comes in, and every step before and after works with base values;
it only makes that one handle looks different to two processes.
-/

namespace KernelObjects

open HandleValue

/-! ## 1. What tables promise

Stated for one value of one table, in the terms of a client, who has only values and answers. -/

namespace World

variable {w : World} {a : ArenaId}

/-- Every table of an arena serves a process of its own. -/
structure Separate (w : World) (a : ArenaId) : Prop where
  process : ∀ {t : TableId} {table : Table}, w.system.tables[t]? = some table → table.arena = a →
    table.process ≠ noProcess
  apart : ∀ {t u : TableId} {table table' : Table}, w.system.tables[t]? = some table →
    w.system.tables[u]? = some table' → table.arena = a → table'.arena = a →
      table.process = table'.process → t = u

/-- What holds of one table of an arena. -/
structure TableSound (w : World) (t : TableId) (table : Table) : Prop where
  /-- The handles that carry the process of the table are those that it owns. -/
  owns : ∀ {h : HandleId} {r : Handle}, w.Live h r → r.arena = table.arena →
    (r.process = table.process ↔ ∃ b : Nat, table.owned[b]? = some h)
  /-- What the table owns is live, and owned under its own value. -/
  live : ∀ {b : Nat} {h : HandleId}, table.owned[b]? = some h →
    ∃ r, w.Live h r ∧ r.arena = table.arena ∧ r.base = b
  /-- A value is found exactly if it is the masked value of a handle in the table. -/
  get : ∀ v h, w.system.tableGet t v = .ok h ↔
    ∃ b : Nat, table.owned[b]? = some h ∧ v = table.masked b
  /-- The same values can be taken out. -/
  remove : ∀ v h, (w.system.tableRemove t v).1 = .ok h ↔
    ∃ b : Nat, table.owned[b]? = some h ∧ v = table.masked b
  masked_pos : ∀ {b : Nat} {h : HandleId}, table.owned[b]? = some h → 0 < table.masked b
  masked_inj : ∀ {b c : Nat} {h h' : HandleId}, table.owned[b]? = some h →
    table.owned[c]? = some h' → h ≠ h' → table.masked b ≠ table.masked c
  /-- Taking out, with any value, touches no other table and no handle that is not in this one. -/
  remove_others : ∀ v, (∀ u : Nat, u ≠ t →
      (w.system.tableRemove t v).2.tables[u]? = w.system.tables[u]?) ∧
    ∀ h : Nat, (∀ b : Nat, table.owned[b]? ≠ some h) →
      (w.system.tableRemove t v).2.handles[h]? = w.system.handles[h]?
  /-- A duplicate is one of a handle in the table, and the table takes it in beside all else. -/
  duplicate : ∀ v rights seen s', w.system.tableDuplicate t v rights = (.ok seen, s') →
    ∃ (b c : Nat) (h : HandleId) (r : Handle) (granted : Rights), table.owned[b]? = some h ∧
      v = table.masked b ∧ w.system.handles[h]? = some r ∧
      table.owned[c]? = none ∧ seen = table.masked c ∧
      s'.handles = w.system.handles.insert w.system.nextId
        { base := c, object := r.object, rights := granted, arena := r.arena
          process := table.process } ∧
      s'.tables = w.system.tables.modify t fun u =>
        { u with owned := table.owned.insert c w.system.nextId }
  /-- A duplicate that is refused leaves all handles and tables as they are. -/
  refused : ∀ v rights e s', w.system.tableDuplicate t v rights = (.error e, s') →
    s'.handles = w.system.handles ∧ s'.tables = w.system.tables

/-- What holds of the tables of an arena: each owns its handles, and a handle that carries no
process is in none of them. -/
structure Isolated (w : World) (a : ArenaId) : Prop where
  sound : ∀ {t : TableId} {table : Table}, w.system.tables[t]? = some table → table.arena = a →
    w.TableSound t table
  free : ∀ {h : HandleId} {r : Handle}, w.Live h r → r.arena = a →
    (r.process = noProcess ↔ ∀ (t : TableId) (table : Table) (b : Nat),
      w.system.tables[t]? = some table → table.owned[b]? ≠ some h)

end World

/-! ## 2. What tables do

A call on a table is refused for one of few reasons, or it does what it is there for.  The reasons
are listed in the order in which they are looked for, so that each of them excludes the ones
before it. -/

namespace System

variable {s : System} {t : TableId} {v : Nat}

/-- Why a table does not make the duplicate that it is asked for. -/
inductive DuplicateRefused (s : System) (t : TableId) (v : Nat) (asked : Rights) : Refusal → Prop
  /-- The value names no handle of the table. -/
  | value (h : ∀ x, s.tableGet t v ≠ .ok x) : DuplicateRefused s t v asked .badHandle
  /-- The handle may not be duplicated. -/
  | source {x : HandleId} {r : Handle} (hg : s.tableGet t v = .ok x) (hr : s.handles[x]? = some r)
      (h : ¬ Rights.duplicate ⊆ r.rights) : DuplicateRefused s t v asked .accessDenied
  /-- More rights are asked for than the handle has. -/
  | rights {x : HandleId} {r : Handle} (hg : s.tableGet t v = .ok x) (hr : s.handles[x]? = some r)
      (hd : Rights.duplicate ⊆ r.rights) (hs : ¬ Rights.sameRights ⊆ asked)
      (h : ¬ asked ⊆ r.rights) : DuplicateRefused s t v asked .invalidArgs
  /-- Every slot of the arena is taken. -/
  | full {x : HandleId} {r : Handle} {arena : Arena} (hg : s.tableGet t v = .ok x)
      (hr : s.handles[x]? = some r) (hd : Rights.duplicate ⊆ r.rights)
      (hs : Rights.sameRights ⊆ asked ∨ asked ⊆ r.rights)
      (ha : s.arenas[r.arena]? = some arena) (h : arena.isFull) :
      DuplicateRefused s t v asked .noMemory

/-- What holds of a duplicate that a table made: of its source, of the room that there was for it,
and of the handles and tables after that. -/
structure DuplicateMade (s : System) (t : TableId) (v : Nat) (asked : Rights) (table : Table)
    (h : HandleId) (r : Handle) (arena : Arena) (s' : System) : Prop where
  there : s.tables[t]? = some table
  source : s.tableGet t v = .ok h
  handle : s.handles[h]? = some r
  may : Rights.duplicate ⊆ r.rights
  shrinks : Rights.sameRights ⊆ asked ∨ asked ⊆ r.rights
  free : table.owned[(arena.insert s.nextId).1]? = none
  eq : s.tableDuplicate t v asked = (.ok (table.masked (arena.insert s.nextId).1), s')
  handles : s'.handles = s.handles.insert s.nextId
    { base := (arena.insert s.nextId).1, object := r.object
      rights := if Rights.sameRights ⊆ asked then r.rights else asked
      arena := r.arena, process := table.process }
  tables : s'.tables = s.tables.modify t fun u =>
    { u with owned := table.owned.insert (arena.insert s.nextId).1 s.nextId }

/-- A table that finds nothing has one answer. -/
theorem tableGet_error {e : Refusal} (hg : s.tableGet t v = .error e) : e = .badHandle := by
  unfold tableGet at hg
  repeat' split at hg
  all_goals cases hg
  all_goals rfl

/-- Rights may be asked for again with the right to duplicate, if they are all held. -/
theorem duplicateRights_of_subset {held asked : Rights} (hd : Rights.duplicate ⊆ held)
    (hs : Rights.sameRights ⊆ asked ∨ asked ⊆ held) :
    duplicateRights held asked = .ok (if Rights.sameRights ⊆ asked then held else asked) := by
  unfold duplicateRights Rights.require Rights.attenuate
  rw [if_pos hd]
  dsimp only
  split
  · rfl
  · rename_i hsame
    rw [if_pos (hs.resolve_left hsame)]

/-- Without the right to duplicate, nothing is given, -/
theorem duplicateRights_of_not_duplicate {held asked : Rights} (hd : ¬ Rights.duplicate ⊆ held) :
    duplicateRights held asked = .error .accessDenied := by
  unfold duplicateRights Rights.require
  rw [if_neg hd]

/-- and rights that are not held are not given. -/
theorem duplicateRights_of_not_subset {held asked : Rights} (hd : Rights.duplicate ⊆ held)
    (hs : ¬ Rights.sameRights ⊆ asked) (h : ¬ asked ⊆ held) :
    duplicateRights held asked = .error .invalidArgs := by
  unfold duplicateRights Rights.require Rights.attenuate
  rw [if_pos hd]
  dsimp only
  rw [if_neg hs, if_neg h]

/-- An arena that may grow refuses only when it is full. -/
theorem makeHandle_growing {a : ArenaId} {arena : Arena} (ha : s.arenas[a]? = some arena) (k : Koid)
    (rights : Rights) : s.makeHandle a k rights true =
      if arena.isFull then (.error .noMemory, s.bump .arenaExhausted)
      else (.ok s.nextId, s.withHandle a arena k rights) := by
  unfold makeHandle
  rw [ha]
  dsimp only
  split
  · rfl
  · rw [Bool.not_true, Bool.and_false, if_neg (by decide)]
    rfl

/-- A refusal may be counted, and nothing else changes. -/
theorem DuplicateRefused.eq {asked : Rights} {e : Refusal}
    (h : s.DuplicateRefused t v asked e) :
    ∃ counters, s.tableDuplicate t v asked = (.error e, { s with counters }) := by
  unfold tableDuplicate
  -- The reasons stand in the order in which the program tests them, and each of them has all
  -- tests before it passed.
  cases h with
  | value h =>
    refine ⟨s.counters, ?_⟩
    cases hg : s.tableGet t v with
    | error e => rw [tableGet_error hg]
    | ok x => exact absurd hg (h x)
  | source hg hr hd =>
    refine ⟨s.counters, ?_⟩
    rw [hg]
    dsimp only
    rw [hr]
    dsimp only
    rw [duplicateRights_of_not_duplicate hd]
  | rights hg hr hd hs h =>
    refine ⟨s.counters, ?_⟩
    rw [hg]
    dsimp only
    rw [hr]
    dsimp only
    rw [duplicateRights_of_not_subset hd hs h]
  | full hg hr hd hs ha h =>
    refine ⟨s.counters.bump .arenaExhausted, ?_⟩
    rw [hg]
    dsimp only
    rw [hr]
    dsimp only
    rw [duplicateRights_of_subset hd hs]
    dsimp only
    rw [makeHandle_growing ha, if_pos h]
    rfl

/-- What becomes of a duplicate for which there is a slot, if its value is free in the table. -/
theorem tableDuplicate_of_room {s : System} {t : TableId} {table : Table} {v : Nat} {h : HandleId}
    {r : Handle} {rights granted : Rights} {arena : Arena} (ht : s.tables[t]? = some table)
    (hg : s.tableGet t v = .ok h) (hr : s.handles[h]? = some r)
    (hsome : 0 < s.refCount (.handle h)) (hrights : duplicateRights r.rights rights = .ok granted)
    (hm : s.makeHandle r.arena r.object granted true =
      (.ok s.nextId, s.withHandle r.arena arena r.object granted))
    (hfree : table.owned[(arena.insert s.nextId).1]? = none) :
    ∃ s', s.tableDuplicate t v rights = (.ok (table.masked (arena.insert s.nextId).1), s') ∧
      s'.handles = s.handles.insert s.nextId
        { base := (arena.insert s.nextId).1, object := r.object, rights := granted
          arena := r.arena, process := table.process } ∧
      s'.tables = s.tables.modify t fun u =>
        { u with owned := table.owned.insert (arena.insert s.nextId).1 s.nextId } := by
  generalize hu : (s.withHandle r.arena arena r.object granted).retain (.handle h) = u
  have hnew : u.handles[s.nextId]? = some
      { base := (arena.insert s.nextId).1, object := r.object, rights := granted
        arena := r.arena } := hu ▸ Std.ExtTreeMap.getElem?_insert_self
  have hadd : u.tableAdd t s.nextId = (table.masked (arena.insert s.nextId).1,
      (u.setProcess table.process s.nextId).setOwned t
        (table.owned.insert (arena.insert s.nextId).1 s.nextId)) := by
    have hkept : u.tables[t]? = some table := hu ▸ ht
    unfold tableAdd
    rw [hkept, hnew]
    dsimp only
    rw [hfree]
  -- the source is still referred to when the hold on it is given back
  have hmany : 1 < ((u.setProcess table.process s.nextId).setOwned t
      (table.owned.insert (arena.insert s.nextId).1 s.nextId)).refCount (.handle h) := by
    have hcount : u.refs.count (.handle h) =
        (s.withHandle r.arena arena r.object granted).refs.count (.handle h) + 1 := by
      rw [← hu]
      exact (RefCounts.count_retain _ _ _).trans (if_pos rfl)
    have hle : s.refs.count (.handle h) ≤
        (s.withHandle r.arena arena r.object granted).refs.count (.handle h) :=
      Nat.le_trans (RefCounts.count_le_retain _ _ _)
        (Nat.le_trans (RefCounts.count_le_retain _ _ _) (RefCounts.count_le_retain _ _ _))
    show 1 < u.refs.count (.handle h)
    unfold refCount at hsome
    omega
  unfold tableDuplicate
  rw [hg]
  dsimp only
  rw [hr]
  dsimp only
  rw [hrights]
  dsimp only
  rw [hm]
  dsimp only
  rw [hu, hadd]
  dsimp only
  rw [release_of_many hmany]
  refine ⟨_, rfl, ?_, ?_⟩
  · rw [← hu]
    exact Store.modify_insert_self _ _ _ _
  · rw [← hu]
    rfl

end System

namespace Stamped

variable {w : World} {t : TableId} {table : Table}

/-- A table finds what it owns. -/
theorem tableGet (hst : Stamped w.system w.dues) (hp : w.Passed True True)
    (ht : w.system.tables[t]? = some table) {b : Nat} {h : HandleId}
    (hb : table.owned[b]? = some h) : w.system.tableGet t (table.masked b) = .ok h := by
  obtain ⟨r, hl, hbase, harena, hprocess⟩ := hst.live hp ht hb
  obtain ⟨a, ha, -⟩ := hp.slotted.slot hl.1 hl.2
  rw [harena] at ha
  have hfind : w.system.findHandle table.arena (table.masked (table.masked b)) = some h := by
    refine (hp.findHandle_eq_some_iff ha _ h).2 ⟨r, hl, harena, ?_⟩
    rw [hbase]
    exact (masked_masked table.process b).symm
  unfold System.tableGet
  rw [ht]
  dsimp only
  rw [hfind]
  dsimp only
  rw [hl.1]
  exact if_pos hprocess

/-- What a table owns can be taken out, and nothing else can. -/
theorem tableRemove_eq (hst : Stamped w.system w.dues) (hp : w.Passed True True)
    (ht : w.system.tables[t]? = some table) (v : Nat) :
    w.system.tableRemove t v = match table.owned[table.masked v]? with
      | none => (.error .badHandle, w.system)
      | some h => (.ok h, (w.system.setOwned t (table.owned.erase (table.masked v))).setProcess
          noProcess h) := by
  unfold System.tableRemove
  rw [ht]
  dsimp only
  cases hb : table.owned[table.masked v]? with
  | none => rfl
  | some h =>
    obtain ⟨r, hl, -, -, hprocess⟩ := hst.live hp ht hb
    dsimp only
    rw [hl.1, if_pos (by rw [Option.map_some, hprocess])]

/-- **What becomes of a duplicate**: there is a reason to refuse it, or the table takes in a new
handle with the rights of the old one or with those that were asked for. -/
theorem tableDuplicate_outcome (hst : Stamped w.system w.dues) (hp : w.Passed True True)
    (t : TableId) (v : Nat) (asked : Rights) :
    (∃ e, w.system.DuplicateRefused t v asked e) ∨
    ∃ (table : Table) (h : HandleId) (r : Handle) (arena : Arena) (s' : System),
      w.system.DuplicateMade t v asked table h r arena s' := by
  cases hg : w.system.tableGet t v with
  | error e => exact .inl ⟨_, .value fun x hx => by rw [hg] at hx; cases hx⟩
  | ok h =>
    obtain ⟨table, r, ht, hl, harena, -, -⟩ := hp.of_tableGet hg
    obtain ⟨arena, ha, -⟩ := hp.slotted.slot hl.1 hl.2
    -- The tests in the order of the program; where one fails the reason carries those that were
    -- passed before it.
    by_cases hd : Rights.duplicate ⊆ r.rights
    · by_cases hs : Rights.sameRights ⊆ asked ∨ asked ⊆ r.rights
      · by_cases hfull : arena.isFull = true
        · exact .inl ⟨_, .full hg hl.1 hd hs ha hfull⟩
        · have hm := System.makeHandle_growing ha r.object
            (if Rights.sameRights ⊆ asked then r.rights else asked)
          rw [if_neg hfull] at hm
          have hroom : arena.isFull = false := Bool.eq_false_iff.2 hfull
          -- The new value is not in the table yet, since a table has the values of its own
          -- handles only.
          have hfree := hst.insert_free hp ht (harena ▸ ha) hroom w.system.nextId
          have hsome : 0 < w.system.refCount (.handle h) :=
            (hp.accounted.present _).1 (Store.contains_iff.2 ⟨r, hl.1⟩)
          obtain ⟨s', hdone, hhandles, htables⟩ := System.tableDuplicate_of_room ht hg hl.1 hsome
            (System.duplicateRights_of_subset hd hs) hm hfree
          exact .inr ⟨table, h, r, arena, s', ht, hg, hl.1, hd, hs, hfree, hdone, hhandles,
            htables⟩
      · obtain ⟨hsame, hsub⟩ := not_or.1 hs
        exact .inl ⟨_, .rights hg hl.1 hd hsame hsub⟩
    · exact .inl ⟨_, .source hg hl.1 hd⟩

end Stamped

/-! ## 3. Every table keeps its promise

From the stamps: a handle carries the process of the table that it is in, and of no other. -/

/-- The value that a process sees of a handle of an arena is not zero: the mask changes only the
bits of the index, and no generation is zero. -/
theorem Table.masked_pos (table : Table) {b : Nat} (h : indexCount ≤ b) : 0 < table.masked b := by
  unfold Table.masked HandleValue.masked
  refine Nat.pos_of_ne_zero fun h0 => ?_
  have hmask := mask_lt table.process
  rw [← Nat.xor_eq_zero_iff.1 h0] at hmask
  omega

/-- Masking is undone by masking again, so it takes no two values to one. -/
theorem Table.masked_inj (table : Table) {b c : Nat} (h : table.masked b = table.masked c) :
    b = c := by
  rw [← masked_masked table.process b, ← masked_masked table.process c]
  exact congrArg (HandleValue.masked table.process) h

/-- What a table has on record under the value that it sees behind `v` is what it has under a value
that is seen as `v`. -/
theorem Table.owned_masked_iff (table : Table) {v : Nat} {h : HandleId} :
    table.owned[table.masked v]? = some h ↔
      ∃ b : Nat, table.owned[b]? = some h ∧ v = table.masked b := by
  constructor
  · exact fun hb => ⟨_, hb, (masked_masked table.process v).symm⟩
  · rintro ⟨b, hb, rfl⟩
    have hback : table.masked (table.masked b) = b := masked_masked table.process b
    rw [hback, hb]

namespace World

variable {w : World} {a : ArenaId} {t : TableId} {table : Table}

/-- A handle in no table is one that somebody has to close. -/
theorem Live.due_of_not_owned {h : HandleId} {r : Handle} (hl : w.Live h r)
    (h0 : w.system.owned h = 0) : .close h ∈ w.dues := by
  have hown := hl.2
  unfold System.owners at hown
  exact List.count_pos_iff.1 (by omega)

/-- The base value of a live handle has a generation. -/
theorem Live.indexCount_le {h : HandleId} {r : Handle} (hl : w.Live h r)
    (hp : w.Passed True True) : indexCount ≤ r.base := by
  obtain ⟨arena, ha, hplace⟩ := hp.slotted.slot hl.1 hl.2
  have hgen := ((hp.slotted.wf ha).generation hplace).1
  rw [← encode_generation_index r.base]
  exact Nat.le_trans (Nat.le_mul_of_pos_left _ hgen) (Nat.le_add_right _ _)

/-- A table owns exactly the handles that carry its process, if no other table serves it. -/
theorem Separate.owns (hsep : w.Separate a) (hst : Stamped w.system w.dues)
    (ht : w.system.tables[t]? = some table) (harena : table.arena = a) {h : HandleId} {r : Handle}
    (hl : w.Live h r) (hr : r.arena = a) :
    r.process = table.process ↔ ∃ b : Nat, table.owned[b]? = some h := by
  constructor
  · intro hprocess
    rcases Nat.eq_zero_or_pos (w.system.owned h) with h0 | hpos
    · -- whoever has to close it would have it without a process
      have hnone := hst.apart (hl.due_of_not_owned h0) hl.1
      exact absurd (hprocess.symm.trans hnone) (hsep.process ht harena)
    · obtain ⟨u, table', b, hu, hb⟩ := System.owned_pos_iff.1 hpos
      obtain ⟨-, hwhere, hsame⟩ := hst.table hu hb hl.1
      have he := hsep.apart ht hu harena (hwhere.symm.trans hr) (hprocess.symm.trans hsame)
      subst he
      rw [ht] at hu
      cases hu
      exact ⟨b, hb⟩
  · rintro ⟨b, hb⟩
    exact (hst.table ht hb hl.1).2.2

/-- What a table finds is its own. -/
theorem Separate.of_tableGet (hsep : w.Separate a) (hst : Stamped w.system w.dues)
    (hp : w.Passed True True) (ht : w.system.tables[t]? = some table) (harena : table.arena = a)
    {v : Nat} {h : HandleId} (hg : w.system.tableGet t v = .ok h) :
    ∃ b : Nat, table.owned[b]? = some h ∧ v = table.masked b := by
  obtain ⟨table', r, ht', hl, hwhere, hbase, hprocess⟩ := hp.of_tableGet hg
  rw [ht] at ht'
  cases ht'
  obtain ⟨b, hb⟩ := (hsep.owns hst ht harena hl (hwhere.trans harena)).1 hprocess
  have hsame := (hst.table ht hb hl.1).1
  exact table.owned_masked_iff.1 (by rw [← hbase, hsame, hb])

/-- What is in a table is found and taken out, and nothing else. -/
theorem tableSound (hst : Stamped w.system w.dues) (hp : w.Passed True True)
    (hsep : w.Separate a) (ht : w.system.tables[t]? = some table) (harena : table.arena = a) :
    w.TableSound t table := by
  constructor
  case owns => exact fun hl hr => hsep.owns hst ht harena hl (hr.trans harena)
  case live =>
    intro b h hb
    obtain ⟨r, hl, hbase, hwhere, -⟩ := hst.live hp ht hb
    exact ⟨r, hl, hwhere, hbase⟩
  case get =>
    refine fun v h => ⟨hsep.of_tableGet hst hp ht harena, ?_⟩
    rintro ⟨b, hb, rfl⟩
    exact hst.tableGet hp ht hb
  case remove =>
    intro v h
    rw [hst.tableRemove_eq hp ht, ← table.owned_masked_iff]
    cases table.owned[table.masked v]? <;> simp
  case masked_pos =>
    intro b h hb
    obtain ⟨r, hl, rfl, -, -⟩ := hst.live hp ht hb
    exact table.masked_pos (hl.indexCount_le hp)
  case masked_inj =>
    intro b c h h' hb hc hne he
    rw [table.masked_inj he, hc] at hb
    exact hne (Option.some.inj hb).symm
  case remove_others =>
    intro v
    rw [hst.tableRemove_eq hp ht]
    cases hb : table.owned[table.masked v]? with
    | none => exact ⟨fun _ _ => rfl, fun _ _ => rfl⟩
    | some x =>
      refine ⟨fun u hu => ?_, fun h hh => ?_⟩
      · exact (System.tables_setOwned _ _ _ _).trans (if_neg (Ne.symm hu))
      · refine (System.handles_setProcess _ _ _ _).trans (if_neg ?_)
        -- the handle that is taken out is on record, and the other one is not
        rintro rfl
        exact hh _ hb
  case duplicate =>
    intro v rights seen s' hdone
    obtain ⟨e, he⟩ | ⟨table', h, r, arena, u, hmade⟩ := hst.tableDuplicate_outcome hp t v rights
    · obtain ⟨counters, he⟩ := he.eq
      rw [hdone] at he
      cases he
    · have he := hmade.eq
      rw [hdone] at he
      cases he
      have ht' := hmade.there
      rw [ht] at ht'
      cases ht'
      obtain ⟨b, hb, hv⟩ := hsep.of_tableGet hst hp ht harena hmade.source
      exact ⟨b, _, h, r, _, hb, hv, hmade.handle, hmade.free, rfl, hmade.handles, hmade.tables⟩
  case refused =>
    intro v rights e s' hdone
    obtain ⟨e', he⟩ | ⟨table', h, r, arena, u, hmade⟩ := hst.tableDuplicate_outcome hp t v rights
    · obtain ⟨counters, he⟩ := he.eq
      rw [hdone] at he
      cases he
      exact ⟨rfl, rfl⟩
    · have he := hmade.eq
      rw [hdone] at he
      cases he

/-- **Tables own exactly their handles and are isolated from each other**, whatever operations led
here, if tables alone wrote processes into handles, every table got handles of its arena only, and
now each table of the arena serves a process of its own. -/
theorem Ran.tables_isolated (h : Ran Op.Tame w) (hsep : w.Separate a) : w.Isolated a := by
  have hp := h.passed
  have hst := h.stamped
  refine ⟨fun ht harena => tableSound hst hp hsep ht harena, fun {x r} hl hr => ?_⟩
  constructor
  · intro h0 t table b ht hb
    obtain ⟨-, hwhere, hprocess⟩ := hst.table ht hb hl.1
    exact hsep.process ht (hwhere.symm.trans hr) (hprocess.symm.trans h0)
  · intro hnone
    have h0 : w.system.owned x = 0 := by
      refine Nat.eq_zero_of_not_pos fun hpos => ?_
      obtain ⟨t, table, b, ht, hb⟩ := System.owned_pos_iff.1 hpos
      exact hnone t table b ht hb
    exact hst.apart (hl.due_of_not_owned h0) hl.1

/-- One arena and two tables: each owns a handle, and a third handle is in transit. -/
def twoTables : List Op :=
  [.newArena 4, .createWitness "w" .empty, .openTable 7 1, .openTable 9 1,
    .makeHandle 1 1024 .basic true, .tableAdd 2 4, .makeHandle 1 1024 .basic true, .tableAdd 3 5,
    .makeHandle 1 1024 .basic true]

theorem ran_twoTables : Ran Op.Tame (run twoTables) :=
  Ran.start.foldl ⟨trivial, trivial, trivial, trivial, trivial, Op.tame_tableAdd (by cbv), trivial,
    Op.tame_tableAdd (by cbv), trivial, trivial⟩

theorem separate_twoTables : (run twoTables).Separate 1 := by
  have hall : (run twoTables).system.tables.toList.map (fun p => (p.1, p.2.process)) =
    [(2, 7), (3, 9)] := by cbv
  have hone : ∀ {t : TableId} {table : Table}, (run twoTables).system.tables[t]? = some table →
      t = 2 ∧ table.process = 7 ∨ t = 3 ∧ table.process = 9 := by
    intro t table ht
    have hmem := List.mem_map_of_mem (f := fun p : Nat × Table => (p.1, p.2.process))
      (Std.ExtTreeMap.mem_toList_iff_getElem?_eq_some.2 ht)
    rw [hall] at hmem
    simpa using hmem
  constructor
  case process =>
    intro t table ht _
    rcases hone ht with ⟨-, h⟩ | ⟨-, h⟩ <;> simp [h, noProcess]
  case apart =>
    intro t u table table' ht hu _ _ he
    rcases hone ht with ⟨rfl, h⟩ | ⟨rfl, h⟩ <;> rcases hone hu with ⟨rfl, h'⟩ | ⟨rfl, h'⟩
      <;> simp_all

theorem Ran.tables_isolated_of_two : (run twoTables).Isolated 1 :=
  ran_twoTables.tables_isolated separate_twoTables

end World

end KernelObjects
