import KernelObjects.Proofs.Slots

/-
# Handles carry the process of their owner

A handle has room for the process of the table that it is in.  A table writes it there when the
handle moves in, and takes it away when the handle moves out.  Between operations it is right
(`Stamped`): a handle in a table stands there under its own value and carries the table's process,
and a handle that somebody else has to close carries none.

This holds if nobody but the tables writes processes into handles, and no handle is moved into a
table of another arena.

The property is one of stages and not of moves.  A handle moves into a table before the process is
written, and out of it after the process was taken away; a table that is cleared has taken all
processes away before the first handle is closed.  That last order is needed: closing a handle may
destroy a process with a table of its own, and what is cleared on the way must not find handles
that are half out of theirs.

What is given back in between only takes handles and tables away (`System.Sheds`), and of what is
left it changes no stamp.
-/

namespace KernelObjects

open HandleValue

/-- Whether an operation leaves it to the tables to write processes into handles, and moves into a
table only what comes from the table's arena. -/
def Op.Tame (s : System) : Op → Prop
  | setProcess _ _ => False
  | tableAdd t h => ∀ table r, s.tables[t]? = some table → s.handles[h]? = some r →
    r.arena = table.arena
  | _ => True

/-- A handle of the table's own arena may be put into it. -/
theorem Op.tame_tableAdd {s : System} {t : TableId} {h : HandleId}
    (he : s.handles[h]?.map Handle.arena = s.tables[t]?.map Table.arena) :
    Op.Tame s (.tableAdd t h) := by
  intro table r ht hr
  rw [ht, hr] at he
  injection he

/-! ## 1. Who owns a handle

A handle is owned once, by a table or by somebody who still has to close it.  Both come from the
account, and together they say that a handle in a table is in no other and due to nobody. -/

namespace System

variable {s : System} {d : List Task} {h : HandleId}

/-- A table owns each handle that it lists. -/
theorem owns_pos {table : Table} {b : Nat} (hb : table.owned[b]? = some h) : 0 < table.owns h :=
  Store.weight_pos hb (by simp)

/-- Tables own what some of them has on record. -/
theorem owned_pos_iff : 0 < s.owned h ↔
    ∃ (t : TableId) (table : Table) (b : Nat), s.tables[t]? = some table ∧
      table.owned[b]? = some h := by
  constructor
  · intro hpos
    by_contra hnone
    refine Nat.lt_irrefl 0 (hpos.trans_eq (Store.weight_eq_zero fun t table ht => ?_))
    refine Store.weight_eq_zero fun b x hx => if_neg ?_
    rintro rfl
    exact hnone ⟨t, table, b, ht, hx⟩
  · rintro ⟨t, table, b, ht, hb⟩
    exact Store.weight_pos ht (owns_pos hb)

/-- A handle with one owner stands in one table under one value. -/
theorem owner_unique (hone : s.owned h ≤ 1) {t u : TableId} {table table' : Table} {b c : Nat}
    (ht : s.tables[t]? = some table) (hb : table.owned[b]? = some h)
    (hu : s.tables[u]? = some table') (hc : table'.owned[c]? = some h) : t = u ∧ b = c := by
  have htable : t = u := by
    by_contra hne
    have htwo := Store.add_le_weight (f := fun _ x => x.owns h) ht hu hne
    have hfirst := owns_pos hb
    have hsecond := owns_pos hc
    unfold owned at hone
    omega
  subst htable
  rw [ht] at hu
  cases hu
  refine ⟨rfl, ?_⟩
  by_contra hne
  have htwo := Store.add_le_weight (f := fun _ x => if x = h then 1 else 0) hb hc hne
  have hsome := Store.share_le_weight s.tables (fun _ x => x.owns h) t
  rw [Store.share_of_some ht] at hsome
  simp only [if_true] at htwo
  unfold owned at hone
  unfold Table.owns at hone hsome
  omega

end System

/-- A handle that somebody has to close is in no table. -/
theorem Slotted.not_owned_of_due {s : System} {d : List Task} (hs : Slotted s d) {h : HandleId}
    {r : Handle} (hr : s.handles[h]? = some r) (hd : .close h ∈ d) : s.owned h = 0 := by
  have hcount : 0 < d.count (.close h) := List.count_pos_iff.2 hd
  have hone := hs.owners_eq_one hr (Nat.lt_of_lt_of_le hcount (Nat.le_add_left _ _))
  unfold System.owners at hone
  omega

/-! ## 2. Every handle carries the process of its owner

What is given back between two stages takes handles and tables away.  What is left of them is as
it was, so the property has to be looked at only where something is written. -/

/-- **Handles carry the process of their owner**, and tables have them under their own value. -/
structure Stamped (s : System) (d : List Task) : Prop where
  table : ∀ {t : TableId} {table : Table} {b : Nat} {h : HandleId} {r : Handle},
    s.tables[t]? = some table → table.owned[b]? = some h → s.handles[h]? = some r →
      r.base = b ∧ r.arena = table.arena ∧ r.process = table.process
  apart : ∀ {h : HandleId} {r : Handle}, .close h ∈ d → s.handles[h]? = some r →
    r.process = noProcess

/-- No handle and no table is there that was not there before. -/
structure System.Sheds (s t : System) : Prop where
  handles : ∀ {h : HandleId} {r : Handle}, t.handles[h]? = some r → s.handles[h]? = some r
  tables : ∀ {i : TableId} {table : Table}, t.tables[i]? = some table → s.tables[i]? = some table

namespace System.Sheds

variable {s t u : System}

theorem refl (s : System) : Sheds s s := ⟨id, id⟩

/-- What is shed stays shed. -/
theorem trans (h : Sheds s t) (h' : Sheds t u) : Sheds s u :=
  ⟨fun hr => h.handles (h'.handles hr), fun ht => h.tables (h'.tables ht)⟩

/-- Handles and tables that stay shed nothing. -/
theorem of_eq (hh : t.handles = s.handles) (ht : t.tables = s.tables) : Sheds s t where
  handles hr := hh ▸ hr
  tables hi := ht ▸ hi

theorem of_hands (h : t.hands = s.hands) : Sheds s t :=
  of_eq (congrArg Hands.handles h) (congrArg Hands.tables h)

/-- A handle that goes is shed, -/
theorem erase_handle (s : System) (h : HandleId) :
    Sheds s { s with handles := s.handles.erase h } where
  handles hr := by
    rw [Store.getElem?_erase] at hr
    split at hr
    · cases hr
    · exact hr
  tables ht := ht

/-- and so is a table. -/
theorem erase_table (s : System) (i : TableId) :
    Sheds s { s with tables := s.tables.erase i } where
  handles hr := hr
  tables ht := by
    rw [Store.getElem?_erase] at ht
    split at ht
    · cases ht
    · exact ht

theorem zeroHandles (s : System) (k : Koid) : Sheds s (s.zeroHandles k) :=
  of_eq (congrArg Hands.handles (s.hands_zeroHandles k))
    (congrArg Hands.tables (s.hands_zeroHandles k))

/-- Whatever is destroyed takes at most handles and tables away. -/
theorem destroy (s : System) (r : Ref) : Sheds s (s.destroy r).1 := by
  cases r with
  | object k =>
    exact of_eq (congrArg Hands.handles (s.hands_destroyObject k))
      (congrArg Hands.tables (s.hands_destroyObject k))
  | handle h =>
    unfold System.destroy
    dsimp only
    split
    · exact refl s
    · exact erase_handle s h
  | vmo v => exact of_hands (hands_destroyVmo s v)
  | mapping m => exact of_eq rfl rfl
  | listener o => exact of_eq rfl rfl

/-- A close empties a slot; the handle itself goes with its references. -/
theorem closeHandle (s : System) (h : HandleId) : Sheds s (s.closeHandle h).1 := by
  unfold System.closeHandle
  split
  · exact refl s
  · dsimp only
    split
    · refine .trans ?_ (zeroHandles _ _)
      exact of_eq rfl rfl
    · exact of_eq rfl rfl

/-- One task sheds, -/
theorem perform (s : System) (t : Task) : Sheds s (s.perform t).1 := by
  cases t with
  | release r =>
    unfold System.perform
    dsimp only
    split
    · exact refl s
    · exact (of_eq rfl rfl : Sheds s { s with refs := s.refs.release r }).trans (destroy _ r)
    · exact of_eq rfl rfl
  | close h => exact closeHandle s h
  | closeTable i =>
    unfold System.perform
    dsimp only
    split
    · exact refl s
    · exact erase_table s i

/-- and so does all that follows from it. -/
theorem settle (s : System) (ts : List Task) : Sheds s (s.settle ts) := by
  fun_induction System.settle s ts with
  | case1 s => exact refl s
  | case2 s t rest ih => exact (perform s t).trans ih

end System.Sheds

namespace Stamped

variable {s t : System} {d e : List Task}

theorem initial : Stamped .initial [] where
  table ht := by simp [System.initial] at ht
  apart hd := by cases hd

/-- The handles that are left carry the stamps that they had, and what is due to be closed was due
before. -/
theorem sheds (h : Stamped s d) (hs : s.Sheds t) (hd : ∀ x, .close x ∈ e → .close x ∈ d) :
    Stamped t e where
  table ht hb hr := h.table (hs.tables ht) hb (hs.handles hr)
  apart hx hr := h.apart (hd _ hx) (hs.handles hr)

/-- Things that are given back take handles and tables with them, and nobody else shows it. -/
theorem settle (h : Stamped s d) (ts : List Task) : Stamped (s.settle ts) d :=
  h.sheds (.settle s ts) fun _ hx => hx

/-- Stamps are a matter of handles and of tables. -/
theorem still (h : Stamped s d) (hh : t.hands = s.hands) : Stamped t d :=
  h.sheds (.of_hands hh) fun _ hx => hx

end Stamped

/-! ## 3. What a stage keeps

Making, taking in, giving out and clearing; everything else leaves handles and tables alone. -/

namespace System

theorem tables_setOwned (s : System) (t : TableId) (owned : Store HandleId) (i : Nat) :
    (s.setOwned t owned).tables[i]? =
      if t = i then s.tables[i]?.map fun u => { u with owned } else s.tables[i]? :=
  Store.getElem?_modify _ _ _ _

theorem handles_setProcess (s : System) (process : Nat) (h : HandleId) (x : Nat) :
    (s.setProcess process h).handles[x]? =
      if h = x then s.handles[x]?.map fun r => { r with process } else s.handles[x]? :=
  Store.getElem?_modify _ _ _ _

end System

/-- No handle is in two tables. -/
theorem Slotted.owned_le_one {s : System} {d : List Task} (hs : Slotted s d) (hacc : Accounted s d)
    (h : HandleId) : s.owned h ≤ 1 := by
  rcases Nat.eq_zero_or_pos (s.owners d h) with h0 | hpos
  · unfold System.owners at h0
    omega
  · obtain ⟨r, hr⟩ := hacc.handle_of_owners hpos
    have hone := hs.owners_eq_one hr hpos
    unfold System.owners at hone
    omega

/-- A handle that is still to be made is in no table. -/
theorem Accounted.not_owned_nextId {s : System} {d : List Task} (hacc : Accounted s d) :
    s.owned s.nextId = 0 := by
  by_contra hne
  obtain ⟨r, hr⟩ := hacc.handle_of_owners (a := s.nextId)
    (Nat.lt_of_lt_of_le (Nat.pos_of_ne_zero hne) (Nat.le_add_right _ _))
  rw [hacc.handles_fresh] at hr
  cases hr

namespace Stamped

variable {s : System} {d e : List Task} {t : TableId} {table : Table} {h : HandleId}

/-- A new handle is in no table and carries no process. -/
theorem made (hst : Stamped s d) (hacc : Accounted s d) (a : ArenaId) (arena : Arena) (k : Koid)
    (rights : Rights) : Stamped (s.withHandle a arena k rights) (.close s.nextId :: d) := by
  have hhandles : ∀ x : Nat, (s.withHandle a arena k rights).handles[x]? = if s.nextId = x
      then some { base := (arena.insert s.nextId).1, object := k, rights, arena := a }
      else s.handles[x]? :=
    fun x => Store.getElem?_insert _ _ _ _
  constructor
  case table =>
    intro i u b x r hu hb hr
    -- What stands in a table is there, and the new id was free.
    have hne : s.nextId ≠ x := by
      rintro rfl
      have hpos : 0 < s.owned s.nextId := System.owned_pos_iff.2 ⟨i, u, b, hu, hb⟩
      rw [hacc.not_owned_nextId] at hpos
      exact Nat.lt_irrefl 0 hpos
    rw [hhandles, if_neg hne] at hr
    exact hst.table hu hb hr
  case apart =>
    intro x r hx hr
    rw [hhandles] at hr
    split at hr
    · cases hr
      rfl
    · rename_i hne
      refine hst.apart ((List.mem_cons.1 hx).resolve_left fun he => hne ?_) hr
      injection he with he
      exact he.symm

/-- A handle that is in no table moves into one, under a value that is free there. -/
theorem adopted {r : Handle} (hst : Stamped s d) (ht : s.tables[t]? = some table)
    (hr : s.handles[h]? = some r) (hnone : s.owned h = 0) (harena : r.arena = table.arena)
    (he : ∀ x, .close x ∈ e → .close x ∈ d ∧ x ≠ h) :
    Stamped ((s.setProcess table.process h).setOwned t (table.owned.insert r.base h)) e := by
  have hother : ∀ {i : TableId} {u : Table} {b : Nat}, s.tables[i]? = some u →
      u.owned[b]? = some h → False := by
    intro i u b hu hb
    have hpos := System.owned_pos_iff.2 ⟨i, u, b, hu, hb⟩
    omega
  -- what was in a table before is another handle and keeps its process
  have hold : ∀ {i : TableId} {u : Table} {b : Nat} {x : HandleId} {q : Handle},
      s.tables[i]? = some u → u.owned[b]? = some x →
      (s.setProcess table.process h).handles[x]? = some q →
      q.base = b ∧ q.arena = u.arena ∧ q.process = u.process := by
    intro i u b x q hu hb hq
    rw [System.handles_setProcess, if_neg] at hq
    · exact hst.table hu hb hq
    · rintro rfl
      exact hother hu hb
  constructor
  case table =>
    intro i u b x q hu hb hq
    rw [System.tables_setOwned] at hu
    split at hu
    · rename_i hi
      subst hi
      obtain ⟨u', hu', rfl⟩ := Option.map_eq_some_iff.1 hu
      have hsame : s.tables[t]? = some u' := hu'
      rw [ht] at hsame
      cases hsame
      have hb := (Store.getElem?_insert table.owned r.base b h).symm.trans hb
      split at hb
      · rename_i hbase
        cases hb
        have hq : (s.setProcess table.process h).handles[h]? = some q := hq
        rw [System.handles_setProcess, if_pos rfl, hr] at hq
        cases hq
        exact ⟨hbase, harena, rfl⟩
      · have hkept := hold ht hb hq
        exact hkept
    · exact hold hu hb hq
  case apart =>
    intro x q hx hq
    obtain ⟨hd, hne⟩ := he x hx
    have hq : (s.setProcess table.process h).handles[x]? = some q := hq
    rw [System.handles_setProcess, if_neg (Ne.symm hne)] at hq
    exact hst.apart hd hq

/-- A handle moves out of the one table that it is in. -/
theorem expelled {base : Nat} (hst : Stamped s d) (hone : s.owned h ≤ 1)
    (ht : s.tables[t]? = some table) (hh : table.owned[base]? = some h) :
    Stamped ((s.setOwned t (table.owned.erase base)).setProcess noProcess h)
      (.close h :: d) := by
  have hhandles : ∀ x : Nat, ((s.setOwned t (table.owned.erase base)).setProcess noProcess
      h).handles[x]? = if h = x then s.handles[x]?.map fun r => { r with process := noProcess }
        else s.handles[x]? :=
    fun x => System.handles_setProcess _ _ _ _
  -- what is in a table now is another handle and was there before
  have hold : ∀ {i : TableId} {u : Table} {b : Nat} {x : HandleId} {q : Handle},
      s.tables[i]? = some u → u.owned[b]? = some x → (t = i → base ≠ b) →
      ((s.setOwned t (table.owned.erase base)).setProcess noProcess h).handles[x]? = some q →
      q.base = b ∧ q.arena = u.arena ∧ q.process = u.process := by
    intro i u b x q hu hb hne hq
    rw [hhandles, if_neg] at hq
    · exact hst.table hu hb hq
    · rintro rfl
      obtain ⟨hi, hbase⟩ := System.owner_unique hone ht hh hu hb
      exact hne hi hbase
  constructor
  case table =>
    intro i u b x q hu hb hq
    have hu : (s.setOwned t (table.owned.erase base)).tables[i]? = some u := hu
    rw [System.tables_setOwned] at hu
    split at hu
    · rename_i hi
      subst hi
      obtain ⟨u', hu', rfl⟩ := Option.map_eq_some_iff.1 hu
      rw [ht] at hu'
      cases hu'
      have hb := (Store.getElem?_erase table.owned base b).symm.trans hb
      split at hb
      · cases hb
      · rename_i hne
        have hkept := hold ht hb (fun _ => hne) hq
        exact hkept
    · rename_i hi
      exact hold hu hb (fun he => absurd he hi) hq
  case apart =>
    intro x q hx hq
    rw [hhandles] at hq
    split at hq
    · obtain ⟨q', -, rfl⟩ := Option.map_eq_some_iff.1 hq
      rfl
    · rename_i hne
      refine hst.apart ((List.mem_cons.1 hx).resolve_left fun he => hne ?_) hq
      injection he with he
      exact he.symm

/-- All handles move out of a table. -/
theorem emptied (hst : Stamped s d) (hone : ∀ x, s.owned x ≤ 1) (ht : s.tables[t]? = some table) :
    Stamped (s.emptied t table) d := by
  obtain ⟨handles, he, hhandles⟩ := s.emptied_eq t table
  rw [he]
  constructor
  case table =>
    intro i u b x q hu hb hq
    have hu : (s.setOwned t ∅).tables[i]? = some u := hu
    rw [System.tables_setOwned] at hu
    split at hu
    · obtain ⟨u', -, rfl⟩ := Option.map_eq_some_iff.1 hu
      simp at hb
    · rename_i hi
      have hq := (hhandles x).symm.trans hq
      -- A handle in another table keeps its process, because no handle stands in two tables.
      rw [if_neg] at hq
      · exact hst.table hu hb hq
      · intro hx
        obtain ⟨c, hc⟩ : ∃ c : Nat, table.owned[c]? = some x := by
          rw [Store.values_eq_map, List.mem_map] at hx
          obtain ⟨p, hp, rfl⟩ := hx
          exact ⟨p.1, Std.ExtTreeMap.mem_toList_iff_getElem?_eq_some.1 hp⟩
        exact hi (System.owner_unique (hone x) ht hc hu hb).1
  case apart =>
    intro x q hx hq
    have hq := (hhandles x).symm.trans hq
    split at hq
    · obtain ⟨q', -, rfl⟩ := Option.map_eq_some_iff.1 hq
      rfl
    · exact hst.apart hx hq

/-- A table that is cleared takes its stamp off each handle before it closes the first. -/
theorem cleared (hst : Stamped s d) (hone : ∀ x, s.owned x ≤ 1) (t : TableId) :
    Stamped (s.tableClear t).2 d := by
  cases ht : s.tables[t]? with
  | none =>
    rw [System.tableClear_of_none ht]
    exact hst
  | some table =>
    rw [System.tableClear_of_some ht]
    exact (hst.emptied hone ht).settle _

end Stamped

/-- **What a table finds** is a live handle of its arena that carries its process. -/
theorem World.Passed.of_tableGet {w : World} (hp : w.Passed True True) {t : TableId} {v : Nat}
    {x : HandleId} (hg : w.system.tableGet t v = .ok x) :
    ∃ table r, w.system.tables[t]? = some table ∧ w.Live x r ∧ r.arena = table.arena ∧
      r.base = table.masked v ∧ r.process = table.process := by
  unfold System.tableGet at hg
  cases ht : w.system.tables[t]? with
  | none => rw [ht] at hg; cases hg
  | some table =>
    rw [ht] at hg
    dsimp only at hg
    cases hf : w.system.findHandle table.arena (table.masked v) with
    | none => rw [hf] at hg; cases hg
    | some y =>
      obtain ⟨a, ha, -⟩ := Option.bind_eq_some_iff.1 hf
      obtain ⟨r, hy, harena, hbase⟩ := (hp.findHandle_eq_some_iff ha _ y).1 hf
      rw [hf] at hg
      dsimp only at hg
      rw [hy.1] at hg
      dsimp only at hg
      split at hg
      · rename_i hprocess
        cases hg
        exact ⟨table, r, rfl, hy, harena, hbase, hprocess⟩
      · cases hg

namespace Stamped

variable {w : World} {t : TableId} {table : Table}

/-- What a table owns is live, and carries the base value and the process that it should. -/
theorem live (hst : Stamped w.system w.dues) (hp : w.Passed True True)
    (ht : w.system.tables[t]? = some table) {b : Nat} {h : HandleId}
    (hb : table.owned[b]? = some h) :
    ∃ r, w.Live h r ∧ r.base = b ∧ r.arena = table.arena ∧ r.process = table.process := by
  have hpos : 0 < w.system.owners w.dues h := Nat.lt_of_lt_of_le
    (System.owned_pos_iff.2 ⟨t, table, b, ht, hb⟩) (Nat.le_add_right _ _)
  obtain ⟨r, hr⟩ := hp.accounted.handle_of_owners hpos
  exact ⟨r, ⟨hr, hpos⟩, hst.table ht hb hr⟩

/-- A value that an arena gives to a new handle is free in every table of the arena. -/
theorem insert_free (hst : Stamped w.system w.dues) (hp : w.Passed True True)
    (ht : w.system.tables[t]? = some table) {arena : Arena}
    (ha : w.system.arenas[table.arena]? = some arena) (hfull : arena.isFull = false)
    (x : HandleId) : table.owned[(arena.insert x).1]? = none := by
  refine Option.eq_none_iff_forall_ne_some.2 fun y hy => ?_
  obtain ⟨r, hl, hbase, harena, -⟩ := hst.live hp ht hy
  obtain ⟨n, g, hn, -, -, hvalue, hempty, -⟩ := (hp.slotted.wf ha).insert_slots hfull x
  have hplace := hp.slotted.slot_of_live hl (harena.symm ▸ ha)
  rw [hbase, hvalue, index_encode hn] at hplace
  have hnone : some y = none := congrArg Slot.handle (hempty _ hplace)
  cases hnone

end Stamped

/-- **Every stage leaves every handle with the process of its owner**, if nobody writes processes by
hand and tables get handles of their arenas only. -/
theorem Stage.stamped {L : Liberties} {w w' : World} (h : Stage L w w') (hL : ¬ L.stamps)
    (hA : ∀ table r, L.adopts table r → r.arena = table.arena) (hp : w.Passed True True)
    (hst : Stamped w.system w.dues) : Stamped w'.system w'.dues := by
  have hone : ∀ x, w.system.owned x ≤ 1 := hp.slotted.owned_le_one hp.accounted
  have hrelease : ∀ (rs : List Ref) {d : List Task} (x : HandleId),
      .close x ∈ rs.map Task.release ++ d → .close x ∈ d := fun rs d x hx => by simpa using hx
  cases h with
  | still h => exact hst.still h.hands
  | reorder h => exact hst.sheds (.refl _) fun x hx => h.symm.subset hx
  | @share s d r h => exact hst.sheds (.of_eq rfl rfl) (hrelease [r])
  | @drop s d t =>
    exact (hst.sheds (.refl _) fun x hx => List.mem_cons_of_mem _ hx : Stamped s d).settle [t]
  | beside h hj hq hh => exact hst.sheds (.of_hands hh) (hrelease _)
  | rewire hL f v g => exact hst.still rfl
  | root | child | process =>
    exact hst.sheds (.of_eq rfl rfl) (hrelease [_])
  | @refusedJob s t d signals job p q hs hl hq hp' hj hr hh ht =>
    have hborn : Stamped (s.withJob signals job) d := hst.sheds (.of_eq rfl rfl) fun _ hx => hx
    exact (hborn.still ht.hands).settle _
  | @refusedProcess s t d signals process hj ht =>
    have hborn : Stamped (s.withProcess signals process) d :=
      hst.sheds (.of_eq rfl rfl) fun _ hx => hx
    exact (hborn.still ht.hands).settle _
  | arena ha hlt capacity => exact hst.sheds (.of_eq rfl rfl) fun _ hx => hx
  | @table s d e process arena he =>
    constructor
    case table =>
      intro i u b x r hu hb hr
      have hu := (Store.getElem?_insert _ _ _ _).symm.trans hu
      split at hu
      · cases hu
        simp at hb
      · exact hst.table hu hb hr
    case apart =>
      intro x r hx hr
      refine hst.apart ?_ hr
      rcases he with rfl | rfl
      · exact hx
      · simpa using hx
  | handle ha hfull hk => exact hst.made hp.accounted _ _ _ _
  | @adopt s d t table x r hL ht hx =>
    have hnone : s.owned x = 0 := hp.slotted.not_owned_of_due hx List.mem_cons_self
    have hlive : World.Live ⟨s, .close x :: d⟩ x r :=
      ⟨hx, by rw [System.owners_close, if_pos rfl]; exact Nat.succ_pos _⟩
    -- what the table had under the value would stand in the same slot
    have hfree : table.owned[r.base]? = none := by
      refine Option.eq_none_iff_forall_ne_some.2 fun y hy => ?_
      obtain ⟨q, hy', hbase, harena, -⟩ := hst.live hp ht hy
      have hsame := hp.slotted.slot_inj hy'.1 hx hy'.2 hlive.2 (harena.trans (hA _ _ hL).symm)
        (congrArg index hbase)
      subst hsame
      have hpos := System.owned_pos_iff.2 ⟨t, table, _, ht, hy⟩
      omega
    rw [hfree]
    refine hst.adopted ht hx hnone (hA _ _ hL) fun y hy => ⟨List.mem_cons_of_mem _ hy, ?_⟩
    rintro rfl
    have htwo := hp.slotted.owners_eq_one hx hlive.2
    have hdue : 0 < d.count (.close y) := List.count_pos_iff.2 hy
    rw [System.owners_close, if_pos rfl] at htwo
    unfold System.owners at htwo
    omega
  | @duplicate s d t table value x r arena rights ht hg hx ha hfull hk =>
    obtain ⟨table', r', ht', hlive, harena, -, -⟩ := hp.of_tableGet hg
    rw [show s.tables[t]? = some table from ht] at ht'
    cases ht'
    have hsame : some r' = some r := hlive.1.symm.trans hx
    cases hsame
    have hfree := hst.insert_free hp ht (harena ▸ ha) hfull s.nextId
    rw [hfree]
    refine (hst.made hp.accounted r.arena arena r.object rights).adopted (h := s.nextId)
      (r := { base := (arena.insert s.nextId).1, object := r.object, rights, arena := r.arena })
      ht Std.ExtTreeMap.getElem?_insert_self hp.accounted.not_owned_nextId harena
      fun y hy => ⟨List.mem_cons_of_mem _ hy, ?_⟩
    rintro rfl
    have hpos : 0 < d.count (.close s.nextId) := List.count_pos_iff.2 hy
    obtain ⟨q, hq⟩ := hp.accounted.handle_of_owners (a := s.nextId)
      (Nat.lt_of_lt_of_le hpos (Nat.le_add_left _ _))
    rw [hp.accounted.handles_fresh] at hq
    cases hq
  | @expel s d t table base x ht hx => exact hst.expelled (hone x) ht hx
  | clear t => exact hst.cleared hone t
  | stamp h => exact absurd h hL
  | tell hL => exact hst.sheds (.zeroHandles _ _) fun _ hx => hx
  | condemn code hj hr => exact hst.still (System.commitKill_upkeep _ _ _ _).hands
  | @kill s d code k =>
    obtain he | ⟨p, -, -, he⟩ := s.killProcess_cases code k
    · rw [he]
      exact hst
    · have hsame := System.hands_endProcess s code k
      have htables : (s.endProcess code k).tables = s.tables := congrArg Hands.tables hsame
      rw [he]
      refine ((hst.still hsame).cleared (fun x => ?_) p.table).still
        (System.detachProcess_upkeep _ _ _).hands
      unfold System.owned
      rw [htables]
      exact hone x
  | attach hL k p => exact hst.still (System.hands_attach _ _ _)
  | detach hL k p => exact hst.still (System.detachProcess_upkeep _ _ _).hands

namespace World

variable {w : World}

/-- After operations that leave stamping to the tables, handles carry the process of their owner. -/
theorem Ran.stamped (h : Ran Op.Tame w) : Stamped w.system w.dues := by
  refine h.keeps (I := fun w => Stamped w.system w.dues) Stamped.initial
    (fun s d e hp hst => hst.sheds (.refl _) fun x hx => hp.symm.subset hx)
    fun s op v v' hop hp hstage hst => hstage.stamped ?_ ?_ hp hst
  · intro hL
    cases op with
    | setProcess => exact hop
    | makeFromKernel _ k => cases k <;> exact hL
    | _ => exact hL
  · intro table r hL
    cases op with
    | tableAdd t x => exact hop table r hL.1 hL.2
    | makeFromKernel _ k => cases k <;> exact hL.elim
    | _ => exact hL.elim

end World

end KernelObjects
