import Mathlib.Logic.Function.Iterate
import KernelObjects.Proofs.Trail

/-
# What becomes of a stale value

A slot gives out the value of its present generation and moves the generation on whenever it is
freed.  There are only so many generations, and after the largest one the slot starts again at
one.  So the value of a handle that was closed means nothing for a while, and then it means
whatever handle stands in the slot when the generations have gone round.

The count of the times at which a slot was freed says it all (`stale_value`): the value resolves
exactly if the slot is taken and that count is a multiple of the number of generations, and it
resolves to the old handle only if the count is zero.  Between two such points it names nothing.

A slot may be freed and taken within one operation, so the count is taken along a trail, where
each tick frees a slot at most once.  The identities of handles are not used twice; that is how an
old handle and a new one under the same value are told apart here, though a client who has only
the value cannot.

That the value does come back is shown by a run (`stale_value_names_newer_handle`).  It has as
many operations as there are generations, so the state at its end is found by induction on the
number of uses and not by doing them.
-/

namespace KernelObjects

open HandleValue

/-! ## 1. Going round

The generations from one up to the largest are a cycle, and zero is in it nowhere.  So the number
of steps decides, up to whole rounds. -/

/-- The generation after a slot was freed a number of times. -/
theorem HandleValue.iterate_nextGeneration {g : Nat} (h0 : 0 < g) (h : g < generationCount)
    (n : Nat) : nextGeneration^[n] g = (g - 1 + n) % (generationCount - 1) + 1 := by
  have hcount : generationCount = 16384 := rfl
  induction n with
  | zero =>
    rw [Function.iterate_zero_apply, Nat.add_zero, Nat.mod_eq_of_lt (by omega)]
    omega
  | succ n ih =>
    rw [Function.iterate_succ_apply', ih]
    unfold nextGeneration
    rw [hcount]
    dsimp only
    split <;> omega

/-- **A generation comes back when all others were used**, and not before. -/
theorem HandleValue.iterate_nextGeneration_eq_self_iff {g : Nat} (h0 : 0 < g)
    (h : g < generationCount) (n : Nat) :
    nextGeneration^[n] g = g ↔ generationCount - 1 ∣ n := by
  have hcount : generationCount = 16384 := rfl
  rw [iterate_nextGeneration h0 h]
  rw [hcount] at h ⊢
  omega

/-! ## 2. One slot

A slot is followed along a trail.  In one tick it is freed once at most, which is why the freeings
can be counted at the ticks. -/

/-- A slot of an arena. -/
def System.slot (s : System) (i : ArenaId) (n : Nat) : Option Slot :=
  s.arenas[i]?.bind fun a => a.slots[n]?

namespace World

/-- The handle that stands in a slot. -/
def standing (w : World) (i : ArenaId) (n : Nat) : Option HandleId :=
  (w.system.slot i n).bind Slot.handle

/-- How often a slot was freed on the way. -/
def frees (i : ArenaId) (n : Nat) : World → List (Option Koid × World) → Nat :=
  passages (fun w => (w.standing i n).isSome) fun w => (w.standing i n).isNone

end World

theorem System.slot_eq {s : System} {i : ArenaId} {n : Nat} {x : Slot} :
    s.slot i n = some x ↔ ∃ a, s.arenas[i]? = some a ∧ a.slots[n]? = some x :=
  Option.bind_eq_some_iff

theorem System.slot_congr {s t : System} {i : ArenaId} {n : Nat} {x : Slot}
    (h : ∀ a, s.arenas[i]? = some a → t.arenas[i]? = some a) (hs : s.slot i n = some x) :
    t.slot i n = some x := by
  obtain ⟨a, ha, hn⟩ := slot_eq.1 hs
  exact slot_eq.2 ⟨a, h a ha, hn⟩

/-- Closing a handle frees its slot, and no other. -/
theorem World.Live.slot_closing {w : World} {x : HandleId} {r : Handle} (hl : w.Live x r)
    (hp : w.Passed True True) {i : ArenaId} {n g : Nat} {y : Option HandleId}
    (hs : w.system.slot i n = some ⟨g, y⟩) :
    y ≠ some x ∧ (w.system.closing r).slot i n = some ⟨g, y⟩ ∨
      y = some x ∧ (w.system.closing r).slot i n = some ⟨nextGeneration g, none⟩ := by
  obtain ⟨a, ha, hn⟩ := System.slot_eq.1 hs
  obtain ⟨b, hb, hplace⟩ := hp.slotted.slot hl.1 hl.2
  have harenas : (w.system.closing r).arenas[i]? =
      if r.arena = i then w.system.arenas[i]?.map fun a => a.erase r.base
      else w.system.arenas[i]? := Store.getElem?_modify _ _ _ _
  -- A slot that shows this handle is the one that the handle names, and no other slot shows it.
  have hsame : y = some x → r.arena = i ∧ index r.base = n := by
    rintro rfl
    obtain ⟨-, q, hq, harena, hbase⟩ := hp.slotted.owner ha hn
    rw [hl.1] at hq
    cases hq
    exact ⟨harena, by rw [hbase, index_encode ((hp.slotted.wf ha).index_lt hn)]⟩
  by_cases hi : r.arena = i
  · subst hi
    rw [hb] at ha
    cases ha
    have hfreed : (w.system.closing r).arenas[r.arena]? = some (a.erase r.base) := by
      rw [harenas, if_pos rfl, hb]
      rfl
    by_cases hx : index r.base = n
    · subst hx
      rw [hplace] at hn
      cases hn
      refine .inr ⟨rfl, System.slot_eq.2 ⟨_, hfreed, ?_⟩⟩
      rw [Arena.getElem?_erase, if_pos rfl, hplace]
      rfl
    · refine .inl ⟨fun hy => hx (hsame hy).2, System.slot_eq.2 ⟨_, hfreed, ?_⟩⟩
      rw [Arena.getElem?_erase, if_neg hx, hn]
  · exact .inl ⟨fun hy => hi (hsame hy).1,
      System.slot_eq.2 ⟨a, harenas.trans ((if_neg hi).trans ha), hn⟩⟩

@[simp] theorem System.slot_zeroHandles (s : System) (k : Koid) (i : ArenaId) (n : Nat) :
    (s.zeroHandles k).slot i n = s.slot i n := by
  have harenas : (s.zeroHandles k).arenas = s.arenas :=
    congrArg Hands.arenas (s.hands_zeroHandles k)
  unfold System.slot
  rw [harenas]

/-- **What a tick does to a slot**: it leaves it as it is, takes it if it is empty, or frees it. -/
theorem Tick.slot {K : World → Koid → Prop} {l : Option Koid} {w w' : World} (h : Tick K l w w')
    (hp : w.Passed True True) {i : ArenaId} {n g : Nat} {y : Option HandleId}
    (hs : w.system.slot i n = some ⟨g, y⟩) :
    w'.system.slot i n = some ⟨g, y⟩ ∨
      y = none ∧ w'.system.slot i n = some ⟨g, some w.system.nextId⟩ ∨
      y ≠ none ∧ w'.system.slot i n = some ⟨nextGeneration g, none⟩ := by
  -- The four sorts of ticks: one that leaves the arenas alone, the end of a handle, a new handle,
  -- and a kernel handle that lets go.
  obtain ⟨-, ha, -, -⟩ | ⟨-, x, r, hl, he⟩ | ⟨-, a, arena, k, rights, ha, hfull, -, he⟩ |
    ⟨k, -, -, he⟩ := h.sort hp
  · exact .inl (System.slot_congr (ha i) hs)
  · have hclosing : w'.system.slot i n = (w.system.closing r).slot i n := by
      rw [he]
      split
      · exact System.slot_zeroHandles _ _ _ _
      · rfl
    rw [hclosing]
    rcases hl.slot_closing hp hs with ⟨-, hkept⟩ | ⟨hy, hfreed⟩
    · exact .inl hkept
    · exact .inr (.inr ⟨by simp [hy], hfreed⟩)
  · obtain ⟨b, hb, hn⟩ := System.slot_eq.1 hs
    obtain ⟨m, c, -, -, -, -, hempty, hslots⟩ :=
      (hp.slotted.wf ha).insert_slots hfull w.system.nextId
    have harenas : w'.system.arenas[i]? =
        if a = i then some (arena.insert w.system.nextId).2 else w.system.arenas[i]? := by
      rw [he]
      exact Store.getElem?_insert _ _ _ _
    by_cases hi : a = i
    · subst hi
      rw [if_pos rfl] at harenas
      rw [ha] at hb
      cases hb
      by_cases hm : m = n
      · subst hm
        have hnone := hempty _ hn
        cases hnone
        exact .inr (.inl ⟨rfl, System.slot_eq.2 ⟨_, harenas, (hslots _).trans (if_pos rfl)⟩⟩)
      · exact .inl (System.slot_eq.2 ⟨_, harenas, (hslots _).trans ((if_neg hm).trans hn)⟩)
    · rw [if_neg hi] at harenas
      exact .inl (System.slot_eq.2 ⟨b, harenas.trans hb, hn⟩)
  · rw [he, System.slot_zeroHandles]
    exact .inl hs

/-- No arena ever changes its size. -/
theorem Move.capacity {A C : Prop} {w w' : World} (h : Move A C w w') {i : ArenaId} {n : Nat}
    (hn : w.system.arenas[i]?.map Arena.capacity = some n) :
    w'.system.arenas[i]?.map Arena.capacity = some n := by
  -- A declining move frees slots, and a birth takes one or brings a new arena, which has another
  -- number.  None of them writes the capacity.
  rcases h with h | h
  · cases h with
    | inert h => exact h.arenas ▸ hn
    | vmo =>
      rename_i v o _ _
      obtain ⟨families, he, -⟩ := System.withoutVmo_eq _ v o
      rw [he]
      exact hn
    | @close s d x r hx =>
      refine (congrArg _ (Store.getElem?_modify _ _ _ _)).trans ?_
      split
      · rw [Option.map_map]
        exact hn
      · exact hn
    | _ => exact hn
  · cases h with
    | @arena s d j hj =>
      refine (congrArg _ (Store.getElem?_insert _ _ _ _)).trans ?_
      rw [if_neg]
      · exact hn
      · rintro rfl
        simp only [hj] at hn
        cases hn
    | @handle s d j arena k rights hj hfull hk =>
      refine (congrArg _ (Store.getElem?_insert _ _ _ _)).trans ?_
      split
      · rename_i he
        simp only [← he, hj] at hn
        exact (congrArg some (Arena.insert_capacity _ _)).trans hn
      · exact hn
    | _ => exact hn

theorem Moves.capacity {A C : Prop} {w w' : World} (h : Moves A C w w') {i : ArenaId} {n : Nat}
    (hn : w.system.arenas[i]?.map Arena.capacity = some n) :
    w'.system.arenas[i]?.map Arena.capacity = some n := by
  induction h with
  | refl => exact hn
  | tail _ hmove ih => exact hmove.capacity ih

/-- Identities of handles are handed out in order. -/
theorem Move.nextId_le {A C : Prop} {w w' : World} (h : Move A C w w') :
    w.system.nextId ≤ w'.system.nextId := by
  rcases h with h | h
  · cases h with
    | inert h => exact h.nextId
    | vmo =>
      rename_i v o _ _
      obtain ⟨families, he, -⟩ := System.withoutVmo_eq _ v o
      rw [he]
    | _ => exact Nat.le_refl _
  · cases h with
    | mapping | listener | table | handle => exact Nat.le_succ _
    | _ => exact Nat.le_refl _

theorem Moves.nextId_le {A C : Prop} {w w' : World} (h : Moves A C w w') :
    w.system.nextId ≤ w'.system.nextId := by
  induction h with
  | refl => exact Nat.le_refl _
  | tail _ hmove ih => exact Nat.le_trans ih hmove.nextId_le

/-- **What a trail does to a slot**: its generation has moved on as often as it was freed, and what
stands in it is what stood there at first if it was never freed, and else something newer. -/
theorem Trail.slot {K : World → Koid → Prop} {w w' : World} {ls : List (Option Koid × World)}
    (h : Trail K w ls w') (hp : w.Passed True True) {i : ArenaId} {n g : Nat}
    {y : Option HandleId} (hs : w.system.slot i n = some ⟨g, y⟩) :
    ∃ z, w'.system.slot i n = some ⟨nextGeneration^[World.frees i n w ls] g, z⟩ ∧
      (World.frees i n w ls = 0 → ∀ x, y = some x → z = some x) ∧
      ∀ x < w.system.nextId, z = some x → y = some x ∧ World.frees i n w ls = 0 := by
  induction h generalizing g y with
  | nil => exact ⟨y, hs, fun _ _ hx => hx, fun _ _ hx => ⟨hx, rfl⟩⟩
  | @cons w v w' l ls htick rest ih =>
    have hpv := hp.trans htick.moves
    have hid := htick.moves.nextId_le
    have hstanding : ∀ {u : World} {c : Nat} {z : Option HandleId},
        u.system.slot i n = some ⟨c, z⟩ → u.standing i n = z := by
      intro u c z hu
      unfold World.standing
      rw [hu]
      rfl
    have hcount : World.frees i n w ((l, v) :: ls) =
        World.frees i n v ls +
          if (w.standing i n).isSome && (v.standing i n).isNone then 1 else 0 :=
      passages_cons _ _ _ _ _ _
    -- the tick leaves the slot alone, takes it, or frees it; only the last is counted
    rcases htick.slot hp hs with hv | ⟨rfl, hv⟩ | ⟨hy, hv⟩
    · have hsame : World.frees i n w ((l, v) :: ls) = World.frees i n v ls := by
        rw [hcount, hstanding hs, hstanding hv]
        cases y <;> simp
      obtain ⟨z, hz, hkept, hnewer⟩ := ih hpv hv
      rw [hsame]
      exact ⟨z, hz, hkept, fun x hx => hnewer x (Nat.lt_of_lt_of_le hx hid)⟩
    · have hsame : World.frees i n w ((l, v) :: ls) = World.frees i n v ls := by
        rw [hcount, hstanding hs]
        simp
      obtain ⟨z, hz, -, hnewer⟩ := ih hpv hv
      rw [hsame]
      refine ⟨z, hz, fun _ _ hx => (by cases hx), fun x hx hzx => ?_⟩
      obtain ⟨he, -⟩ := hnewer x (Nat.lt_of_lt_of_le hx hid) hzx
      cases he
      exact absurd hx (Nat.lt_irrefl _)
    · have hmore : World.frees i n w ((l, v) :: ls) = World.frees i n v ls + 1 := by
        rw [hcount, hstanding hs, hstanding hv]
        cases y with
        | none => exact absurd rfl hy
        | some x => rfl
      obtain ⟨z, hz, -, hnewer⟩ := ih hpv hv
      rw [hmore, Function.iterate_succ_apply]
      refine ⟨z, hz, fun h0 => (by cases h0), fun x hx hzx => ?_⟩
      obtain ⟨he, -⟩ := hnewer x (Nat.lt_of_lt_of_le hx hid) hzx
      cases he

/-! ## 3. Stale values

The count of the times at which the slot was freed, along any trail, and what a look-up makes of
it. -/

/-- **What the value of a handle means later on.**  Every run of operations is a trail, and at the
end of every trail the value resolves exactly if a handle stands in its slot and the number of times
at which the slot was freed is a multiple of the number of generations.  It is still the old handle
only if the slot was never freed. -/
theorem World.Passed.stale_value {w : World} (hp : w.Passed True True) {h : HandleId} {r : Handle}
    (hl : w.Live h r) :
    (∀ ops, ∃ ls, Trail (fun _ _ => True) w ls (List.foldl act w ops)) ∧
    ∀ K ls w', Trail K w ls w' →
      (∀ x, w'.system.findHandle r.arena r.base = some x ↔
        w'.standing r.arena (index r.base) = some x ∧
          generationCount - 1 ∣ frees r.arena (index r.base) w ls) ∧
      (w'.system.findHandle r.arena r.base = some h ↔
        frees r.arena (index r.base) w ls = 0) := by
  refine ⟨hp.run_trail, fun K ls w' ht => ?_⟩
  obtain ⟨a, ha, hplace⟩ := hp.slotted.slot hl.1 hl.2
  obtain ⟨hpos, hlt⟩ := (hp.slotted.wf ha).generation hplace
  obtain ⟨z, hz, hkept, hnewer⟩ := ht.slot hp (System.slot_eq.2 ⟨a, ha, hplace⟩)
  have hstanding : w'.standing r.arena (index r.base) = z := by
    unfold standing
    rw [hz]
    rfl
  -- A look-up compares the generation in the value with that of the slot.  The slot has gone on
  -- once for each time at which it was freed, so they agree again after a whole number of rounds.
  have hfind : ∀ x, w'.system.findHandle r.arena r.base = some x ↔ z = some x ∧
      generationCount - 1 ∣ frees r.arena (index r.base) w ls := by
    intro x
    obtain ⟨b, hb, hn⟩ := System.slot_eq.1 hz
    have hwf := (hp.trans ht.moves).slotted.wf hb
    have hsame : w'.system.findHandle r.arena r.base = b.find? r.base := by
      unfold System.findHandle
      rw [hb]
      rfl
    rw [hsame, hwf.find?_eq_some_iff, hn, ← iterate_nextGeneration_eq_self_iff hpos hlt,
      Option.some.injEq, Slot.mk.injEq, and_comm]
  refine ⟨fun x => by rw [hstanding]; exact hfind x, ?_⟩
  rw [hfind]
  have hid : h < w.system.nextId := hp.accounted.bounded.handle (Store.contains_iff.2 ⟨r, hl.1⟩)
  constructor
  · -- A handle that stands in a slot which was freed since is newer than `h`, so `h` itself can
    -- only be found if the slot was never freed.
    exact fun hx => (hnewer h hid hx.1).2
  · intro h0
    exact ⟨hkept h0 h rfl, by rw [h0]; exact Nat.dvd_zero _⟩

/-- The first handle of an arena. -/
theorem World.Passed.stale_value_of_first :
    let w := run [.newArena 1, .createWitness "w" .empty, .makeHandle 1 1024 .basic true]
    let r : Handle := { base := 262144, object := 1024, rights := .basic, arena := 1 }
    w.Live 2 r ∧
    (∀ ops, ∃ ls, Trail (fun _ _ => True) w ls (List.foldl act w ops)) ∧
    ∀ K ls w', Trail K w ls w' →
      (∀ x, w'.system.findHandle r.arena r.base = some x ↔
        w'.standing r.arena (index r.base) = some x ∧
          generationCount - 1 ∣ frees r.arena (index r.base) w ls) ∧
      (w'.system.findHandle r.arena r.base = some 2 ↔
        frees r.arena (index r.base) w ls = 0) := by
  intro w r
  have hp : w.Passed True True := (reachable_run _).passed
  have hslot : w.system.slot 1 0 = some ⟨1, some 2⟩ := by cbv
  have hr : w.system.handles[2]? = some r := by cbv
  obtain ⟨a, ha, hn⟩ := System.slot_eq.1 hslot
  have hl : w.Live 2 r := ⟨hr, by rw [(hp.slotted.owner ha hn).1]; exact Nat.one_pos⟩
  exact ⟨hl, stale_value hp hl⟩

/-! ## 4. A value that comes back

The run is short to describe and long to do.  The arena has a single slot, so every handle that is
made takes it. -/

/-- An empty slot stays empty while things are given back. -/
theorem System.slot_settle {s : System} {ts d : List Task} {i : ArenaId} {n g : Nat}
    (hp : World.Passed True True ⟨s, ts ++ d⟩) (hs : s.slot i n = some ⟨g, none⟩) :
    (s.settle ts).slot i n = some ⟨g, none⟩ := by
  fun_induction settle s ts with
  | case1 s => exact hs
  | case2 s t rest ih =>
    rw [List.append_assoc] at ih
    refine ih (hp.trans (Tick.perform (K := fun _ _ => True) t).moves) ?_
    obtain ⟨ha, -, -⟩ | ⟨x, r, rfl, hl, he⟩ := perform_sort hp
    · unfold slot
      rw [ha]
      exact hs
    · have hkept : (s.closing r).slot i n = some ⟨g, none⟩ :=
        ((hl.slot_closing hp hs).resolve_right fun h =>
          Option.some_ne_none x h.1.symm).2
      rw [he]
      split
      · exact (slot_zeroHandles _ _ _ _).trans hkept
      · exact hkept

namespace World

/-- Makes a handle in an arena and closes it. -/
def reuse (w : World) : World :=
  (w.act (.makeHandle 1 1024 .basic true)).act (.drop (.close w.system.nextId))

/-- The arena has one slot, which is empty, and there is something to make handles to. -/
structure Vacant (w : World) (g : Nat) : Prop where
  passed : w.Passed True True
  due : .release (.object 1024) ∈ w.dues
  capacity : w.system.arenas[1]?.map Arena.capacity = some 1
  slot : w.system.slot 1 0 = some ⟨g, none⟩

variable {w : World} {g : Nat}

/-- The slot is taken by the next handle. -/
theorem Vacant.make (h : w.Vacant g) :
    ∃ a, w.system.arenas[1]? = some a ∧ a.isFull = false ∧
      w.act (.makeHandle 1 1024 .basic true) =
        ⟨w.system.withHandle 1 a 1024 .basic, .close w.system.nextId :: w.dues⟩ ∧
      (w.system.withHandle 1 a 1024 .basic).slot 1 0 = some ⟨g, some w.system.nextId⟩ := by
  obtain ⟨a, ha, hcap⟩ := Option.map_eq_some_iff.1 h.capacity
  obtain ⟨b, hb, hn⟩ := System.slot_eq.1 h.slot
  rw [ha] at hb
  cases hb
  have hwf := h.passed.slotted.wf ha
  have hfree : 0 ∈ a.free := (hwf.mem_free 0).2 ⟨_, hn, rfl⟩
  have hsome : a.free.isEmpty = false := by
    cases hf : a.free with
    | nil => rw [hf] at hfree; cases hfree
    | cons => rfl
  have hfull : a.isFull = false := by
    unfold Arena.isFull
    rw [hsome]
    rfl
  have hthere : w.system.Present (.object 1024) :=
    h.passed.accounted.present_of_owed (owed_pos h.due (by simp [Task.holds]))
  refine ⟨a, ha, hfull, ?_, ?_⟩
  · rw [act, if_pos hthere]
    unfold System.makeHandle
    rw [ha]
    dsimp only
    rw [hfull, hsome]
    rfl
  · obtain ⟨m, c, -, -, -, -, hempty, hslots⟩ := hwf.insert_slots hfull w.system.nextId
    -- The arena has one slot, so this is the one that the handle goes into.
    have hroom : m = 0 := by
      have hsize := (hwf.insert hfull w.system.nextId).size_le
      obtain ⟨hm, -⟩ := Array.getElem?_eq_some_iff.1 ((hslots m).trans (if_pos rfl))
      rw [Arena.insert_capacity, hcap] at hsize
      omega
    subst hroom
    cases hempty _ hn
    refine System.slot_eq.2 ⟨_, Std.ExtTreeMap.getElem?_insert_self, ?_⟩
    rw [hslots, if_pos rfl]

/-- What is made in the first generation has the first value. -/
theorem Vacant.findHandle_make (h : w.Vacant 1) :
    (w.act (.makeHandle 1 1024 .basic true)).system.findHandle 1 262144 =
      some w.system.nextId := by
  obtain ⟨a, ha, hfull, he, hslot⟩ := h.make
  obtain ⟨b, hb, hn⟩ := System.slot_eq.1 hslot
  have hp := h.passed.trans (act_moves h.passed.accounted (.makeHandle 1 1024 .basic true)
    (fun _ => trivial) fun _ => trivial)
  rw [he] at hp ⊢
  unfold System.findHandle
  rw [hb]
  exact (hp.slotted.wf hb).find?_eq_some_iff.2 hn

/-- **Making a handle and closing it** moves the generation on, and changes nothing else here. -/
theorem Vacant.reuse (h : w.Vacant g) :
    w.reuse.Vacant (nextGeneration g) ∧ w.system.nextId < w.reuse.system.nextId := by
  obtain ⟨a, ha, hfull, he, hslot⟩ := h.make
  generalize hs : w.system.withHandle 1 a 1024 .basic = s at he hslot
  have hmakes : Moves True True w ⟨s, .close w.system.nextId :: w.dues⟩ := by
    rw [← he]
    exact act_moves h.passed.accounted _ (fun _ => trivial) fun _ => trivial
  have hmade := h.passed.trans hmakes
  have hreuse : w.reuse = ⟨s.settle [.close w.system.nextId], w.dues⟩ := by
    unfold World.reuse
    rw [he, act, if_pos List.mem_cons_self, List.erase_cons_head]
  have hcloses : Moves True True ⟨s, .close w.system.nextId :: w.dues⟩ w.reuse := by
    rw [hreuse]
    exact s.settle_moves [_] w.dues
  have hid : w.system.nextId < s.nextId := hs ▸ Nat.lt_succ_self _
  refine ⟨⟨hmade.trans hcloses, ?_, hcloses.capacity (hmakes.capacity h.capacity), ?_⟩,
    Nat.lt_of_lt_of_le hid hcloses.nextId_le⟩
  · rw [hreuse]
    exact h.due
  · have hlive : World.Live ⟨s, .close w.system.nextId :: w.dues⟩ w.system.nextId
        { base := (a.insert w.system.nextId).1, object := 1024, rights := .basic, arena := 1 } := by
      refine ⟨hs ▸ Std.ExtTreeMap.getElem?_insert_self, ?_⟩
      rw [System.owners_close, if_pos rfl]
      exact Nat.succ_pos _
    obtain ⟨-, hfreed⟩ := (hlive.slot_closing hmade hslot).resolve_left fun h => h.1 rfl
    rw [hreuse, System.settle, List.append_nil]
    -- Closing is one task, and what follows from it gives references back and leaves the slot
    -- alone.
    refine System.slot_settle (d := w.dues)
      (hmade.trans (Tick.perform (K := fun _ _ => True) _).moves) ?_
    rw [System.perform_close hlive.1]
    split
    · exact (System.slot_zeroHandles _ _ _ _).trans hfreed
    · exact hfreed

theorem Vacant.iterate (h : w.Vacant g) (n : Nat) :
    (World.reuse^[n] w).Vacant (nextGeneration^[n] g) ∧
      w.system.nextId ≤ (World.reuse^[n] w).system.nextId := by
  induction n with
  | zero => exact ⟨h, Nat.le_refl _⟩
  | succ n ih =>
    rw [Function.iterate_succ_apply', Function.iterate_succ_apply']
    obtain ⟨hnext, hlt⟩ := ih.1.reuse
    exact ⟨hnext, by omega⟩

/-- Once the generations have gone round, the first value names another handle. -/
theorem Vacant.comes_back (h : w.Vacant g) {n : Nat} (hn : nextGeneration^[n] g = 1) :
    ∃ x, w.system.nextId ≤ x ∧
      ((World.reuse^[n] w).act (.makeHandle 1 1024 .basic true)).system.findHandle 1 262144 =
        some x := by
  obtain ⟨hvacant, hid⟩ := h.iterate n
  exact ⟨_, hid, Vacant.findHandle_make (hn ▸ hvacant)⟩

end World

/-- **So the value of a handle that was closed may name a newer handle**, namely the one that is
made after the slot was used as often as there are generations. -/
theorem stale_value_names_newer_handle :
    let v := World.run [.newArena 1, .createWitness "w" .empty, .makeHandle 1 1024 .basic true]
    let w := v.act (.drop (.close 2))
    v.system.findHandle 1 262144 = some 2 ∧ w.system.findHandle 1 262144 = none ∧
      ∃ h, h ≠ 2 ∧ ((World.reuse^[16382] w).act (.makeHandle 1 1024 .basic
        true)).system.findHandle 1 262144 = some h := by
  intro v w
  have hdues : w.dues = [.release (.object 1024)] := by cbv
  have hid : w.system.nextId = 3 := by cbv
  have hvacant : w.Vacant 2 :=
    { passed := (World.reachable_run [.newArena 1, .createWitness "w" .empty,
        .makeHandle 1 1024 .basic true, .drop (.close 2)]).passed
      due := hdues ▸ List.mem_cons_self
      capacity := by cbv
      slot := by cbv }
  have hround : nextGeneration^[16382] 2 = 1 := iterate_nextGeneration (by decide) (by decide) _
  obtain ⟨x, hx, hfind⟩ := hvacant.comes_back hround
  rw [hid] at hx
  exact ⟨by cbv, by cbv, x, Nat.ne_of_gt hx, hfind⟩

end KernelObjects
