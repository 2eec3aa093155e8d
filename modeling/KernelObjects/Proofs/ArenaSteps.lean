import Mathlib.Data.List.Nodup
import KernelObjects.Handle.Arena

/-
# An arena keeps in step

An arena stores three things that follow from one another: the slots, the list of the empty ones,
and two counts.  They are in step (`Arena.Wf`) if the list names every empty slot once and the
counts are the number of the taken slots and of all slots.  Inserting into an arena that is not
full keeps them in step, and so does erasing a handle that is there; the erased slot then is the
one taken next.

That the list names every empty slot *once* is not a refinement but the point: a slot that stood
there twice would be given out twice, and the second handle would overwrite the first.  Erasing
therefore asks for a handle in the slot, since an empty one is on the list already.
-/

namespace KernelObjects

open HandleValue

namespace Arena

/-- The slots, the free list and the counts of an arena are in step. -/
structure Wf (a : Arena) : Prop where
  capacity_le : a.capacity ≤ indexCount
  size_le : a.slots.size ≤ a.capacity
  highWater : a.highWater = a.slots.size
  nodup : a.free.Nodup
  mem_free : ∀ n, n ∈ a.free ↔ ∃ s, a.slots[n]? = some s ∧ s.handle = none
  outstanding : a.outstanding + a.free.length = a.slots.size
  generation : ∀ {n : Nat} {s : Slot}, a.slots[n]? = some s →
    0 < s.generation ∧ s.generation < generationCount

variable {a : Arena}

/-- An arena starts well formed, with no slot. -/
theorem wf_ofCapacity (capacity : Nat) : (ofCapacity capacity).Wf where
  capacity_le := by
    have hpos : 1 ≤ indexCount := by decide
    exact Nat.max_le.2 ⟨hpos, Nat.min_le_right _ _⟩
  size_le := Nat.zero_le _
  highWater := rfl
  nodup := .nil
  mem_free n := by simp [ofCapacity]
  outstanding := rfl
  generation h := by simp [ofCapacity] at h

theorem Wf.index_lt (h : a.Wf) {n : Nat} {s : Slot} (hs : a.slots[n]? = some s) :
    n < indexCount := by
  obtain ⟨hn, -⟩ := Array.getElem?_eq_some_iff.1 hs
  exact Nat.lt_of_lt_of_le hn (Nat.le_trans h.size_le h.capacity_le)

/-- The slots one by one. -/
theorem slots_eq_range (a : Arena) :
    a.slots.toList.map some = (List.range a.slots.size).map fun n => a.slots[n]? := by
  refine List.ext_getElem? fun n => ?_
  rw [List.getElem?_map, List.getElem?_map, Array.getElem?_toList]
  by_cases hn : n < a.slots.size
  · rw [List.getElem?_range hn, Array.getElem?_eq_getElem hn, Option.map_some, Option.map_some,
      Array.getElem?_eq_getElem hn]
  · have hle := Nat.le_of_not_lt hn
    rw [Array.getElem?_eq_none hle, List.getElem?_eq_none (by simpa using hle)]
    rfl

/-- **The number of handles is the number of taken slots.** -/
theorem Wf.countP_taken (h : a.Wf) :
    a.slots.toList.countP (fun s => s.handle.isSome) = a.outstanding := by
  -- the free list is the list of empty slots, up to order
  have hperm : a.free.Perm ((List.range a.slots.size).filter fun n =>
      (a.slots[n]?.any fun s => s.handle.isNone)) := by
    refine (List.perm_ext_iff_of_nodup h.nodup (List.nodup_range.filter _)).2 fun n => ?_
    rw [h.mem_free, List.mem_filter, List.mem_range]
    constructor
    · rintro ⟨s, hs, he⟩
      obtain ⟨hn, -⟩ := Array.getElem?_eq_some_iff.1 hs
      exact ⟨hn, by simp [hs, he]⟩
    · rintro ⟨-, hn⟩
      simpa [Option.any_eq_true] using hn
  have hempty : a.slots.toList.countP (fun s => s.handle.isNone) = a.free.length := by
    rw [hperm.length_eq, ← List.countP_eq_length_filter]
    have hmap := congrArg (List.countP fun x => x.any fun s : Slot => s.handle.isNone)
      a.slots_eq_range
    rw [List.countP_map, List.countP_map] at hmap
    exact hmap
  have hall := List.length_eq_countP_add_countP (fun s : Slot => s.handle.isSome)
    (l := a.slots.toList)
  have hnot : a.slots.toList.countP (fun s => ¬ s.handle.isSome) = a.free.length := by
    rw [← hempty]
    refine List.countP_congr fun s _ => ?_
    cases s.handle <;> simp
  have := h.outstanding
  rw [Array.length_toList] at hall
  omega

theorem Wf.outstanding_pos (h : a.Wf) {n : Nat} {g : Nat} {x : HandleId}
    (hs : a.slots[n]? = some ⟨g, some x⟩) : 0 < a.outstanding := by
  rw [← h.countP_taken, List.countP_pos_iff]
  exact ⟨_, Array.mem_toList_iff.2 (Array.mem_of_getElem? hs), rfl⟩

/-- **Full means that every slot there may be is taken.** -/
theorem Wf.isFull_iff (h : a.Wf) : a.isFull = true ↔ a.outstanding = a.capacity := by
  have hsize := h.size_le
  have hout := h.outstanding
  unfold isFull
  rw [Bool.and_eq_true, List.isEmpty_iff, decide_eq_true_eq]
  constructor
  · rintro ⟨hf, hc⟩
    rw [hf, List.length_nil] at hout
    omega
  · intro he
    exact ⟨List.eq_nil_of_length_eq_zero (by omega), by omega⟩

@[simp] theorem countIn_slots (a : Arena) : a.countIn.slots = a.slots := rfl

@[simp] theorem countIn_free (a : Arena) : a.countIn.free = a.free := rfl

@[simp] theorem countIn_outstanding (a : Arena) : a.countIn.outstanding = a.outstanding + 1 := rfl

@[simp] theorem countIn_highWater (a : Arena) :
    a.countIn.highWater = max a.highWater (a.outstanding + 1) := rfl

/-- With no free slot, a new one is opened, in its first generation. -/
theorem insert_of_nil (h : a.free = []) (x : HandleId) :
    a.insert x = (encode 1 a.slots.size,
      { a with slots := a.slots.push ⟨1, some x⟩ }.countIn) := by
  unfold insert
  rw [h]

/-- The slot freed last is the first to be filled again, and keeps its generation. -/
theorem insert_of_cons {n : Nat} {rest : List Nat} (h : a.free = n :: rest) (x : HandleId) :
    a.insert x = (encode (a.generation n) n,
      { a with
        slots := a.slots.modify n fun s => { s with handle := some x }
        free := rest }.countIn) := by
  unfold insert
  rw [h]

@[simp] theorem insert_capacity (a : Arena) (x : HandleId) :
    (a.insert x).2.capacity = a.capacity := by
  unfold insert
  split <;> rfl

/-- A handle goes into a slot that is empty or new, in the slot's present generation, and its value
points there. -/
theorem Wf.insert_slots (h : a.Wf) (hf : a.isFull = false) (x : HandleId) :
    ∃ n g, n < indexCount ∧ 0 < g ∧ g < generationCount ∧ (a.insert x).1 = encode g n ∧
      (∀ s, a.slots[n]? = some s → s = ⟨g, none⟩) ∧
      ∀ m, (a.insert x).2.slots[m]? = if n = m then some ⟨g, some x⟩ else a.slots[m]? := by
  cases hfree : a.free with
  | nil =>
    rw [insert_of_nil hfree]
    have hroom : a.slots.size < a.capacity := by simpa [isFull, hfree] using hf
    -- A new slot: its number is below the capacity since the arena is not full, and its first
    -- generation is one.
    refine ⟨a.slots.size, 1, Nat.lt_of_lt_of_le hroom h.capacity_le, by decide, by decide, rfl,
      fun s hs => ?_, fun m => ?_⟩
    · simp at hs
    · rw [countIn_slots, Array.getElem?_push]
      by_cases hm : m = a.slots.size
      · rw [if_pos hm, if_pos hm.symm]
      · rw [if_neg hm, if_neg (Ne.symm hm)]
  | cons n rest =>
    rw [insert_of_cons hfree]
    obtain ⟨s, hs, he⟩ := (h.mem_free n).1 (hfree ▸ List.mem_cons_self)
    obtain ⟨hpos, hlt⟩ := h.generation hs
    have hgen : a.generation n = s.generation := by
      unfold Arena.generation
      rw [hs]
      rfl
    -- A slot that was freed: it is empty because the list names empty slots only, and it keeps
    -- the generation that its last handle left behind.
    refine ⟨n, s.generation, h.index_lt hs, hpos, hlt, congrArg (encode · n) hgen,
      fun s' hs' => ?_, fun m => ?_⟩
    · rw [hs] at hs'
      cases hs'
      exact congrArg (Slot.mk s.generation) he
    · rw [countIn_slots, Array.getElem?_modify]
      split
      · rename_i hm
        rw [← hm, hs]
        rfl
      · rfl

/-- A new slot keeps the arena in step. -/
theorem Wf.insert_new (h : a.Wf) (hf : a.isFull = false) (hfree : a.free = []) (x : HandleId) :
    (a.insert x).2.Wf := by
  have hroom : a.slots.size < a.capacity := by simpa [isFull, hfree] using hf
  have hout := h.outstanding
  rw [hfree, List.length_nil] at hout
  rw [insert_of_nil hfree]
  have hsize : (a.slots.push ⟨1, some x⟩).size = a.slots.size + 1 := Array.size_push _
  constructor
  case capacity_le => exact h.capacity_le
  case size_le => exact Nat.le_trans (Nat.le_of_eq hsize) hroom
  case highWater =>
    simp only [countIn_highWater, countIn_slots]
    rw [h.highWater]
    omega
  case nodup => exact h.nodup
  -- The new slot is taken at once, so the list of empty ones stays empty.  For every other number
  -- the slots are the same.
  case mem_free =>
    intro m
    simp only [countIn_free, countIn_slots]
    rw [h.mem_free, Array.getElem?_push]
    by_cases hm : m = a.slots.size
    · rw [if_pos hm, hm]
      simp
    · rw [if_neg hm]
  case outstanding =>
    simp only [countIn_outstanding, countIn_free, countIn_slots]
    rw [hfree, List.length_nil]
    omega
  case generation =>
    intro m s hs
    rw [countIn_slots, Array.getElem?_push] at hs
    split at hs
    · cases hs
      exact ⟨Nat.one_pos, (by decide : 1 < generationCount)⟩
    · exact h.generation hs

/-- A slot that is taken again keeps the arena in step. -/
theorem Wf.insert_again (h : a.Wf) {n : Nat} {rest : List Nat} (hfree : a.free = n :: rest)
    (x : HandleId) : (a.insert x).2.Wf := by
  have hsizele := h.size_le
  have hout := h.outstanding
  have hnodup := h.nodup
  rw [hfree] at hnodup hout
  rw [List.length_cons] at hout
  obtain ⟨hn, hrest⟩ := List.nodup_cons.1 hnodup
  rw [insert_of_cons hfree]
  have hsize : (a.slots.modify n fun s => { s with handle := some x }).size = a.slots.size :=
    Array.size_modify
  -- the head of the list is taken; every other slot is empty if it was, and is listed if it was
  constructor
  case capacity_le => exact h.capacity_le
  case size_le => exact Nat.le_trans (Nat.le_of_eq hsize) hsizele
  case highWater =>
    simp only [countIn_highWater, countIn_slots]
    rw [h.highWater]
    omega
  case nodup => exact hrest
  case mem_free =>
    intro m
    simp only [countIn_free, countIn_slots]
    rw [Array.getElem?_modify]
    by_cases hm : n = m
    · rw [if_pos hm]
      refine iff_of_false (fun hmem => hn (hm ▸ hmem)) ?_
      rintro ⟨s, hs, he⟩
      obtain ⟨s', -, rfl⟩ := Option.map_eq_some_iff.1 hs
      cases he
    · rw [if_neg hm, ← h.mem_free, hfree, List.mem_cons]
      exact ⟨.inr, fun hmem => hmem.resolve_left (Ne.symm hm)⟩
  case outstanding =>
    simp only [countIn_outstanding, countIn_free, countIn_slots]
    omega
  case generation =>
    intro m s hs
    rw [countIn_slots, Array.getElem?_modify] at hs
    split at hs
    · obtain ⟨s', hs', rfl⟩ := Option.map_eq_some_iff.1 hs
      have hkept := h.generation hs'
      exact hkept
    · exact h.generation hs

/-- **A handle goes into an arena that is not full**, into a new slot or into a free one. -/
theorem Wf.insert (h : a.Wf) (hf : a.isFull = false) (x : HandleId) : (a.insert x).2.Wf := by
  cases hfree : a.free with
  | nil => exact h.insert_new hf hfree x
  | cons n rest => exact h.insert_again hfree x

/-- A slot that is freed counts its generation on; the others stay. -/
theorem getElem?_erase (a : Arena) (v m : Nat) :
    (a.erase v).slots[m]? = if index v = m
      then a.slots[m]?.map fun s => ⟨nextGeneration s.generation, none⟩ else a.slots[m]? :=
  Array.getElem?_modify

/-- **A handle leaves its slot**, which is the next one to be filled. -/
theorem Wf.erase (h : a.Wf) {v g : Nat} {x : HandleId}
    (hs : a.slots[index v]? = some ⟨g, some x⟩) : (a.erase v).Wf := by
  have hpos := h.outstanding_pos hs
  have hout := h.outstanding
  have hsize : (a.erase v).slots.size = a.slots.size := Array.size_modify
  have hfree : (a.erase v).free = index v :: a.free := rfl
  -- the slot was taken, so it is not on the list yet and goes to its head
  constructor
  case capacity_le => exact h.capacity_le
  case size_le => exact hsize ▸ h.size_le
  case highWater => exact hsize ▸ h.highWater
  case nodup =>
    refine List.nodup_cons.2 ⟨fun hmem => ?_, h.nodup⟩
    obtain ⟨s, hs', he⟩ := (h.mem_free _).1 hmem
    rw [hs] at hs'
    cases hs'
    cases he
  case mem_free =>
    intro m
    rw [hfree, List.mem_cons, getElem?_erase]
    by_cases hm : index v = m
    · rw [if_pos hm, ← hm, hs]
      exact iff_of_true (.inl rfl) ⟨_, rfl, rfl⟩
    · rw [if_neg hm, ← h.mem_free]
      exact ⟨fun hmem => hmem.resolve_left (Ne.symm hm), .inr⟩
  case outstanding =>
    have hlen : (a.erase v).free.length = a.free.length + 1 := rfl
    have hless : (a.erase v).outstanding = a.outstanding - 1 := rfl
    omega
  case generation =>
    intro m s hs'
    rw [getElem?_erase] at hs'
    split at hs'
    · obtain ⟨s', -, rfl⟩ := Option.map_eq_some_iff.1 hs'
      exact ⟨nextGeneration_pos _, nextGeneration_lt _⟩
    · exact h.generation hs'

end Arena

end KernelObjects
