import Mathlib
import KernelObjects.Proofs.ArenaSteps
import KernelObjects.Proofs.Run

/-
# Slots, owners and counts of handles

An arena by itself keeps in step (`Arena.Wf`) as long as nobody erases what is not there.  That
nobody does is a matter of the owners: everybody who still has to close a handle, and the tables.
The slots are in order (`Slotted`) if the owned handles are exactly those that stand in slots,
each has one owner, and an object counts as many handles as handles to it are owned.

Opening and closing a handle change one slot, one owner and one count together; moves between
owners change none of the three.  So the order is kept by all moves, also in the midst of a
destruction that closes many handles.

A handle is there longer than it is owned.  Its slot is freed and its object counts it no more
when it is closed, while its record stays until the last reference to it is given back, by
somebody who holds it for a moment.  So the three that change together are tied to owners and not
to records, and a handle without an owner may be there and stand in no slot.
-/

namespace KernelObjects

open HandleValue

namespace System

/-- A handle that leaves its slot is counted no more. -/
theorem handleCount_withoutSlot (s : System) (r : Handle) (k : Koid) :
    (s.withoutSlot r).handleCount k =
      if r.object = k then s.handleCount k - 1 else s.handleCount k := by
  unfold handleCount withoutSlot
  dsimp only
  rw [Store.getElem?_modify]
  split
  · cases s.objects[k]? <;> rfl
  · rfl

/-- A new handle is counted. -/
theorem handleCount_withHandle {s : System} {k : Koid} (a : ArenaId) (arena : Arena)
    (rights : Rights) (hk : ∃ o, s.objects[k]? = some o) (c : Koid) :
    (s.withHandle a arena k rights).handleCount c = s.handleCount c + if k = c then 1 else 0 := by
  unfold handleCount withHandle
  dsimp only
  rw [Store.getElem?_modify]
  split
  · rename_i he
    obtain ⟨o, ho⟩ := hk
    rw [← he, ho]
    rfl
  · rfl

end System

/-! ## 1. Slots and owners

What an arena says of its slots is compared with what the owners have, and both with the counts of
the objects. -/

/-- **The slots are in order.** -/
structure Slotted (s : System) (d : List Task) : Prop where
  wf : ∀ {i : ArenaId} {a : Arena}, s.arenas[i]? = some a → a.Wf
  /-- An owned handle stands in the slot that its value points to. -/
  slot : ∀ {h : HandleId} {r : Handle}, s.handles[h]? = some r → 0 < s.owners d h →
    ∃ a, s.arenas[r.arena]? = some a ∧
      a.slots[index r.base]? = some ⟨generation r.base, some h⟩
  /-- What stands in a slot is a handle with one owner, and its value points to the slot. -/
  owner : ∀ {i : ArenaId} {a : Arena} {n g : Nat} {h : HandleId}, s.arenas[i]? = some a →
    a.slots[n]? = some ⟨g, some h⟩ →
      s.owners d h = 1 ∧ ∃ r, s.handles[h]? = some r ∧ r.arena = i ∧ r.base = encode g n
  /-- An object counts the owned handles to it. -/
  counted : ∀ k, s.handleCount k =
    s.handles.weight fun h r => if r.object = k then s.owners d h else 0

namespace Slotted

variable {s t : System} {d e : List Task}

/-- At first there are no slots, no handles and nothing due. -/
theorem initial : Slotted .initial [] where
  wf h := by simp [System.initial] at h
  slot h := by simp [System.initial] at h
  owner h := by simp [System.initial] at h
  counted k := rfl

/-- Changes that leave slots, owners, handles and counts alone. -/
theorem congr (h : Slotted s d) (ho : ∀ a, t.owners e a = s.owners d a)
    (ha : t.arenas = s.arenas)
    (hh : ∀ a : Nat, t.handles[a]?.map Handle.kin = s.handles[a]?.map Handle.kin)
    (hc : ∀ k, t.handleCount k = s.handleCount k) : Slotted t e where
  wf hi := h.wf (ha ▸ hi)
  slot := by
    intro a r hr hown
    obtain ⟨q, hq, he⟩ := Option.map_eq_some_iff.1 ((hh a).symm.trans (by rw [hr]; rfl))
    rw [ha, ← show q.arena = r.arena from congrArg Handle.Kin.arena he,
      ← show q.base = r.base from congrArg Handle.Kin.base he]
    exact h.slot hq (ho a ▸ hown)
  owner := by
    intro i a n g x hi hn
    obtain ⟨hown, q, hq, harena, hbase⟩ := h.owner (ha ▸ hi) hn
    obtain ⟨r, hr, he⟩ := Option.map_eq_some_iff.1 ((hh x).trans (by rw [hq]; rfl))
    refine ⟨(ho x).trans hown, r, hr, ?_, ?_⟩
    · rw [show r.arena = q.arena from congrArg Handle.Kin.arena he, harena]
    · rw [show r.base = q.base from congrArg Handle.Kin.base he, hbase]
  counted k := by
    have hweight := Store.weight_of_map hh fun x r => if r.object = k then s.owners d x else 0
    rw [hc, h.counted]
    simp only [ho]
    exact hweight.symm

/-- An object without handles counts none. -/
theorem handleCount_eq_zero (h : Slotted s d) {k : Koid}
    (hk : ∀ (a : Nat) r, s.handles[a]? = some r → r.object ≠ k) : s.handleCount k = 0 := by
  rw [h.counted]
  exact Store.weight_eq_zero fun a r hr => if_neg (hk a r hr)

/-- Two handles with owners do not share a slot. -/
theorem slot_inj (h : Slotted s d) {a b : HandleId} {r q : Handle} (hr : s.handles[a]? = some r)
    (hq : s.handles[b]? = some q) (ha : 0 < s.owners d a) (hb : 0 < s.owners d b)
    (harena : r.arena = q.arena) (hindex : index r.base = index q.base) : a = b := by
  obtain ⟨x, hx, hslot⟩ := h.slot hr ha
  obtain ⟨y, hy, hslot'⟩ := h.slot hq hb
  rw [← harena, hx] at hy
  cases hy
  rw [← hindex, hslot] at hslot'
  injection hslot' with hslot'
  injection hslot' with _ hab
  injection hab

/-- A handle has no more than one owner. -/
theorem owners_eq_one (h : Slotted s d) {a : HandleId} {r : Handle}
    (hr : s.handles[a]? = some r) (ha : 0 < s.owners d a) : s.owners d a = 1 := by
  obtain ⟨x, hx, hslot⟩ := h.slot hr ha
  exact (h.owner hx hslot).1

/-- A handle without an owner may go. -/
theorem erase_handle (h : Slotted s d) {x : HandleId} (hx : s.owners d x = 0)
    (ho : ∀ a, t.owners e a = s.owners d a) (ha : t.arenas = s.arenas)
    (hh : t.handles = s.handles.erase x) (hc : ∀ k, t.handleCount k = s.handleCount k) :
    Slotted t e where
  wf hi := h.wf (ha ▸ hi)
  slot := by
    intro a r hr hown
    rw [hh, Store.getElem?_erase] at hr
    split at hr
    · cases hr
    · rw [ha]
      exact h.slot hr (ho a ▸ hown)
  owner := by
    intro i a n g y hi hn
    obtain ⟨hown, r, hr, hplace⟩ := h.owner (ha ▸ hi) hn
    refine ⟨(ho y).trans hown, r, ?_, hplace⟩
    rw [hh, Store.getElem?_erase, if_neg]
    · exact hr
    · rintro rfl
      omega
  -- What the handle contributed to the count of its object was nothing, as nobody owned it.
  counted k := by
    have hlaw := s.handles.weight_erase_share x fun a r => if r.object = k then s.owners d a else 0
    have hnone : s.handles.share (fun a r => if r.object = k then s.owners d a else 0) x = 0 := by
      unfold Store.share
      cases s.handles[x]? with
      | none => rfl
      | some r => simp [hx]
    rw [hc, h.counted, hh]
    simp only [ho]
    omega

/-- **Closing a handle** empties its slot and takes one from the count of its object. -/
theorem closed {x : HandleId} {r : Handle} (h : Slotted s (.close x :: d))
    (hx : s.handles[x]? = some r) :
    Slotted (s.withoutSlot r) (.release (.handle x) :: .release (.handle x) :: d) := by
  have howners : ∀ a, (s.withoutSlot r).owners
      (.release (.handle x) :: .release (.handle x) :: d) a = s.owners d a := by
    intro a
    have hne : Task.release (.handle x) ≠ .close a := by simp
    rw [System.owners_cons_of_ne hne, System.owners_cons_of_ne hne]
    rfl
  have hbefore : ∀ a, s.owners (.close x :: d) a = s.owners d a + if x = a then 1 else 0 :=
    fun a => s.owners_close x a
  have hone := h.owners_eq_one hx (by rw [hbefore, if_pos rfl]; exact Nat.succ_pos _)
  have hzero : s.owners d x = 0 := by
    rw [hbefore, if_pos rfl] at hone
    omega
  have hpos : ∀ {a}, 0 < s.owners d a → x ≠ a ∧ 0 < s.owners (.close x :: d) a := by
    intro a ha
    rw [hbefore]
    refine ⟨?_, by omega⟩
    rintro rfl
    omega
  obtain ⟨arena, harena, hslot⟩ := h.slot hx (by omega)
  have hget : ∀ i : Nat, (s.withoutSlot r).arenas[i]? =
      if r.arena = i then s.arenas[i]?.map fun a => a.erase r.base else s.arenas[i]? :=
    fun i => Store.getElem?_modify _ _ _ _
  constructor
  case wf =>
    intro i a hi
    rw [hget] at hi
    split at hi
    · rename_i he
      rw [← he, harena] at hi
      cases hi
      exact (h.wf harena).erase hslot
    · exact h.wf hi
  case slot =>
    intro a q hq ha
    rw [howners] at ha
    obtain ⟨hne, hown⟩ := hpos ha
    obtain ⟨b, hb, hplace⟩ := h.slot hq hown
    rw [hget]
    by_cases he : r.arena = q.arena
    · rw [if_pos he, hb]
      refine ⟨_, rfl, ?_⟩
      rw [Arena.getElem?_erase, if_neg, hplace]
      exact fun hi => hne (h.slot_inj hx hq (by omega) hown he hi)
    · rw [if_neg he]
      exact ⟨b, hb, hplace⟩
  case owner =>
    intro i a n g y hi hn
    -- what still stands in a slot stood there before, and it is another handle
    suffices hold : ∃ b, s.arenas[i]? = some b ∧ b.slots[n]? = some ⟨g, some y⟩ ∧ x ≠ y by
      obtain ⟨b, hb, hplace, hne⟩ := hold
      obtain ⟨hown, q, hq, hwhere⟩ := h.owner hb hplace
      rw [hbefore, if_neg hne] at hown
      exact ⟨(howners y).trans hown, q, hq, hwhere⟩
    have hother : ∀ {b : Arena}, s.arenas[i]? = some b → b.slots[n]? = some ⟨g, some y⟩ →
        (r.arena = i → index r.base ≠ n) → x ≠ y := by
      rintro b hb hplace hne rfl
      obtain ⟨-, q, hq, hi', hbase⟩ := h.owner hb hplace
      rw [hx] at hq
      cases hq
      refine hne hi' ?_
      rw [hbase, index_encode ((h.wf hb).index_lt hplace)]
    rw [hget] at hi
    split at hi
    · rename_i he
      obtain ⟨b, hb, rfl⟩ := Option.map_eq_some_iff.1 hi
      rw [Arena.getElem?_erase] at hn
      split at hn
      · obtain ⟨s', -, hs'⟩ := Option.map_eq_some_iff.1 hn
        cases hs'
      · rename_i hne
        exact ⟨b, hb, hn, hother hb hn fun _ => hne⟩
    · rename_i hne
      exact ⟨a, hi, hn, hother hi hn fun he => absurd he hne⟩
  case counted =>
    intro k
    have hlaw := Store.weight_add_share (s := s.handles) (t := s.handles)
      (f := fun a q => if q.object = k then s.owners (.close x :: d) a else 0)
      (g := fun a q => if q.object = k then s.owners d a else 0) (k := x) fun a ha => by
        have hsame := hbefore a
        rw [if_neg ha.symm, Nat.add_zero] at hsame
        simp only [Store.share, hsame]
    rw [Store.share_of_some hx, Store.share_of_some hx, hone, hzero] at hlaw
    have hcount := h.counted k
    have hsame : ((s.withoutSlot r).handles.weight fun a q => if q.object = k
        then (s.withoutSlot r).owners (.release (.handle x) :: .release (.handle x) :: d) a
        else 0) = s.handles.weight fun a q => if q.object = k then s.owners d a else 0 := by
      simp only [howners]
      rfl
    rw [s.handleCount_withoutSlot, hsame]
    split at hlaw <;> simp_all

/-- **Opening a handle** takes a slot, makes an owner and adds one to the count of the object. -/
theorem opened {i : ArenaId} {arena : Arena} {k : Koid} {rights : Rights} (h : Slotted s d)
    (hacc : Accounted s d) (hi : s.arenas[i]? = some arena) (hf : arena.isFull = false)
    (hk : ∃ o, s.objects[k]? = some o) :
    Slotted (s.withHandle i arena k rights) (.close s.nextId :: d) := by
  have hfresh := hacc.handles_fresh
  have hunowned : s.owners d s.nextId = 0 := by
    refine Nat.eq_zero_of_not_pos fun hpos => ?_
    obtain ⟨r, hr⟩ := hacc.handle_of_owners hpos
    rw [hfresh] at hr
    cases hr
  have howners : ∀ a, (s.withHandle i arena k rights).owners (.close s.nextId :: d) a =
      s.owners d a + if s.nextId = a then 1 else 0 :=
    fun a => (s.withHandle i arena k rights).owners_close s.nextId a
  have hhandles : ∀ a : Nat, (s.withHandle i arena k rights).handles[a]? = if s.nextId = a
      then some { base := (arena.insert s.nextId).1, object := k, rights, arena := i }
      else s.handles[a]? :=
    fun a => Store.getElem?_insert _ _ _ _
  have harenas : ∀ j : Nat, (s.withHandle i arena k rights).arenas[j]? =
      if i = j then some (arena.insert s.nextId).2 else s.arenas[j]? :=
    fun j => Store.getElem?_insert _ _ _ _
  obtain ⟨n, g, hn, -, -, hbase, hempty, hslots⟩ := (h.wf hi).insert_slots hf s.nextId
  constructor
  case wf =>
    intro j b hb
    rw [harenas] at hb
    split at hb
    · cases hb
      exact (h.wf hi).insert hf _
    · exact h.wf hb
  case slot =>
    intro a r hr hown
    rw [hhandles] at hr
    rw [harenas]
    split at hr
    · rename_i he
      cases hr
      refine ⟨_, if_pos rfl, ?_⟩
      rw [hslots, hbase, index_encode hn, generation_encode hn, if_pos rfl, he]
    · rename_i hne
      rw [howners, if_neg hne, Nat.add_zero] at hown
      obtain ⟨b, hb, hplace⟩ := h.slot hr hown
      by_cases he : i = r.arena
      · rw [← he, hi] at hb
        cases hb
        refine ⟨_, if_pos he, ?_⟩
        rw [hslots, if_neg]
        · exact hplace
        · rintro rfl
          cases hempty _ hplace
      · rw [if_neg he]
        exact ⟨b, hb, hplace⟩
  case owner =>
    intro j b m c y hb hm
    -- what stood in a slot before is another handle and stands there still
    have hold : ∀ {b : Arena}, s.arenas[j]? = some b → b.slots[m]? = some ⟨c, some y⟩ →
        (s.withHandle i arena k rights).owners (.close s.nextId :: d) y = 1 ∧
          ∃ r, (s.withHandle i arena k rights).handles[y]? = some r ∧ r.arena = j ∧
            r.base = encode c m := by
      intro b hb hm
      obtain ⟨hown, r, hr, hplace⟩ := h.owner hb hm
      have hne : s.nextId ≠ y := by
        rintro rfl
        omega
      refine ⟨?_, r, ?_, hplace⟩
      · rw [howners, if_neg hne]
        exact hown
      · rw [hhandles, if_neg hne]
        exact hr
    rw [harenas] at hb
    split at hb
    · rename_i he
      cases hb
      rw [hslots] at hm
      split at hm
      · rename_i hnm
        cases hm
        refine ⟨?_, _, (hhandles s.nextId).trans (if_pos rfl), he, ?_⟩
        · rw [howners, if_pos rfl, hunowned]
        · rw [← hnm]
          exact hbase
      · exact hold (he ▸ hi) hm
    · exact hold hb hm
  case counted =>
    intro c
    have hweight := Store.weight_insert hfresh
      (fun a r => if r.object = c then
        (s.withHandle i arena k rights).owners (.close s.nextId :: d) a else 0)
      { base := (arena.insert s.nextId).1, object := k, rights, arena := i }
    have hold : (s.handles.weight fun a r => if r.object = c then
        (s.withHandle i arena k rights).owners (.close s.nextId :: d) a else 0) =
        s.handleCount c := by
      rw [h.counted]
      refine Store.weight_congr fun a => ?_
      unfold Store.share
      cases hr : s.handles[a]? with
      | none => rfl
      | some r =>
        have hne : s.nextId ≠ a := by
          rintro rfl
          rw [hfresh] at hr
          cases hr
        dsimp only [Option.elim]
        rw [howners, if_neg hne, Nat.add_zero]
    rw [hold, howners, if_pos rfl, hunowned] at hweight
    rw [System.handleCount_withHandle i arena rights hk]
    exact hweight.symm

/-! ## 2. The order through all moves

Each move changes owners, slots or counts in step.  The moves that create and destroy handles
change all three, and the others none. -/

/-- An object that goes had no handles. -/
theorem handleCount_gone {k : Koid} (h : Slotted s (.release (.object k) :: d))
    (hacc : Accounted s (.release (.object k) :: d)) (h1 : s.refCount (.object k) = 1)
    (ho : t.objects = s.objects.erase k) (c : Koid) : t.handleCount c = s.handleCount c := by
  have hheld := hacc.held_eq_zero h1
  have hzero := h.handleCount_eq_zero (k := k) fun a r hr he => by
    have := held_of_handle hr
    rw [he, hheld] at this
    exact Nat.lt_irrefl 0 this
  unfold System.handleCount at hzero ⊢
  rw [ho, Store.getElem?_erase]
  split
  · rename_i he
    rw [← he, hzero]
    rfl
  · rfl

/-- Dues that close nothing do not matter. -/
theorem congr_dues (h : Slotted s d) (he : ∀ a, s.owners e a = s.owners d a) : Slotted s e :=
  h.congr he rfl (fun _ => rfl) fun _ => rfl

end Slotted

/-- Dues that give back references own no handle: ownership is given up by closing. -/
theorem System.owners_releases {s : System} (x : Option Nat) (f : Nat → Ref) (d : List Task)
    (a : HandleId) : s.owners ((x.toList.map fun p => .release (f p)) ++ d) a = s.owners d a := by
  cases x with
  | none => rfl
  | some p => exact System.owners_cons_of_ne (by simp)

/-- **Declines keep the slots in order.** -/
theorem Decline.slotted {K P : Koid → Prop} {w w' : World} (h : Decline K P w w')
    (hacc : Accounted w.system w.dues) (hs : Slotted w.system w.dues) :
    Slotted w'.system w'.dues := by
  have hrelease : ∀ {s : System} {r : Ref} {d : List Task} (a : HandleId),
      s.owners (.release r :: d) a = s.owners d a :=
    fun a => System.owners_cons_of_ne (by simp)
  have hshut : ∀ {s : System} {t : TableId} {d : List Task} (a : HandleId),
      s.owners (.closeTable t :: d) a = s.owners d a :=
    fun a => System.owners_cons_of_ne (by simp)
  cases h with
  | inert h =>
    refine hs.congr (fun a => ?_) h.arenas h.handle fun k => congrArg (·.getD 0) (h.object k)
    unfold System.owners System.owned
    rw [h.tables]
  | reorder h => exact hs.congr_dues (System.owners_perm h)
  | share h => exact hs.congr hrelease rfl (fun _ => rfl) fun _ => rfl
  | unshare h => exact hs.congr (fun a => (hrelease a).symm) rfl (fun _ => rfl) fun _ => rfl
  | @job s d k j h hj =>
    refine hs.congr (fun a => ?_) rfl (fun _ => rfl) (hs.handleCount_gone hacc h rfl)
    exact (System.owners_releases j.parent .object d a).trans (hrelease a).symm
  | process h =>
    refine hs.congr (fun a => ?_) rfl (fun _ => rfl) (hs.handleCount_gone hacc h rfl)
    exact (hrelease a).trans ((hshut a).trans (hrelease a).symm)
  | view h =>
    refine hs.congr (fun a => ?_) rfl (fun _ => rfl) (hs.handleCount_gone hacc h rfl)
    exact (hrelease a).trans (hrelease a).symm
  | witness h =>
    refine hs.congr (fun a => ?_) rfl (fun _ => rfl) (hs.handleCount_gone hacc h rfl)
    exact (hrelease a).symm
  | @handle s d x r h1 hh =>
    -- the last reference to a handle is not its owner's
    have hzero : s.owners (.release (.handle x) :: d) x = 0 := by
      have hcount := hacc.refCount_handle x
      dsimp only at hcount
      rw [h1] at hcount
      omega
    exact hs.erase_handle hzero (fun a => (hrelease a).trans (hrelease a).symm) rfl rfl
      fun _ => rfl
  | @vmo s d v o h ho =>
    obtain ⟨families, he, -⟩ := s.withoutVmo_eq v o
    rw [he]
    refine hs.congr (fun a => ?_) rfl (fun _ => rfl) fun _ => rfl
    exact (System.owners_releases o.parent .vmo d a).trans (hrelease a).symm
  | mapping h => exact hs.congr (fun a => (hrelease a).symm) rfl (fun _ => rfl) fun _ => rfl
  | listener h => exact hs.congr (fun a => (hrelease a).symm) rfl (fun _ => rfl) fun _ => rfl
  | idle h => exact hs.congr_dues fun a => (hrelease a).symm
  | void h hr => exact hs.congr (fun a => (hrelease a).symm) rfl (fun _ => rfl) fun _ => rfl
  | @closed s d x hh =>
    -- whoever has to close a handle is its owner, so it is there
    obtain ⟨r, hr⟩ := hacc.handle_of_owners (a := x) (by
      dsimp only
      rw [System.owners_close, if_pos rfl]
      exact Nat.succ_pos _)
    rw [hh] at hr
    cases hr
  | close hh => exact hs.closed hh
  | shut ht => exact hs.congr_dues fun a => (hshut a).symm
  | closeTable ht => exact hs.congr (System.owners_closeTable ht) rfl (fun _ => rfl) fun _ => rfl
  | emptyTable ht => exact hs.congr (System.owners_emptyTable ht) rfl (fun _ => rfl) fun _ => rfl
  | fades hj h => exact hs.congr (fun _ => rfl) rfl (fun _ => rfl) fun _ => rfl
  | ends hp hk h => exact hs.congr (fun _ => rfl) rfl (fun _ => rfl) fun _ => rfl

/-- **Births keep the slots in order.** -/
theorem Birth.slotted {A C : Prop} {w w' : World} (h : Birth A C w w')
    (hacc : Accounted w.system w.dues) (hs : Slotted w.system w.dues) :
    Slotted w'.system w'.dues := by
  have hrelease : ∀ {s : System} {r : Ref} {d : List Task} (a : HandleId),
      s.owners (.release r :: d) a = s.owners d a :=
    fun a => System.owners_cons_of_ne (by simp)
  -- a handle is the only thing born that takes a slot; what moves between tables and dues has one
  -- owner before and after
  cases h with
  | job | child | process | view | witness =>
    exact hs.congr hrelease rfl (fun _ => rfl) (hacc.handleCount_born rfl)
  | list | unlist | resize | rewire => exact hs.congr (fun _ => rfl) rfl (fun _ => rfl) fun _ => rfl
  | vmo | clone | mapping | listener =>
    exact hs.congr hrelease rfl (fun _ => rfl) fun _ => rfl
  | @arena s d i hi hlt capacity =>
    have hget : ∀ j : Nat, (s.arenas.insert i (Arena.ofCapacity capacity))[j]? =
        if i = j then some (Arena.ofCapacity capacity) else s.arenas[j]? :=
      fun j => Store.getElem?_insert _ _ _ _
    constructor
    case wf =>
      intro j b hb
      have hb := hget j ▸ hb
      split at hb
      · cases hb
        exact Arena.wf_ofCapacity capacity
      · exact hs.wf hb
    case slot =>
      intro a r hr hown
      obtain ⟨b, hb, hplace⟩ := hs.slot hr hown
      refine ⟨b, ?_, hplace⟩
      rw [hget, if_neg]
      · exact hb
      · rintro rfl
        rw [hi] at hb
        cases hb
    case owner =>
      intro j b n g x hb hn
      have hb := hget j ▸ hb
      split at hb
      · cases hb
        simp [Arena.ofCapacity] at hn
      · exact hs.owner hb hn
    case counted => exact hs.counted
  | @table s d d' process arena hd =>
    have hfresh : s.tables[s.nextId]? = none := by
      rw [← Store.contains_eq_false_iff, Bool.eq_false_iff]
      exact fun hc => Nat.lt_irrefl _ (hacc.bounded.table hc)
    have hdues : ∀ a, d'.count (.close a) = d.count (.close a) := by
      intro a
      rcases hd with rfl | rfl
      · rfl
      · exact List.count_cons_of_ne (by simp)
    refine hs.congr (fun a => ?_) rfl (fun _ => rfl) fun _ => rfl
    unfold System.owners
    dsimp only
    rw [hdues]
    exact congrArg (· + d.count (.close a)) (System.owned_openTable hfresh process arena a)
  | @handle s d i arena k rights hi hf hk =>
    exact hs.opened hacc hi hf (Accounted.object_of_present hacc hk)
  | adopt ht hh => exact hs.congr (System.owners_adopt ht _ _) rfl (fun _ => rfl) fun _ => rfl
  | expel ht hh => exact hs.congr (System.owners_expel ht hh) rfl (fun _ => rfl) fun _ => rfl

/-- **In every state that is passed the slots are in order.** -/
theorem World.Passed.slotted {A C : Prop} {w : World} (h : Passed A C w) :
    Slotted w.system w.dues := by
  refine h.keeps (I := fun w => Slotted w.system w.dues) Slotted.initial
    fun v v' hacc hmove hs => ?_
  rcases hmove with hmove | hmove
  · exact hmove.slotted hacc hs
  · exact hmove.slotted hacc hs

/-! ## 3. What an arena promises

In terms of what a client sees: values, look-ups, counts and refusals. -/

namespace World

/-- A live handle: somebody owns it. -/
def Live (w : World) (h : HandleId) (r : Handle) : Prop :=
  w.system.handles[h]? = some r ∧ 0 < w.system.owners w.dues h

/-- What holds of an arena for those who hold handles and for those who make them. -/
structure ArenaSound (w : World) (i : ArenaId) (a : Arena) : Prop where
  /-- A value is resolved to the live handle whose value it is, and to nothing else. -/
  find : ∀ v h, w.system.findHandle i v = some h ↔ ∃ r, w.Live h r ∧ r.arena = i ∧ r.base = v
  apart : ∀ {h h' : HandleId} {r r' : Handle}, w.Live h r → w.Live h' r' → r.arena = i →
    r'.arena = i → r.base = r'.base → h = h'
  value : ∀ {h : HandleId} {r : Handle}, w.Live h r → r.arena = i → 0 < r.base ∧ r.base < 2 ^ 32
  free_nodup : a.free.Nodup
  mem_free : ∀ n, n ∈ a.free ↔ ∃ s, a.slots[n]? = some s ∧ s.handle = none
  outstanding : a.outstanding = a.slots.toList.countP fun s => s.handle.isSome
  highWater : a.slots.size = a.highWater ∧ a.highWater ≤ a.capacity
  /-- A live handle has one owner, who can close it: its slot holds it, and there is something to
  take from both counts. -/
  owner : ∀ {h : HandleId} {r : Handle}, w.Live h r → r.arena = i →
    w.system.owners w.dues h = 1 ∧
    a.slots[index r.base]? = some ⟨generation r.base, some h⟩ ∧
    0 < a.outstanding ∧ 0 < w.system.handleCount r.object
  /-- Only a full arena refuses, unless there is no memory for a new slot. -/
  refuses : ∀ k rights mayGrow, (∃ e, (w.system.makeHandle i k rights mayGrow).1 = .error e) ↔
    a.outstanding = a.capacity ∨ mayGrow = false ∧ a.outstanding = a.slots.size
  refused : ∀ k rights mayGrow e, (w.system.makeHandle i k rights mayGrow).1 = .error e →
    e = .noMemory ∧ (w.system.makeHandle i k rights mayGrow).2.arenas = w.system.arenas ∧
    (w.system.makeHandle i k rights mayGrow).2.handles = w.system.handles ∧
    (w.system.makeHandle i k rights mayGrow).2.objects = w.system.objects

end World

/-- What is found under a value stands in the slot that the value points to. -/
theorem Arena.Wf.find?_eq_some_iff {a : Arena} (h : a.Wf) {v : Nat} {x : HandleId} :
    a.find? v = some x ↔ a.slots[index v]? = some ⟨HandleValue.generation v, some x⟩ := by
  unfold Arena.find?
  constructor
  · intro hfind
    split at hfind
    · cases hfind
    · split at hfind
      · cases hfind
      · rename_i s hs
        split at hfind
        · rename_i hg
          rw [hs, ← hg, ← hfind]
        · cases hfind
  · intro hs
    obtain ⟨hlt, -⟩ := Array.getElem?_eq_some_iff.1 hs
    have hsize := h.size_le
    rw [if_neg (by omega), hs]
    exact if_pos rfl

/-- When an arena refuses, and that it stays as it is. -/
theorem System.makeHandle_error {s : System} {i : ArenaId} {a : Arena}
    (hi : s.arenas[i]? = some a) (k : Koid) (rights : Rights) (mayGrow : Bool) :
    ((∃ e, (s.makeHandle i k rights mayGrow).1 = .error e) ↔
      a.isFull = true ∨ mayGrow = false ∧ a.free = []) ∧
    ∀ e, (s.makeHandle i k rights mayGrow).1 = .error e →
      e = .noMemory ∧ (s.makeHandle i k rights mayGrow).2.arenas = s.arenas ∧
      (s.makeHandle i k rights mayGrow).2.handles = s.handles ∧
      (s.makeHandle i k rights mayGrow).2.objects = s.objects := by
  unfold makeHandle
  rw [hi]
  dsimp only
  -- The two guards one after the other; an arena that is full is refused whether the list may
  -- grow or not.
  by_cases hf : a.isFull = true
  · rw [if_pos hf]
    refine ⟨iff_of_true ⟨_, rfl⟩ (.inl hf), fun e he => ?_⟩
    cases he
    exact ⟨rfl, rfl, rfl, rfl⟩
  · rw [if_neg hf]
    by_cases hg : (a.free.isEmpty && !mayGrow) = true
    · rw [if_pos hg]
      rw [Bool.and_eq_true, List.isEmpty_iff, Bool.not_eq_true'] at hg
      refine ⟨iff_of_true ⟨_, rfl⟩ (.inr ⟨hg.2, hg.1⟩), fun e he => ?_⟩
      cases he
      exact ⟨rfl, rfl, rfl, rfl⟩
    · rw [if_neg hg]
      refine ⟨iff_of_false ?_ ?_, by simp⟩
      · rintro ⟨e, he⟩
        cases he
      · rintro (h | ⟨hm, hn⟩)
        · exact hf h
        · simp [hm, hn] at hg

/-- A live handle stands in the slot that its value points to. -/
theorem Slotted.slot_of_live {w : World} (h : Slotted w.system w.dues) {x : HandleId} {r : Handle}
    (hx : w.Live x r) {a : Arena} (ha : w.system.arenas[r.arena]? = some a) :
    a.slots[index r.base]? = some ⟨generation r.base, some x⟩ := by
  obtain ⟨b, hb, hplace⟩ := h.slot hx.1 hx.2
  rw [ha] at hb
  cases hb
  exact hplace

/-- An arena finds under a value the live handle whose value it is, and nothing else. -/
theorem World.Passed.findHandle_eq_some_iff {w : World} (h : Passed True True w) {i : ArenaId}
    {a : Arena} (hi : w.system.arenas[i]? = some a) (v : Nat) (x : HandleId) :
    w.system.findHandle i v = some x ↔ ∃ r, w.Live x r ∧ r.arena = i ∧ r.base = v := by
  have hs := h.slotted
  have hfind : w.system.findHandle i v = a.find? v := by
    unfold System.findHandle
    rw [hi]
    rfl
  rw [hfind, (hs.wf hi).find?_eq_some_iff]
  constructor
  · intro hplace
    obtain ⟨hone, r, hr, harena, hbase⟩ := hs.owner hi hplace
    exact ⟨r, ⟨hr, by omega⟩, harena, hbase.trans (encode_generation_index v)⟩
  · rintro ⟨r, hx, rfl, rfl⟩
    exact hs.slot_of_live hx hi

/-- **An arena does what it promises**, between operations and in the midst of them, whatever its
capacity and whatever was made, duplicated, moved and closed before. -/
theorem World.Passed.arena_sound {w : World} (h : Passed True True w) {i : ArenaId} {a : Arena}
    (hi : w.system.arenas[i]? = some a) : w.ArenaSound i a := by
  have hs := h.slotted
  have hwf := hs.wf hi
  have hslot : ∀ {x : HandleId} {r : Handle}, w.Live x r → r.arena = i →
      a.slots[index r.base]? = some ⟨generation r.base, some x⟩ :=
    fun hx he => hs.slot_of_live hx (he.symm ▸ hi)
  constructor
  case find => exact fun v x => h.findHandle_eq_some_iff hi v x
  case apart =>
    intro x y r q hx hy hr hq hbase
    exact hs.slot_inj hx.1 hy.1 hx.2 hy.2 (hr.trans hq.symm) (congrArg index hbase)
  -- A value is below the end of the word because the generation is below its own end, and it is
  -- not zero because the generation is not.
  case value =>
    intro x r hx he
    obtain ⟨hpos, hlt⟩ := hwf.generation (hslot hx he)
    have hindex : index r.base < indexCount := hwf.index_lt (hslot hx he)
    rw [← encode_generation_index r.base]
    unfold encode
    have hcount : generationCount * indexCount = 2 ^ 32 := by decide
    have hle : (generation r.base + 1) * indexCount ≤ generationCount * indexCount :=
      Nat.mul_le_mul_right _ hlt
    have hfirst : 1 * indexCount ≤ generation r.base * indexCount := Nat.mul_le_mul_right _ hpos
    rw [Nat.add_mul] at hle
    have hsome : 0 < indexCount := by decide
    omega
  case free_nodup => exact hwf.nodup
  case mem_free => exact hwf.mem_free
  case outstanding => exact hwf.countP_taken.symm
  case highWater => exact ⟨hwf.highWater.symm, hwf.highWater ▸ hwf.size_le⟩
  case owner =>
    intro x r hx he
    have hone := hs.owners_eq_one hx.1 hx.2
    refine ⟨hone, hslot hx he, hwf.outstanding_pos (hslot hx he), ?_⟩
    rw [hs.counted]
    exact Store.weight_pos hx.1 (by rw [if_pos rfl]; exact hx.2)
  case refuses =>
    intro k rights mayGrow
    have hout := hwf.outstanding
    rw [(System.makeHandle_error hi k rights mayGrow).1, hwf.isFull_iff]
    have hempty : a.free = [] ↔ a.outstanding = a.slots.size := by
      rw [← List.length_eq_zero_iff]
      omega
    rw [hempty]
  case refused =>
    intro k rights mayGrow
    exact (System.makeHandle_error hi k rights mayGrow).2

/-- An arena with one slot, after a handle was made, closed and another one was made. -/
theorem World.Passed.arena_sound_of_reuse :
    (run [.newArena 1, .createWitness "w" .empty, .makeHandle 1 1024 .basic true, .drop (.close 2),
      .makeHandle 1 1024 .basic true]).ArenaSound 1
      { capacity := 1, slots := #[⟨2, some 3⟩], free := [], outstanding := 1, highWater := 1 } :=
  arena_sound (reachable_run _).passed (by cbv)

end KernelObjects
