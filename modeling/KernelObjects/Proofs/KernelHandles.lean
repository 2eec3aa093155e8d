import KernelObjects.Script.Objects
import KernelObjects.Proofs.Generations

/-
# When objects are told that nobody holds them

An object is told when its last handle is closed, and when a kernel handle lets go of it.  These
are two mechanisms with one hook, and a kernel handle may pass its object on to the other side: it
turns into a handle without a call, unless no handle can be made.

A desk is a client with kernel handles (`Desk`).  Each of them holds a reference that the client
cannot spend otherwise.  For every run of a desk the calls to an object are counted
(`Desk.zeroHandles_counted`): one for each time at which its count of handles went from one to
zero, and one for each time at which a kernel handle was reset, replaced or dropped while it held
the object, and no others.

The two sides do not know of each other.  An object whose last handle is closed is told, also if a
kernel handle still holds it; and one that a kernel handle lets go of is told, also if handles to
it are left.  So an object may be told several times, and there is nothing to count but the
occasions.

At the moment of a call the object is there (`TellsLast`).  The handle that is being closed has
given up its slot and its share of the count by then, and holds its reference to the object until
the call is over.
-/

namespace KernelObjects

open HandleValue

/-! ## 1. What a tick tells

The count of an object is the number of its live handles, so a handle that is closed is the last
one exactly if the count goes to zero. -/

/-- Records that contribute at most one each weigh as many as contribute one. -/
theorem Store.weight_eq_ncard {α : Type} {s : Store α} {f : Nat → α → Nat}
    (h : ∀ k v, s[k]? = some v → f k v ≤ 1) :
    s.weight f = {k : Nat | ∃ v, s[k]? = some v ∧ 0 < f k v}.ncard := by
  have hshare : ∀ k ∈ s.keys.toFinset, s.share f k = if 0 < s.share f k then 1 else 0 := by
    intro k _
    cases hv : s[k]? with
    | none => rw [share_of_none hv]; rfl
    | some v =>
      have := h k v hv
      rw [share_of_some hv]
      split <;> omega
  have hset : {k : Nat | ∃ v, s[k]? = some v ∧ 0 < f k v} =
      (s.keys.toFinset.filter fun k => 0 < s.share f k : Finset Nat) := by
    ext k
    rw [Finset.mem_coe, Finset.mem_filter, List.mem_toFinset, mem_keys_iff]
    cases hv : s[k]? with
    | none => simp [hv]
    | some v => simp [hv]
  rw [hset, Set.ncard_coe_finset, Finset.card_filter]
  exact Finset.sum_congr rfl hshare

/-- **An object counts its live handles**, over all arenas. -/
theorem World.Passed.handleCount_eq_ncard {w : World} (hp : w.Passed True True) (k : Koid) :
    w.system.handleCount k = {h : HandleId | ∃ r, w.Live h r ∧ r.object = k}.ncard := by
  have hs := hp.slotted
  rw [hs.counted, Store.weight_eq_ncard]
  · congr 1
    ext h
    constructor
    · rintro ⟨r, hr, hpos⟩
      split at hpos
      · rename_i he
        exact ⟨r, ⟨hr, hpos⟩, he⟩
      · cases hpos
    · rintro ⟨r, hl, he⟩
      exact ⟨r, hl.1, by rw [if_pos he]; exact hl.2⟩
  · intro h r hr
    split
    · rcases Nat.eq_zero_or_pos (w.system.owners w.dues h) with h0 | hpos
      · omega
      · exact Nat.le_of_eq (hs.owners_eq_one hr hpos)
    · exact Nat.zero_le _

namespace World

/-- The object of a handle is told because its last handle is closed: it is still there, and by then
its count is zero and the slot of the handle is free. -/
structure TellsLast (u v : World) (h : HandleId) (r : Handle) : Prop where
  live : u.Live h r
  last : u.system.handleCount r.object = 1
  zero : (u.system.closing r).handleCount r.object = 0
  free : ∃ g, (u.system.closing r).slot r.arena (index r.base) = some ⟨g, none⟩
  alive : (u.system.closing r).Present (.object r.object)
  tells : v.system = (u.system.closing r).zeroHandles r.object

/-- A handle that is closed leaves a free slot behind and keeps its object for the call. -/
theorem Live.tellsLast {u v : World} {h : HandleId} {r : Handle} (hl : u.Live h r)
    (hp : u.Passed True True) (hone : u.system.handleCount r.object = 1)
    (hv : v.system = (u.system.closing r).zeroHandles r.object) : u.TellsLast v h r where
  live := hl
  last := hone
  zero := by
    have hcount := u.system.handleCount_withoutSlot r r.object
    rw [if_pos rfl, hone] at hcount
    exact hcount
  free := by
    obtain ⟨a, ha, hplace⟩ := hp.slotted.slot hl.1 hl.2
    obtain ⟨-, hfreed⟩ := (hl.slot_closing hp (System.slot_eq.2 ⟨a, ha, hplace⟩)).resolve_left
      fun h => h.1 rfl
    exact ⟨_, hfreed⟩
  alive := by
    have hthere : u.system.Present (.object r.object) :=
      hp.accounted.present_of_held (held_of_handle hl.1)
    exact hthere
  tells := hv

end World

/-- **What a tick tells**: nothing, and then it takes no count from one to zero; or the object whose
last handle it closes; or the object that a kernel handle lets go of. -/
theorem Tick.told {K : World → Koid → Prop} {l : Option Koid} {u v : World} (h : Tick K l u v)
    (hp : u.Passed True True) :
    (l = none ∧ v.system.told = u.system.told ∧
      ∀ k, u.system.handleCount k = 1 → v.system.handleCount k ≠ 0) ∨
    (l = none ∧ ∃ x r, u.TellsLast v x r ∧ v.system.told = r.object :: u.system.told ∧
      v.system.handleCount r.object = 0 ∧
      ∀ k ≠ r.object, v.system.handleCount k = u.system.handleCount k) ∨
    ∃ k, l = some k ∧ K u k ∧ v.system = u.system.zeroHandles k ∧
      v.system.told = k :: u.system.told ∧
      ∀ c, v.system.handleCount c = u.system.handleCount c := by
  -- The sorts of ticks.  At the end of a handle the count of its object goes down by one, and
  -- what is told depends on whether that was the last.
  obtain ⟨hl, -, hc, ht⟩ | ⟨hl, x, r, hx, he⟩ | ⟨hl, a, arena, k, rights, ha, -, hk, he⟩ |
    ⟨k, hl, hk, he⟩ := h.sort hp
  · exact .inl ⟨hl, ht, fun k hk => by rw [hc, hk]; exact Nat.one_ne_zero⟩
  · have hcount : ∀ k, (u.system.closing r).handleCount k = if r.object = k
        then u.system.handleCount k - 1 else u.system.handleCount k :=
      u.system.handleCount_withoutSlot r
    split at he
    · rename_i hone
      have htell := (u.system.closing r).hands_zeroHandles r.object
      rw [← he] at htell
      have hsame : ∀ k, v.system.handleCount k = (u.system.closing r).handleCount k :=
        fun k => congrFun (congrArg Hands.counts htell) k
      refine .inr (.inl ⟨hl, x, r, hx.tellsLast hp hone he, congrArg Hands.told htell, ?_, ?_⟩)
      · rw [hsame, hcount, if_pos rfl, hone]
      · intro k hk
        rw [hsame, hcount, if_neg (Ne.symm hk)]
    · rename_i hmore
      refine .inl ⟨hl, he ▸ rfl, fun k hk => ?_⟩
      rw [he, hcount]
      split
      · rename_i hrk
        exact absurd (hrk ▸ hk) hmore
      · omega
  · refine .inl ⟨hl, he ▸ rfl, fun c hc => ?_⟩
    rw [he, System.handleCount_withHandle a arena rights (hp.accounted.object_of_present hk)]
    omega
  · have htell := u.system.hands_zeroHandles k
    rw [← he] at htell
    exact .inr (.inr ⟨k, hl, hk, he, congrArg Hands.told htell,
      fun c => congrFun (congrArg Hands.counts htell) c⟩)

/-- How often on the way an object lost its last handle. -/
def World.losses (k : Koid) : World → List (Option Koid × World) → Nat :=
  passages (fun w => w.system.handleCount k == 1) fun w => w.system.handleCount k == 0

/-- **The calls on the way**: one for each time at which the object lost its last handle, and one
for each kernel handle that let go of it. -/
theorem Trail.count_told {K : World → Koid → Prop} {w w' : World}
    {ls : List (Option Koid × World)} (h : Trail K w ls w') (hp : w.Passed True True) (k : Koid) :
    w'.system.told.count k =
      w.system.told.count k + (World.losses k w ls + (stops ls).count k) := by
  induction h with
  | nil => rfl
  | @cons w v w' l ls htick rest ih =>
    have hloss : World.losses k w ((l, v) :: ls) = World.losses k v ls +
        if w.system.handleCount k == 1 && v.system.handleCount k == 0 then 1 else 0 :=
      passages_cons _ _ _ _ _ _
    rw [ih (hp.trans htick.moves), hloss]
    -- A tick tells nobody, or the one who lost the last handle, or the one that was let go of.
    -- The sum counts the last two apart, and each of them has one call.
    obtain ⟨rfl, ht, hc⟩ | ⟨rfl, x, r, htell, ht, hzero, hc⟩ | ⟨c, rfl, -, -, ht, hc⟩ :=
      htick.told hp
    · have hstops : stops ((none, v) :: ls) = stops ls := rfl
      rw [ht, hstops, if_neg]
      · omega
      · simpa using hc k
    · have hstops : stops ((none, v) :: ls) = stops ls := rfl
      rw [ht, hstops, List.count_cons]
      by_cases hk : r.object = k
      · subst hk
        rw [htell.last, hzero]
        simp
        omega
      · rw [hc k (Ne.symm hk), if_neg (by simpa using hk), if_neg]
        · omega
        · simp
          omega
    · have hstops : stops ((some c, v) :: ls) = c :: stops ls := rfl
      have hsame := hc k
      rw [ht, hstops, List.count_cons, List.count_cons,
        if_neg (c := (w.system.handleCount k == 1 && v.system.handleCount k == 0) = true)]
      · omega
      · simp
        omega

/-! ## 2. A client with kernel handles

A kernel handle is not an object of the system: it is a reference in the hands of a client, who
has to see that it is let go of once.  The desk keeps book of these references beside the dues. -/

/-- A client with kernel handles.  A kernel handle that holds an object holds one of the client's
references to it. -/
structure Desk where
  world : World := {}
  /-- What each kernel handle holds, if anything. -/
  kernels : List (Option Koid) := []

/-- What a client with kernel handles can do. -/
inductive Deed where
  | op (o : Op)
  /-- Puts a reference into a new kernel handle. -/
  | new (k : Koid)
  /-- Makes an empty kernel handle. -/
  | empty
  /-- Puts another reference, or nothing, into a kernel handle. -/
  | reset (held next : Option Koid)
  /-- Takes the reference out of a kernel handle. -/
  | release (held : Option Koid)
  | drop (held : Option Koid)
  /-- Turns a kernel handle into a handle. -/
  | make (arena : ArenaId) (held : Option Koid) (rights : Rights)

/-- A kernel handle lets go of what it holds, as if it was dropped. -/
def World.letGo (w : World) : Option Koid → World
  | none => w
  | some k =>
    ⟨(Script.Binding.kernel (w.system.typeOf k) (some k)).drop w.system,
      w.dues.erase (.release (.object k))⟩

/-- A script that resets a kernel handle takes a reference to the new object and lets go of the old
one. -/
theorem Script.system_reset (s : Session) (kernel : String) (type : ObjectType)
    (held next : Option Koid) (d : List Task) :
    (ObjectCommand.reset s kernel type held next).system =
      (World.letGo ⟨s.system.retainAll (next.toList.map .object), d⟩ held).system := by
  cases next <;> cases held <;> rfl

namespace Desk

/-- Whether the client has a reference to an object that no kernel handle holds. -/
def Spare (d : Desk) (k : Koid) : Prop :=
  d.kernels.count (some k) < d.world.dues.count (.release (.object k))

instance (d : Desk) (k : Koid) : Decidable (d.Spare k) := inferInstanceAs (Decidable (_ < _))

/-- Whether an operation leaves the references of kernel handles, and the calls, to them. -/
def allows (d : Desk) : Op → Bool
  | .zeroHandles _ | .makeFromKernel _ (some _) _ => false
  | .drop (.release (.object k)) => d.Spare k
  | _ => true

/-- Does a deed.  One that needs a kernel handle or a reference that is not there does nothing. -/
def act (d : Desk) : Deed → Desk
  | .op o => if d.allows o then { d with world := d.world.act o } else d
  | .new k => if d.Spare k then { d with kernels := some k :: d.kernels } else d
  | .empty => { d with kernels := none :: d.kernels }
  | .reset held next =>
    if held ∈ d.kernels ∧ ∀ k ∈ next, d.Spare k then
      ⟨d.world.letGo held, next :: d.kernels.erase held⟩
    else d
  | .release held =>
    if held ∈ d.kernels then { d with kernels := none :: d.kernels.erase held } else d
  | .drop held =>
    if held ∈ d.kernels then ⟨d.world.letGo held, d.kernels.erase held⟩ else d
  | .make arena held rights =>
    if held ∈ d.kernels then
      ⟨d.world.act (.makeFromKernel arena held rights), d.kernels.erase held⟩
    else d

/-- The object that a kernel handle stops holding by a deed and is not passed on. -/
def letsGo (d : Desk) : Deed → Option Koid
  | .reset held next => if held ∈ d.kernels ∧ ∀ k ∈ next, d.Spare k then held else none
  | .drop held => if held ∈ d.kernels then held else none
  | .make arena held rights =>
    if held ∈ d.kernels then
      match (d.world.system.makeFromKernel arena held rights).1 with
      | .ok _ => none
      | .error _ => held
    else none
  | _ => none

/-- The objects that kernel handles stop holding in a run. -/
def letGos : Desk → List Deed → List Koid
  | _, [] => []
  | d, c :: cs => (d.letsGo c).toList ++ letGos (d.act c) cs

/-- The kernel handles hold references that the client has. -/
def Backed (d : Desk) : Prop :=
  ∀ k, d.kernels.count (some k) ≤ d.world.dues.count (.release (.object k))

end Desk

/-- Only where the client still has the reference of a kernel handle can it let go. -/
def World.Holds (w : World) (k : Koid) : Prop := .release (.object k) ∈ w.dues

/-- The due that an operation uses up. -/
def Op.takes : Op → Option Task
  | drop t => some t
  | tableAdd _ h => some (.close h)
  | makeFromKernel _ (some k) _ => some (.release (.object k))
  | _ => none

namespace World

variable {w : World}

theorem count_le_after {α : Type} (r : Outcome α × System) (due : α → Task) (t : Task) :
    w.dues.count t ≤ (w.after r due).dues.count t := by
  obtain ⟨e | a, s⟩ := r
  · exact Nat.le_refl _
  · exact List.count_le_count_cons

theorem count_le_erase (d : List Task) (u t : Task) :
    d.count t ≤ (d.erase u).count t + if some u = some t then 1 else 0 := by
  rw [List.count_erase]
  by_cases h : u = t
  · simp [h]
    omega
  · simp [h]

/-- An operation uses up one due at most. -/
theorem count_le_act (o : Op) (t : Task) :
    w.dues.count t ≤ (w.act o).dues.count t + if o.takes = some t then 1 else 0 := by
  cases o with
  | createJob | createProcess | createVmo | cloneVmo | createView | duplicateHandle | tableRemove =>
    rw [act]
    exact Nat.le_add_right_of_le (count_le_after _ _ _)
  | createRootJob | createWitness | createListener | createMapping | openTable =>
    exact Nat.le_add_right_of_le List.count_le_count_cons
  | share r =>
    rw [act]
    split
    · exact Nat.le_add_right_of_le List.count_le_count_cons
    · exact Nat.le_add_right _ _
  | drop u =>
    rw [act]
    split
    · exact count_le_erase _ _ _
    · exact Nat.le_add_right _ _
  | makeHandle arena k rights mayGrow =>
    rw [act]
    split
    · exact Nat.le_add_right_of_le (count_le_after _ _ _)
    · exact Nat.le_add_right _ _
  -- Here the reference of the kernel handle is used up first, and what the answer brings is added
  -- to the rest.
  | makeFromKernel arena kernel rights =>
    cases kernel with
    | none => exact Nat.le_add_right_of_le (count_le_after _ _ _)
    | some k =>
      rw [act]
      split
      · refine Nat.le_trans (count_le_erase _ (.release (.object k)) t) ?_
        exact Nat.add_le_add_right (count_le_after (w := ⟨w.system, w.dues.erase _⟩) _ _ t) _
      · exact Nat.le_add_right _ _
  | tableAdd i x =>
    rw [act]
    split
    · exact count_le_erase _ _ _
    · exact Nat.le_add_right _ _
  | _ => exact Nat.le_add_right _ _

/-- There is a way on which kernel handles let go of the given objects and of no others. -/
def Way (w : World) (ks : List Koid) (w' : World) : Prop :=
  ∃ ls, Trail Holds w ls w' ∧ stops ls = ks

namespace Way

variable {v w' : World} {ks js : List Koid}

theorem refl : Way w [] w := ⟨[], .nil, rfl⟩

theorem trans (h : Way w ks v) (h' : Way v js w') : Way w (ks ++ js) w' := by
  obtain ⟨ls, hls, rfl⟩ := h
  obtain ⟨ms, hms, rfl⟩ := h'
  exact ⟨ls ++ ms, hls.append hms, stops_append ls ms⟩

theorem tell {k : Koid} (hk : w.Holds k) : Way w [k] ⟨w.system.zeroHandles k, w.dues⟩ :=
  ⟨_, .cons (.tell hk) .nil, rfl⟩

theorem of_trails {L : Liberties} (h : Trails Holds L w w') (hL : ∀ k, ¬ L.tells k) :
    Way w [] w' := by
  obtain ⟨ls, hls, hs⟩ := h
  exact ⟨ls, hls, List.eq_nil_iff_forall_not_mem.2 fun k hk => hL k (hs k hk)⟩

theorem aside (h : Moves True True w v) (hh : v.system.hands = w.system.hands) : Way w [] v :=
  of_trails (L := {}) (.aside h hh) fun _ => id

theorem reorder {s : System} {d e : List Task} (h : d.Perm e) : Way ⟨s, d⟩ [] ⟨s, e⟩ :=
  aside (System.reorder_moves s h) rfl

theorem release {s : System} {r : Ref} {d : List Task} :
    Way ⟨s, .release r :: d⟩ [] ⟨s.release r, d⟩ :=
  of_trails (L := {}) (s.settle_trails [.release r] d) fun _ => id

theorem moves (h : Way w ks w') : Moves True True w w' := by
  obtain ⟨ls, hls, -⟩ := h
  exact hls.moves

/-- Telling an object and giving back the reference to it. -/
theorem dropped {s : System} {k : Koid} {d : List Task} :
    Way ⟨s, .release (.object k) :: d⟩ [k] ⟨(s.zeroHandles k).release (.object k), d⟩ :=
  (tell (w := ⟨s, _⟩) List.mem_cons_self).trans release

end Way

/-- A kernel handle that lets go tells its object. -/
theorem letGo_way {held : Option Koid} (h : ∀ k ∈ held, w.Holds k) :
    w.Way held.toList (w.letGo held) := by
  cases held with
  | none => exact .refl
  | some k => exact (Way.reorder (List.perm_cons_erase (h k rfl))).trans .dropped

/-- A kernel handle that turns into a handle tells nobody, unless no handle can be made. -/
theorem makeFromKernel_way {k : Koid} (hp : w.Passed True True) (hk : w.Holds k)
    (arena : ArenaId) (rights : Rights) :
    w.Way (match (w.system.makeFromKernel arena (some k) rights).1 with
      | .ok _ => []
      | .error _ => [k]) (w.act (.makeFromKernel arena (some k) rights)) := by
  have hthere : w.system.Present (.object k) :=
    hp.accounted.present_of_owed (owed_pos hk (by simp [Task.holds]))
  have hdue : .release (.object k) ∈ w.dues := hk
  rw [act, if_pos hdue]
  refine (Way.reorder (List.perm_cons_erase hk)).trans ?_
  unfold System.makeFromKernel
  dsimp only
  cases hm : w.system.makeHandle arena k rights true with
  | mk result u =>
    -- No handle: the kernel handle is dropped, which tells its object.  A handle: its reference
    -- is given back without a call, as the handle has one of its own.
    cases result with
    | error e =>
      have hstill := System.still_of_makeHandle_error hm
      have hbooked : Way ⟨w.system, .release (.object k) :: w.dues.erase (.release (.object k))⟩ []
          ⟨u, .release (.object k) :: w.dues.erase (.release (.object k))⟩ :=
        .aside (Inert.moves hstill.toInert _) hstill.hands
      exact hbooked.trans .dropped
    | ok h =>
      obtain ⟨a, ha, hfull, rfl, rfl⟩ := System.makeHandle_ok hm
      have hmade : Way ⟨w.system, .release (.object k) :: w.dues.erase (.release (.object k))⟩ []
          ⟨w.system.withHandle arena a k rights, .close w.system.nextId ::
            .release (.object k) :: w.dues.erase (.release (.object k))⟩ :=
        .of_trails (L := {}) (.tick (.make ha hfull hthere)) fun _ => id
      exact hmade.trans ((Way.reorder (List.Perm.swap ..)).trans .release)

end World

/-- Operations by which neither kernel handles nor the client itself tell anybody. -/
theorem Desk.not_tells {d : Desk} {o : Op} (h : d.allows o = true) (s : System) (k : Koid) :
    ¬ (o.liberties s).tells k := by
  intro hk
  cases o with
  | zeroHandles => cases h
  | makeFromKernel _ kernel _ =>
    cases kernel with
    | none => exact hk
    | some _ => cases h
  | _ => exact hk

namespace Desk

variable {d : Desk}

/-- So a kernel handle that holds an object holds it for as long as it is there. -/
theorem Backed.holds (h : d.Backed) {held : Option Koid} (hh : held ∈ d.kernels) :
    ∀ k ∈ held, d.world.Holds k := by
  rintro k rfl
  exact List.count_pos_iff.1 (Nat.lt_of_lt_of_le (List.count_pos_iff.2 hh) (h k))

theorem count_le_letGo (w : World) (held : Option Koid) (k : Koid) :
    w.dues.count (.release (.object k)) ≤ (w.letGo held).dues.count (.release (.object k)) +
      if held = some k then 1 else 0 := by
  cases held with
  | none => exact Nat.le_add_right _ _
  | some c => simpa [World.letGo] using
      World.count_le_erase w.dues (.release (.object c)) (.release (.object k))

/-- One kernel handle less counts for its own object. -/
theorem count_erase_add {held : Option Koid} {ks : List (Option Koid)} (hh : held ∈ ks) (k : Koid) :
    (ks.erase held).count (some k) + (if held = some k then 1 else 0) = ks.count (some k) := by
  rw [List.count_erase]
  by_cases he : held = some k
  · have hpos : 0 < ks.count (some k) := List.count_pos_iff.2 (he ▸ hh)
    simp [he]
    omega
  · simp [he]

section Backed

variable {w : World} {held next : Option Koid}

/-- An operation spends no reference of a kernel handle. -/
theorem Backed.op (h : d.Backed) {o : Op} (hallowed : d.allows o = true) :
    Backed { d with world := d.world.act o } := by
  intro k
  have hle := World.count_le_act (w := d.world) o (.release (.object k))
  by_cases ht : o.takes = some (.release (.object k))
  · -- only a drop takes it, and then there is one to spare
    have hspare : d.Spare k := by
      cases o with
      | drop t =>
        injection ht with ht
        subst ht
        simpa [allows] using hallowed
      | makeFromKernel _ kernel _ =>
        cases kernel with
        | none => cases ht
        | some _ => cases hallowed
      | _ => cases ht
    unfold Spare at hspare
    rw [if_pos ht] at hle
    dsimp only
    omega
  · rw [if_neg ht] at hle
    exact Nat.le_trans (h k) hle

/-- There can be a kernel handle more, for a reference that is to spare. -/
theorem Backed.add (h : d.Backed) (hnext : ∀ k ∈ next, d.Spare k) :
    Backed { d with kernels := next :: d.kernels } := by
  intro k
  by_cases he : next = some k
  · subst he
    exact (List.count_cons_self).trans_le (hnext k rfl)
  · exact (List.count_cons_of_ne he).trans_le (h k)

/-- A kernel handle that goes takes one reference with it at most. -/
theorem Backed.erase (h : d.Backed) (hh : held ∈ d.kernels)
    (hw : ∀ k, d.world.dues.count (.release (.object k)) ≤
      w.dues.count (.release (.object k)) + if held = some k then 1 else 0) :
    Backed ⟨w, d.kernels.erase held⟩ := by
  intro k
  have hk := h k
  have hle := hw k
  have hone := count_erase_add hh k
  dsimp only
  omega

/-- What is spare stays so if a kernel handle goes and takes at most its own reference along. -/
theorem Spare.erase {k : Koid} (h : d.Spare k) (hh : held ∈ d.kernels)
    (hw : d.world.dues.count (.release (.object k)) ≤
      w.dues.count (.release (.object k)) + if held = some k then 1 else 0) :
    Spare ⟨w, d.kernels.erase held⟩ k := by
  have hone := count_erase_add hh k
  unfold Spare at h ⊢
  dsimp only
  omega

/-- **Kernel handles keep what they hold**: no deed spends a reference of a kernel handle. -/
theorem Backed.act (h : d.Backed) (c : Deed) : (d.act c).Backed := by
  unfold Desk.act
  -- A deed that ends a kernel handle may spend its reference and no more, so what the other ones
  -- hold is still there.  An operation is allowed only if it spends none of theirs.
  cases c with
  | op o =>
    dsimp only
    split
    · rename_i hallowed
      exact h.op hallowed
    · exact h
  | new k =>
    dsimp only
    split
    · rename_i hspare
      exact h.add fun c hc => Option.some.inj hc ▸ hspare
    · exact h
  | empty => exact h.add fun k hk => (by cases hk)
  | reset held next =>
    dsimp only
    split
    · rename_i hboth
      have hgone := count_le_letGo d.world held
      exact (h.erase hboth.1 hgone).add fun k hk => (hboth.2 k hk).erase hboth.1 (hgone k)
    · exact h
  | release held =>
    dsimp only
    split
    · rename_i hh
      exact (h.erase hh fun k => Nat.le_add_right _ _).add fun k hk => (by cases hk)
    · exact h
  | drop held =>
    dsimp only
    split
    · rename_i hh
      exact h.erase hh (count_le_letGo d.world held)
    · exact h
  | make arena held rights =>
    dsimp only
    split
    · rename_i hh
      refine h.erase hh fun k => ?_
      have hle := World.count_le_act (w := d.world) (.makeFromKernel arena held rights)
        (.release (.object k))
      have htakes : (Op.makeFromKernel arena held rights).takes = some (.release (.object k)) ↔
          held = some k := by
        cases held <;> simp [Op.takes]
      simp only [htakes] at hle
      exact hle
    · exact h

end Backed

/-- **Every deed is a way** on which kernel handles let go of what they stop holding by it. -/
theorem act_way (hp : d.world.Passed True True) (hb : d.Backed) (c : Deed) :
    d.world.Way (d.letsGo c).toList (d.act c).world := by
  unfold Desk.act letsGo
  -- New kernel handles and released ones move no reference of the state.  Apart from operations
  -- only resetting, dropping and making a handle do, and these are ways of their own.
  cases c with
  | op o =>
    dsimp only
    split
    · rename_i hallowed
      refine .of_trails (L := o.liberties d.world.system) ?_ (not_tells hallowed _)
      exact (World.act_stages hp.accounted o).trails hp.accounted fun v k hk =>
        absurd hk (not_tells hallowed _ k)
    · exact .refl
  | new k =>
    dsimp only
    split <;> exact .refl
  | empty => exact .refl
  | reset held next =>
    dsimp only
    split
    · rename_i hboth
      exact World.letGo_way (hb.holds hboth.1)
    · exact .refl
  | release held =>
    dsimp only
    split <;> exact .refl
  | drop held =>
    dsimp only
    split
    · rename_i hh
      exact World.letGo_way (hb.holds hh)
    · exact .refl
  | make arena held rights =>
    dsimp only
    split
    · rename_i hh
      cases held with
      | none => exact .refl
      | some k =>
        have hway := World.makeFromKernel_way hp (hb.holds hh k rfl) arena rights
        revert hway
        cases (d.world.system.makeFromKernel arena (some k) rights).1 <;> exact id
    · exact .refl

/-- Does deeds one after the other, from the state before anything happened. -/
def run (cs : List Deed) : Desk := cs.foldl act {}

/-- **Every run of deeds is a way** on which kernel handles let go of what they stop holding. -/
theorem foldl_way (hp : d.world.Passed True True) (hb : d.Backed) (cs : List Deed) :
    d.world.Way (d.letGos cs) (cs.foldl act d).world ∧ (cs.foldl act d).Backed := by
  induction cs generalizing d with
  | nil => exact ⟨.refl, hb⟩
  | cons c cs ih =>
    have hstep := d.act_way hp hb c
    obtain ⟨hrest, hend⟩ := ih (hp.trans hstep.moves) (hb.act c)
    exact ⟨hstep.trans hrest, hend⟩

/-- A handle that is made from a kernel handle replaces it, and nobody is told. -/
theorem told_makeFromKernel {s t : System} {d : List Task} {k : Koid} (hacc : Accounted s d)
    (hk : .release (.object k) ∈ d) {arena : ArenaId} {rights : Rights} {h : HandleId}
    (hm : s.makeFromKernel arena (some k) rights = (.ok h, t)) : t.told = s.told := by
  unfold System.makeFromKernel at hm
  dsimp only at hm
  cases hmake : s.makeHandle arena k rights true with
  | mk result u =>
    rw [hmake] at hm
    cases result with
    | error e => cases hm
    | ok h' =>
      obtain ⟨a, -, -, rfl, rfl⟩ := System.makeHandle_ok hmake
      cases hm
      have hmany : 1 < (s.withHandle arena a k rights).refCount (.object k) := by
        have hone : 0 < s.refCount (.object k) := (hacc.present _).1
          (hacc.present_of_owed (owed_pos hk (by simp [Task.holds])))
        have hcount : (s.refs.retain (.object k)).count (.object k) = s.refCount (.object k) + 1 :=
          (RefCounts.count_retain _ _ _).trans (if_pos rfl)
        have hle : (s.refs.retain (.object k)).count (.object k) ≤
            (s.withHandle arena a k rights).refCount (.object k) :=
          Nat.le_trans (RefCounts.count_le_retain _ _ _) (RefCounts.count_le_retain _ _ _)
        omega
      rw [System.release_of_many hmany]
      rfl

end Desk

namespace World

/-- What holds of the calls on a way from the beginning. -/
structure CallsSound (w : World) (ls : List (Option Koid × World)) : Prop where
  /-- In every state an object counts its live handles, over all arenas. -/
  live : ∀ v ∈ {} :: ls.map Prod.snd, ∀ k,
    v.system.handleCount k = {h : HandleId | ∃ r, v.Live h r ∧ r.object = k}.ncard
  /-- The calls to an object are the losses of its last handle and the kernel handles that let
  go. -/
  count : ∀ k, w.system.told.count k = losses k {} ls + (stops ls).count k
  /-- A tick tells nobody, or the object whose last handle it closes, or the object that a kernel
  handle lets go of, and the object is there. -/
  call : ∀ u l v, (u, l, v) ∈ ticks {} ls → v.system.told = u.system.told ∨
    (∃ h r, u.TellsLast v h r ∧ v.system.told = r.object :: u.system.told) ∨
    ∃ k, l = some k ∧ u.Holds k ∧ u.system.Present (.object k) ∧
      v.system = u.system.zeroHandles k ∧ v.system.told = k :: u.system.told

end World

/-- Whatever way leads from the beginning to a state, the calls on it are sound. -/
theorem Trail.callsSound {w : World} {ls : List (Option Koid × World)}
    (h : Trail World.Holds {} ls w) : w.CallsSound ls := by
  have hp : World.Passed True True {} := (World.reachable_run []).passed
  constructor
  case live => exact fun v hv k => (h.passed_of_mem hp hv).handleCount_eq_ncard k
  case count =>
    intro k
    rw [h.count_told hp]
    exact Nat.zero_add _
  case call =>
    intro u l v hm
    obtain ⟨htick, hu⟩ := h.tick_of_mem hp hm
    obtain ⟨-, ht, -⟩ | ⟨-, x, r, htell, ht, -⟩ | ⟨k, hl, hk, hv, ht, -⟩ := htick.told hu
    · exact .inl ht
    · exact .inr (.inl ⟨x, r, htell, ht⟩)
    · refine .inr (.inr ⟨k, hl, hk, ?_, hv, ht⟩)
      exact hu.accounted.present_of_owed (owed_pos hk (by simp [Task.holds]))

/-- **Every call to an object is accounted for.**  A run of deeds is a way on which kernel handles
let go of exactly what they stop holding by being reset, replaced or dropped, or by not turning into
a handle; and on every way there the calls are sound.  Taking the reference out of a kernel handle,
and turning it into a handle, tell nobody. -/
theorem Desk.zeroHandles_counted (cs : List Deed) :
    (∃ ls, Trail World.Holds {} ls (run cs).world ∧ stops ls = letGos {} cs) ∧
    (∀ ls, Trail World.Holds {} ls (run cs).world → (run cs).world.CallsSound ls) ∧
    (∀ held, ((run cs).act (.release held)).world = (run cs).world) ∧
    ∀ arena held rights h t, held ∈ (run cs).kernels →
      (run cs).world.system.makeFromKernel arena held rights = (.ok h, t) →
        ((run cs).act (.make arena held rights)).world.system.told =
          (run cs).world.system.told := by
  have h0 : World.Passed True True {} := (World.reachable_run []).passed
  -- The way is put together deed by deed from the start.  The last two parts are about one more
  -- deed after it.
  obtain ⟨hway, hb⟩ := foldl_way (d := {}) h0 (fun k => Nat.le_refl _) cs
  refine ⟨hway, fun ls hls => hls.callsSound, fun held => ?_, ?_⟩
  · unfold Desk.act
    dsimp only
    split <;> rfl
  · intro arena held rights h t hh hm
    cases held with
    | none => cases hm
    | some k =>
      have hk := hb.holds hh k rfl
      have htold := told_makeFromKernel (h0.trans hway.moves).accounted hk hm
      unfold Desk.act
      dsimp only
      rw [if_pos hh]
      have hdue : .release (.object k) ∈ (run cs).world.dues := hk
      rw [World.act, if_pos hdue, hm]
      exact htold

end KernelObjects
